import Relocate.Proofs.Markup.Cutting
import Relocate.Tree.Rose

/-!
# Nesting of elements

Which elements are open behind some events, and which events spell whole elements. Events that close
every element they open spell a sequence of element trees, so a document whose end tags all fit is
such a sequence as far as its elements are closed.
-/

set_option autoImplicit false

namespace Relocate.Markup

open Relocate.Text

/-- Events that spell elements one behind the other. An element without content may have one tag or
two. -/
inductive Spells : List Event → List (Rose StartTag) → Prop
  | nil : Spells [] []
  | empty {tag : StartTag} {es : List Event} {ts : List (Rose StartTag)} (rest : Spells es ts) :
      Spells (.empty tag :: es) (.node tag [] :: ts)
  | pair {tag : StartTag} {inner es : List Event} {cs ts : List (Rose StartTag)}
      (content : Spells inner cs) (rest : Spells es ts) :
      Spells (.start tag :: (inner ++ .finish tag.name :: es)) (.node tag cs :: ts)

inductive Closes : List Event → List (List Symbol) → Prop
  | done {es : List Event} {ts : List (Rose StartTag)} (whole : Spells es ts) : Closes es []
  | finish {es fs : List Event} {ts : List (Rose StartTag)} {name : List Symbol}
      {opened : List (List Symbol)} (whole : Spells es ts) (rest : Closes fs opened) :
      Closes (es ++ .finish name :: fs) (name :: opened)

namespace Event

def isTag : Event → Bool
  | .start _ => true
  | .empty _ => true
  | .finish _ => true
  | _ => false

end Event

namespace Closes

variable {es : List Event} {opened : List (List Symbol)}

theorem empty (h : Closes es opened) (tag : StartTag) : Closes (.empty tag :: es) opened := by
  cases h with
  | done whole => exact .done whole.empty
  | finish whole rest => exact .finish whole.empty rest

theorem start {tag : StartTag} (h : Closes es (tag.name :: opened)) :
    Closes (.start tag :: es) opened := by
  cases h with
  | finish content rest =>
    cases rest with
    | done whole => exact .done (.pair content whole)
    | @finish fs gs _ name _ whole rest =>
      have hpair := @Spells.pair tag _ _ _ _ content whole
      have hwhole := @Closes.finish _ _ _ name _ hpair rest
      simpa using hwhole

end Closes

namespace Stream

/-- The elements that are open behind some events, the innermost first, if every end tag closes the
innermost element. -/
def openAfter? (opened : List (List Symbol)) : List Event → Option (List (List Symbol))
  | [] => some opened
  | .start tag :: es => openAfter? (tag.name :: opened) es
  | .finish name :: es =>
    match opened with
    | [] => none
    | expected :: opened => if name = expected then openAfter? opened es else none
  | _ :: es => openAfter? opened es

section

variable {opened inner : List (List Symbol)} {es : List Event}

theorem openAfter?_of_isFlat {e : Event} (he : e.isFlat = true) :
    openAfter? opened (e :: es) = openAfter? opened es := by
  cases e with
  | start _ => cases he
  | finish _ => cases he
  | _ => rfl

theorem openAfter?_finish {name : List Symbol}
    (h : openAfter? opened (.finish name :: es) = some inner) :
    ∃ outer, opened = name :: outer ∧ openAfter? outer es = some inner := by
  cases opened with
  | nil => cases h
  | cons expected outer =>
    by_cases hname : name = expected
    · exact ⟨outer, by rw [hname], by simpa [openAfter?, hname] using h⟩
    · simp [openAfter?, hname] at h

theorem openAfter?_under (h : openAfter? opened es = some inner) (around : List (List Symbol)) :
    openAfter? (opened ++ around) es = some (inner ++ around) := by
  induction es generalizing opened with
  | nil =>
    cases h
    rfl
  | cons e es ih =>
    cases e with
    | start tag => exact ih h
    | finish name =>
      obtain ⟨outer, rfl, hes⟩ := openAfter?_finish h
      simpa [openAfter?] using ih hes
    | _ => exact ih h

theorem openAfter?_cons {e : Event} :
    openAfter? opened (e :: es) = (openAfter? opened [e]).bind fun mid => openAfter? mid es := by
  cases e with
  | finish name =>
    cases opened with
    | nil => rfl
    | cons expected outer =>
      by_cases hname : name = expected <;> simp [openAfter?, hname]
  | _ => rfl

section

variable {last : Option Fault} {e : Event}

theorem balanced_cons (h : openAfter? opened [e] = some inner) :
    balanced last opened (e :: es) = (balanced last inner es).before e := by
  cases e with
  | finish name =>
    obtain ⟨outer, rfl, hrest⟩ := openAfter?_finish h
    cases hrest
    exact if_pos rfl
  | _ =>
    cases h
    rfl

theorem exists_balanced_eq_failed (h : openAfter? opened [e] = none) :
    ∃ f, ∀ last es, balanced last opened (e :: es) = failed f := by
  cases e with
  | finish name =>
    cases opened with
    | nil => exact ⟨_, fun _ _ => rfl⟩
    | cons expected outer =>
      have hname : name ≠ expected := by
        rintro rfl
        simp [openAfter?] at h
      exact ⟨_, fun _ _ => if_neg hname⟩
  | _ => cases h

/-- Without a fault every event of a document stays, and every end tag fits. -/
theorem of_balanced (h : (balanced last opened es).fault = none) :
    (balanced last opened es).events = es ∧ ∃ inner, openAfter? opened es = some inner := by
  induction es generalizing opened with
  | nil => exact ⟨rfl, opened, rfl⟩
  | cons e es ih =>
    cases hopen : openAfter? opened [e] with
    | none =>
      obtain ⟨f, hfailed⟩ := exists_balanced_eq_failed hopen
      rw [hfailed] at h
      cases h
    | some mid =>
      rw [balanced_cons hopen] at h ⊢
      obtain ⟨hes, hinner⟩ := ih h
      rw [openAfter?_cons, hopen]
      exact ⟨congrArg (e :: ·) hes, hinner⟩

end

theorem closes_of_openAfter? (h : openAfter? opened es = some [])
    (htags : ∀ e ∈ es, e.isTag = true) : Closes es opened := by
  induction es generalizing opened with
  | nil =>
    cases h
    exact .done .nil
  | cons e es ih =>
    have hes : ∀ f ∈ es, f.isTag = true := fun f hf => htags f (List.mem_cons_of_mem e hf)
    have he := htags e List.mem_cons_self
    cases e with
    | start tag => exact (ih h hes).start
    | empty tag => exact (ih h hes).empty tag
    | finish name =>
      obtain ⟨outer, rfl, hrest⟩ := openAfter?_finish h
      exact .finish .nil (ih hrest hes)
    | _ => cases he

/-- Tags that open nothing in the end spell whole elements. -/
theorem exists_spells (h : openAfter? [] es = some []) (htags : ∀ e ∈ es, e.isTag = true) :
    ∃ ts, Spells es ts := by
  cases closes_of_openAfter? h htags with
  | done whole => exact ⟨_, whole⟩

theorem openAfter?_filter {keep : Event → Bool} (hkeep : ∀ e, e.isFlat = false → keep e = true) :
    openAfter? opened (es.filter keep) = openAfter? opened es := by
  induction es generalizing opened with
  | nil => rfl
  | cons e es ih =>
    cases hflat : e.isFlat with
    | false =>
      rw [List.filter_cons_of_pos (hkeep e hflat)]
      cases e with
      | start tag => exact ih
      | finish name =>
        cases opened with
        | nil => rfl
        | cons expected outer =>
          simp only [openAfter?]
          rw [ih]
      | _ => cases hflat
    | true =>
      rw [openAfter?_of_isFlat hflat]
      by_cases he : keep e = true
      · rw [List.filter_cons_of_pos he, openAfter?_of_isFlat hflat, ih]
      · rw [List.filter_cons_of_neg he, ih]

theorem inside_of_cut {s : Symbol} {rest behind : List Symbol} {e : Event}
    (h : cut s rest = .ok (e, behind)) (he : openAfter? opened [e] = some inner) :
    inside opened (s :: rest) = (inside inner behind).before e := by
  rw [inside, parts_of_cut h]
  exact balanced_cons he

end

structure Spans (opened : List (List Symbol)) (ss : List Symbol) (inner : List (List Symbol)) :
    Prop where
  whole : (parts ss).fault = none
  opens : openAfter? opened (parts ss).events = some inner

namespace Spans

variable {opened inner : List (List Symbol)} {ss : List Symbol}

instance : Decidable (Spans opened ss inner) :=
  decidable_of_iff ((parts ss).fault = none ∧ openAfter? opened (parts ss).events = some inner)
    ⟨fun h => ⟨h.1, h.2⟩, fun h => ⟨h.whole, h.opens⟩⟩

theorem under (h : Spans opened ss inner) (around : List (List Symbol)) :
    Spans (opened ++ around) ss (inner ++ around) := ⟨h.whole, openAfter?_under h.opens around⟩

theorem eq_of_nil (h : Spans opened [] inner) : inner = opened := by
  have hopens := h.opens
  rw [parts] at hopens
  exact (Option.some.inj hopens).symm

theorem of_before {ds : List Symbol} {e : Event} (h : Spans opened ss inner)
    (hss : parts ss = (parts ds).before e) :
    ∃ mid, openAfter? opened [e] = some mid ∧ Spans mid ds inner := by
  obtain ⟨hwhole, hopens⟩ := h
  rw [hss] at hwhole hopens
  have hcons : openAfter? opened (e :: (parts ds).events) = some inner := hopens
  rw [openAfter?_cons] at hcons
  obtain ⟨mid, hmid, hrest⟩ := Option.bind_eq_some_iff.1 hcons
  exact ⟨mid, hmid, hwhole, hrest⟩

end Spans

/-- The first part of a text: a construct that ends by itself, or a run of characters. -/
inductive First (c : Char) (cs : List Char) (e : Event) (ds : List Char) : Prop
  | construct (takes : ∀ more, cut (.char c) (Symbols.ofChars cs ++ more) =
      .ok (e, Symbols.ofChars ds ++ more))
  | run (run : List Char) (event : e = .text (Symbols.ofChars run))
      (plain : ∀ d ∈ run, isMark (.char d) = false) (text : c :: cs = run ++ ds)

theorem exists_first {c : Char} {cs : List Char}
    (h : (parts (Symbols.ofChars (c :: cs))).fault = none) :
    ∃ e ds, parts (Symbols.ofChars (c :: cs)) = (parts (Symbols.ofChars ds)).before e ∧
      ds.length ≤ cs.length ∧ First c cs e ds := by
  -- a mark begins a construct; anything else begins a run up to the next mark
  cases hc : isMark (.char c) with
  | true =>
    cases hcut : cut (.char c) (Symbols.ofChars cs) with
    | error f =>
      exfalso
      rw [Symbols.ofChars, List.map_cons, parts] at h
      split at h
      · rename_i heq
        cases hcut.symm.trans heq
      · cases h
    | ok p =>
      obtain ⟨e, behind⟩ := p
      have htakes := cut_takes hcut hc
      obtain ⟨front, hfront⟩ := htakes.suffix
      obtain ⟨part, ds, hcs, -, rfl⟩ := List.map_eq_append_iff.1 hfront.symm
      refine ⟨e, ds, parts_of_cut hcut, ?_, .construct htakes.append⟩
      rw [hcs, List.length_append]
      omega
  | false =>
    set p : Char → Bool := fun d => !isMark (.char d) with hp
    have htake : (Symbols.ofChars cs).takeWhile (fun t => !isMark t) =
        Symbols.ofChars (cs.takeWhile p) := List.takeWhile_map
    have hdrop : (Symbols.ofChars cs).dropWhile (fun t => !isMark t) =
        Symbols.ofChars (cs.dropWhile p) := List.dropWhile_map
    have hcut := cut_text hc (Symbols.ofChars cs)
    rw [htake, hdrop] at hcut
    refine ⟨_, cs.dropWhile p, parts_of_cut hcut, length_dropWhile_le p cs,
      .run (c :: cs.takeWhile p) rfl (List.forall_mem_cons.2 ⟨hc, fun d hd => ?_⟩) ?_⟩
    · simpa [hp] using List.all_eq_true.1 List.all_takeWhile d hd
    · rw [List.cons_append, List.takeWhile_append_dropWhile]

end Stream

end Relocate.Markup
