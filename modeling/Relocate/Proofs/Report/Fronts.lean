import Mathlib.Tactic.SplitIfs
import Relocate.Proofs.Markup.Nesting
import Relocate.Proofs.Report.Pieces
import Relocate.Proofs.Results

/-!
# Reports from any point on

A report that is cut in two between its parts is read by reading the front and going on with the
back in the state that the front leaves. Only text may be cut anywhere. A mutation is read only
inside an element of that name, behind the root.
-/

set_option autoImplicit false

namespace Relocate.Report

open Relocate.Text Relocate.Markup

deriving instance DecidableEq for Draft

deriving instance DecidableEq for State

namespace State

def after (s : State) (ss : List Symbol) : Except Error State :=
  (Stream.parts ss).events.foldlM step s

@[simp] theorem after_nil (s : State) : s.after [] = .ok s := by
  rw [after, Stream.parts]
  rfl

theorem after_of_before {ss ds : List Symbol} {e : Event}
    (h : Stream.parts ss = (Stream.parts ds).before e) (s : State) :
    s.after ss = (s.step e).bind fun t => t.after ds := by
  rw [after, h]
  exact List.foldlM_cons

theorem resume_append {opened inner : List (List Symbol)} {cs : List Char}
    (h : Stream.Spans opened (Symbols.ofChars cs) inner) {rest : List Symbol} (hrest : Legible rest)
    (s : State) :
    s.resume opened (Symbols.ofChars cs ++ rest) =
      (s.after (Symbols.ofChars cs)).bind fun t => t.resume inner rest := by
  induction hlength : cs.length using Nat.strongRecOn generalizing cs opened s with
  | _ n ih =>
  cases cs with
  | nil =>
    rw [h.eq_of_nil, Symbols.ofChars, List.map_nil, after_nil]
    rfl
  | cons c cs =>
    obtain ⟨e, ds, hparts, hshort, hfirst⟩ := Stream.exists_first h.whole
    obtain ⟨mid, hmid, hspans⟩ := h.of_before hparts
    have hbehind := fun t => ih ds.length (by simp only [List.length_cons] at hlength; omega)
      hspans t rfl
    rw [after_of_before hparts]
    cases hfirst with
    | construct takes =>
      have hinside := Stream.inside_of_cut (takes rest) hmid
      refine (congrArg (Stream.feed step s) hinside).trans ?_
      rw [Stream.feed_before]
      cases s.step e with
      | error _ => rfl
      | ok t => exact hbehind t
    | run run event plain text =>
      subst event
      cases hmid
      have hstep : s.step (.text (Symbols.ofChars run)) = .ok (s.addText run) := by
        rw [step, Symbols.decode_ofChars]
      rw [text, Symbols.ofChars_append, List.append_assoc,
        s.resume_run opened plain (hrest.append ds), hbehind, hstep]
      rfl

end State

/-! ### Fronts of documents -/

/-- The text ends between parts of the document, inside these elements. -/
def Opens (front : String) (opened : List (List Symbol)) : Prop :=
  Stream.Spans [] (Stream.withoutMark (Symbols.ofString front)) opened

instance (front : String) (opened : List (List Symbol)) : Decidable (Opens front opened) :=
  inferInstanceAs (Decidable (Stream.Spans _ _ _))

def State.behind (front : String) : Except Error State :=
  ({} : State).after (Stream.withoutMark (Symbols.ofString front))

theorem withoutMark_of_head {ss : List Symbol} (h : ∀ s ∈ ss.head?, s ≠ .char '\uFEFF') :
    Stream.withoutMark ss = ss := by
  unfold Stream.withoutMark
  split
  · exact absurd rfl (h _ rfl)
  · rfl

theorem withoutMark_append {ss : List Symbol} (hne : ss ≠ []) (rest : List Symbol) :
    Stream.withoutMark (ss ++ rest) = Stream.withoutMark ss ++ rest := by
  obtain ⟨s, ss, rfl⟩ := List.exists_cons_of_ne_nil hne
  by_cases hs : s = .char '\uFEFF'
  · subst hs
    rfl
  · have hhead : ∀ more, ∀ t ∈ (s :: more : List Symbol).head?, t ≠ .char '\uFEFF' := by
      intro more t ht
      cases ht
      exact hs
    rw [List.cons_append, withoutMark_of_head (hhead _), withoutMark_of_head (hhead _),
      List.cons_append]

theorem exists_withoutMark (cs : List Char) :
    ∃ ds, Stream.withoutMark (Symbols.ofChars cs) = Symbols.ofChars ds := by
  unfold Stream.withoutMark
  split
  · rename_i heq
    obtain ⟨c, ds, -, -, hds⟩ := List.map_eq_cons_iff.1 heq
    exact ⟨ds, hds.symm⟩
  · exact ⟨cs, rfl⟩

theorem Opens.ne_empty {front : String} {name : List Symbol} {outer : List (List Symbol)}
    (h : Opens front (name :: outer)) : front ≠ "" := by
  rintro rfl
  cases Stream.Spans.eq_of_nil h

/-- A document is read by reading a front and going on from there. A byte order mark counts as one
only in front of everything. -/
theorem read_append {front : String} {opened : List (List Symbol)} (h : Opens front opened)
    {back : String} (hback : front ≠ "" ∨ ∀ c ∈ back.toList.head?, c ≠ '\uFEFF') :
    read (front ++ back) = (State.behind front).bind fun s =>
      (s.resume opened (Symbols.ofString back)).bind State.finish := by
  have hmark : Stream.withoutMark (Symbols.ofString (front ++ back)) =
      Stream.withoutMark (Symbols.ofString front) ++ Symbols.ofString back := by
    rw [Symbols.ofString_append]
    by_cases hfront : front = ""
    · subst hfront
      refine withoutMark_of_head fun s hs => ?_
      rw [show Symbols.ofString "" = [] from rfl, List.nil_append, Symbols.ofString,
        Symbols.ofChars, List.head?_map] at hs
      obtain ⟨c, hc, rfl⟩ := Option.map_eq_some_iff.1 hs
      exact fun heq => hback.resolve_left (fun h => h rfl) c hc (Symbol.char.inj heq)
    · refine withoutMark_append (fun hnil => hfront ?_) _
      exact String.toList_eq_nil_iff.1 (List.map_eq_nil_iff.1 hnil)
  obtain ⟨ds, hds⟩ := exists_withoutMark front.toList
  rw [← Symbols.ofString] at hds
  rw [Opens, hds] at h
  rw [read, ofSymbols_eq_resume, hmark, State.behind, hds,
    State.resume_append h (legible_ofString back)]
  cases State.after {} (Symbols.ofChars ds) <;> rfl

/-! ### Where a mutation is read -/

namespace State

inductive Stepped (s : State) : Event → State → Prop
  | mutation {tag : StartTag} {d : Draft} (root : s.seenRoot = true)
      (name : tag.name = Symbols.ofString "mutation") (draft : Draft.ofTag tag = .ok d) :
      Stepped s (.start tag) { s with current := some d, text := [] }
  | element {tag : StartTag} (name : s.seenRoot = true → tag.name ≠ Symbols.ofString "mutation")
      (root : s.seenRoot = true ∨ tag.name = Symbols.ofString "mutations") :
      Stepped s (.start tag) { s with seenRoot := true, text := [] }
  | record : Stepped s (.finish (Symbols.ofString "mutation"))
      { s with
        found := (s.current.bind Draft.finding?).toList ++ s.found
        current := none
        text := [] }
  | field {name : List Symbol} {d e : Draft} (other : name ≠ Symbols.ofString "mutation")
      (current : s.current = some d) (set : d.set name s.text = .ok e) :
      Stepped s (.finish name) { s with current := some e, text := [] }
  | outside {name : List Symbol} (other : name ≠ Symbols.ofString "mutation")
      (current : s.current = none) : Stepped s (.finish name) { s with text := [] }
  | root {e : Event} (flat : e.isFlat = true) : Stepped s e { s with seenRoot := true }
  | text {e : Event} (flat : e.isFlat = true) (cs : List Char) : Stepped s e (s.addText cs)
  | pass {e : Event} (flat : e.isFlat = true) : Stepped s e s

theorem stepped {s t : State} {e : Event} (h : s.step e = .ok t) : s.Stepped e t := by
  cases e with
  | start tag =>
    rw [step, onStart] at h
    split_ifs at h with hroot hmutation hmutations
    · obtain ⟨d, hd, rfl⟩ := eq_of_map_eq_ok h
      exact .mutation hroot (StartTag.hasName_iff.1 hmutation) hd
    · cases h
      have helement :=
        Stepped.element (fun _ heq => hmutation (StartTag.hasName_iff.2 heq)) (.inl hroot)
      rwa [← hroot] at helement
    · cases h
      exact .element (fun hseen => absurd hseen hroot) (.inr (StartTag.hasName_iff.1 hmutations))
  | empty tag =>
    cases h
    split_ifs
    · exact .root rfl
    · exact .pass rfl
  | finish name =>
    rw [step, onFinish] at h
    split_ifs at h with hmutation
    · cases h
      subst hmutation
      have hrecord := @Stepped.record s
      -- what is no finding adds nothing to those found before
      cases hfinding : s.current.bind Draft.finding? <;> rw [hfinding] at hrecord <;> exact hrecord
    · split at h
      · rename_i d hd
        obtain ⟨d', hset, rfl⟩ := eq_of_map_eq_ok h
        exact .field hmutation hd hset
      · rename_i hnone
        cases h
        exact .outside hmutation hnone
  | text run =>
    rw [step] at h
    split at h
    · cases h
      exact .text rfl _
    · cases h
  | data run =>
    cases h
    exact .text rfl _
  | reference name =>
    obtain ⟨c, -, rfl⟩ := eq_of_map_eq_ok h
    exact .text rfl _
  | aside =>
    cases h
    exact .pass rfl

theorem seenRoot_step {s t : State} {e : Event} (h : s.step e = .ok t)
    (hroot : s.seenRoot = true) : t.seenRoot = true := by
  cases stepped h with
  | element => rfl
  | root => rfl
  | _ => exact hroot

/-- A mutation is being read only inside an element of that name, behind the root. -/
structure Enclosed (opened : List (List Symbol)) (s : State) : Prop where
  root : s.current.isSome → s.seenRoot = true
  element : s.current.isSome → Symbols.ofString "mutation" ∈ opened

namespace Enclosed

variable {opened inner : List (List Symbol)} {s t : State}

theorem of_none (h : s.current = none) : s.Enclosed opened := by
  constructor <;> intro hsome <;> rw [h] at hsome <;> cases hsome

theorem step {e : Event} (hs : s.Enclosed opened)
    (hopen : Stream.openAfter? opened [e] = some inner)
    (h : s.step e = .ok t) : t.Enclosed inner := by
  have hflat : e.isFlat = true → inner = opened := by
    intro he
    rw [Stream.openAfter?_of_isFlat he] at hopen
    exact (Option.some.inj hopen).symm
  cases stepped h with
  | mutation root name =>
    cases hopen
    exact ⟨fun _ => root, fun _ => name ▸ List.mem_cons_self⟩
  | element =>
    cases hopen
    exact ⟨fun _ => rfl, fun hsome => List.mem_cons_of_mem _ (hs.element hsome)⟩
  | record => exact of_none rfl
  | field other current =>
    obtain ⟨outer, rfl, hrest⟩ := Stream.openAfter?_finish hopen
    cases hrest
    have hsome : s.current.isSome := by rw [current]; rfl
    exact ⟨fun _ => hs.root hsome, fun _ =>
      (List.mem_cons.1 (hs.element hsome)).resolve_left fun heq => other heq.symm⟩
  | outside other current => exact of_none current
  | root flat =>
    rw [hflat flat]
    exact ⟨fun _ => rfl, hs.element⟩
  | text flat =>
    rw [hflat flat]
    exact ⟨hs.root, hs.element⟩
  | pass flat =>
    rw [hflat flat]
    exact hs

theorem foldlM {es : List Event} (hs : s.Enclosed opened)
    (hopen : Stream.openAfter? opened es = some inner) (h : es.foldlM State.step s = .ok t) :
    t.Enclosed inner := by
  induction es generalizing opened s with
  | nil =>
    cases hopen
    cases h
    exact hs
  | cons e es ih =>
    rw [Stream.openAfter?_cons] at hopen
    obtain ⟨mid, hmid, hrest⟩ := Option.bind_eq_some_iff.1 hopen
    obtain ⟨u, hu, hes⟩ := foldlM_cons_eq_ok_iff.1 h
    exact ih (hs.step hmid hu) hrest hes

end Enclosed

theorem enclosed_behind {front : String} {opened : List (List Symbol)} (h : Opens front opened)
    {s : State} (hs : State.behind front = .ok s) : s.Enclosed opened :=
  (Enclosed.of_none rfl).foldlM h.opens hs

end State

end Relocate.Report
