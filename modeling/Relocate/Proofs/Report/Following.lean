import Relocate.Proofs.Report.Fronts

/-!
# States that read alike

Two states read every rest of a report alike if they differ only in what was found before and in
text that no field will take: text outside all mutations, text directly inside an element that is no
field, and white space at the beginning. What is found from there on is the same, and so is every
error.
-/

set_option autoImplicit false

namespace Relocate.Report

open Relocate.Text Relocate.Markup

def fieldNames : List String :=
  ["sourceFile", "mutatedClass", "mutatedMethod", "methodDescription", "lineNumber", "mutator",
    "description", "index", "block"]

namespace Draft

theorem set_of_not_mem {element : List Symbol} (h : element ∉ fieldNames.map Symbols.ofString)
    (d : Draft) (raw : List Char) : d.set element raw = .ok d := by
  simp only [fieldNames, List.map_cons, List.map_nil, List.mem_cons, List.not_mem_nil, or_false,
    not_or] at h
  simp [set, h]

theorem set_congr {raw other : List Char} (h : trim raw = trim other) (d : Draft)
    (element : List Symbol) : d.set element raw = d.set element other := by
  simp only [set, h]

end Draft

namespace State

/-- The texts so far are read alike, whatever text follows. -/
def SameText (s t : State) : Prop := ∀ more, trim (t.text ++ more) = trim (s.text ++ more)

/-- Inside the elements `opened`, the second state has found `base` before and is otherwise as good
as the first. -/
structure Follows (base : List Finding) (opened : List (List Symbol)) (s t : State) : Prop where
  found : t.found = s.found ++ base
  seenRoot : t.seenRoot = s.seenRoot
  current : t.current = s.current
  text : s.current = none ∨ (∀ name ∈ opened.head?, name ∉ fieldNames.map Symbols.ofString) ∨
    s.SameText t

inductive FollowsAs (base : List Finding) (opened : List (List Symbol)) :
    Except Error State → Except Error State → Prop
  | ok {s t : State} (h : Follows base opened s t) : FollowsAs base opened (.ok s) (.ok t)
  | error (e : Error) : FollowsAs base opened (.error e) (.error e)

namespace Follows

variable {base : List Finding} {opened inner : List (List Symbol)} {s t : State}

theorem of_text_eq (found : t.found = s.found ++ base) (seenRoot : t.seenRoot = s.seenRoot)
    (current : t.current = s.current) (text : t.text = s.text) : Follows base opened s t :=
  ⟨found, seenRoot, current, .inr (.inr fun more => by rw [text])⟩

theorem addText (h : Follows base opened s t) (cs : List Char) :
    Follows base opened (s.addText cs) (t.addText cs) := by
  refine ⟨h.found, h.seenRoot, h.current, ?_⟩
  rcases h.text with hnone | hother | hsame
  · exact .inl hnone
  · exact .inr (.inl hother)
  · refine .inr (.inr fun more => ?_)
    simp only [State.addText, List.append_assoc]
    exact hsame _

theorem onStart (h : Follows base opened s t) (tag : StartTag) :
    FollowsAs base inner (s.onStart tag) (t.onStart tag) := by
  unfold State.onStart
  rw [h.seenRoot, h.current]
  split_ifs
  · cases Draft.ofTag tag with
    | error e => exact .error e
    | ok d => exact .ok (of_text_eq h.found rfl rfl rfl)
  · exact .ok (of_text_eq h.found rfl rfl rfl)
  · exact .ok (of_text_eq h.found rfl rfl rfl)
  · exact .error _

/-- The text matters only to a mutation that is being read, in an element that is a field. -/
theorem onFinish {name : List Symbol} (h : Follows base (name :: opened) s t) :
    FollowsAs base opened (s.onFinish name) (t.onFinish name) := by
  unfold State.onFinish
  rw [h.current, h.seenRoot]
  split_ifs with hname
  · refine .ok (of_text_eq ?_ rfl rfl rfl)
    cases s.current.bind Draft.finding? with
    | none => exact h.found
    | some f => exact congrArg (f :: ·) h.found
  · cases hcurrent : s.current with
    | none => exact .ok (of_text_eq h.found rfl rfl rfl)
    | some d =>
      have hset : d.set name t.text = d.set name s.text := by
        rcases h.text with hnone | hother | hsame
        · cases hcurrent.symm.trans hnone
        · rw [Draft.set_of_not_mem (hother name rfl), Draft.set_of_not_mem (hother name rfl)]
        · have htrim := hsame []
          rw [List.append_nil, List.append_nil] at htrim
          exact d.set_congr htrim name
      simp only [hset]
      cases d.set name s.text with
      | error e => exact .error e
      | ok d => exact .ok (of_text_eq h.found rfl rfl rfl)

theorem step {e : Event} (h : Follows base opened s t)
    (hopen : Stream.openAfter? opened [e] = some inner) :
    FollowsAs base inner (s.step e) (t.step e) := by
  cases e with
  | start tag => exact h.onStart tag
  | empty tag =>
    cases hopen
    refine .ok ?_
    split_ifs
    · exact ⟨h.found, rfl, h.current, h.text⟩
    · exact h
  | finish name =>
    obtain ⟨outer, rfl, hrest⟩ := Stream.openAfter?_finish hopen
    cases hrest
    exact h.onFinish
  | text run =>
    cases hopen
    simp only [State.step]
    cases Symbols.decode run with
    | error f => exact .error _
    | ok cs => exact .ok (h.addText cs)
  | data run =>
    cases hopen
    exact .ok (h.addText _)
  | reference name =>
    cases hopen
    simp only [State.step]
    cases referenceText name with
    | error e => exact .error e
    | ok c => exact .ok (h.addText [c])
  | aside =>
    cases hopen
    exact .ok h

theorem finish (h : Follows base opened s t) :
    t.finish = s.finish.map (base.reverse ++ ·) := by
  rw [State.finish, State.finish, h.seenRoot]
  split_ifs
  · rw [h.found, List.reverse_append]
    rfl
  · rfl

theorem feed (h : Follows base opened s t) (last : Option Fault) (es : List Event) :
    (Stream.feed State.step t (Stream.balanced last opened es)).bind State.finish =
      ((Stream.feed State.step s (Stream.balanced last opened es)).bind State.finish).map
        (base.reverse ++ ·) := by
  induction es generalizing opened s t with
  | nil =>
    cases last with
    | some f => rfl
    | none => exact h.finish
  | cons e es ih =>
    cases hopen : Stream.openAfter? opened [e] with
    | none =>
      obtain ⟨f, hfailed⟩ := Stream.exists_balanced_eq_failed hopen
      rw [hfailed]
      rfl
    | some inner =>
      rw [Stream.balanced_cons hopen, Stream.feed_before, Stream.feed_before]
      have hstep := h.step hopen
      generalize s.step e = x, t.step e = y at hstep ⊢
      cases hstep with
      | error e => rfl
      | ok hnext => exact ih hnext

theorem resume (h : Follows base opened s t) (rest : List Symbol) :
    (t.resume opened rest).bind State.finish =
      ((s.resume opened rest).bind State.finish).map (base.reverse ++ ·) :=
  h.feed _ _

theorem resume_of_nil (h : Follows [] opened s t) (rest : List Symbol) :
    (t.resume opened rest).bind State.finish = (s.resume opened rest).bind State.finish := by
  rw [h.resume]
  cases (s.resume opened rest).bind State.finish <;> rfl

end Follows

end State

end Relocate.Report
