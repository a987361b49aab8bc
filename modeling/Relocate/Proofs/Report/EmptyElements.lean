import Relocate.Proofs.Report.Independence

/-!
# Elements without content

An element without content may be written with one tag or with two. The reader of reports passes
over the single tag, except that it accepts it as the root, and acts on each of the two. Both come
to the same where the two tags leave the mutation that is being read as it is and take no text from
it.
-/

set_option autoImplicit false

namespace Relocate.Report

open Relocate.Text Relocate.Markup

theorem trim_append_of_allBlank {cs : List Char} (h : allBlank cs = true) (more : List Char) :
    trim (cs ++ more) = trim more := by
  rw [trim, List.dropWhile_append_of_pos (List.all_eq_true.1 h)]
  rfl

theorem Draft.finding?_ofTag {tag : StartTag} {d : Draft} (h : ofTag tag = .ok d) :
    d.finding? = none := by
  obtain ⟨e, hfold, h⟩ := eq_of_bind_eq_ok h
  have hline : e.line = none := by
    refine foldlM_invariant (P := fun d : Draft => d.line = none)
      (fun d a d' hd hset => ?_) rfl hfold
    obtain ⟨text, -, rfl⟩ := eq_of_map_eq_ok hset
    split_ifs <;> exact hd
  split at h
  · cases h
  · cases h
    simp [finding?, hline]

namespace State

/-- Where it does not matter whether an element without content has one tag or two. -/
inductive Indifferent (opened : List (List Symbol)) (s : State) (tag : StartTag) : Prop
  /-- Outside all mutations, unless it is an element in front of the root or a mutation with bad
  attributes. -/
  | outside (current : s.current = none)
      (root : s.seenRoot = true ∨ tag.hasName "mutations" = true)
      (readable : tag.hasName "mutation" = true → ∃ d, Draft.ofTag tag = .ok d)
  /-- In a mutation, unless it is a mutation itself, or a field that would get another text, or
  there is text in front of it that a field around it will take. -/
  | inside (d : Draft) (current : s.current = some d) (other : tag.hasName "mutation" = false)
      (kept : d.set tag.name [] = .ok d)
      (text : allBlank s.text = true ∨
        ∀ name ∈ opened.head?, name ∉ fieldNames.map Symbols.ofString)

/-- Both spellings are read, and lead to states that read what follows alike. -/
def StepsAlike (opened : List (List Symbol)) (s : State) (tag : StartTag) : Prop :=
  ∃ u v w, s.step (.empty tag) = .ok u ∧ s.step (.start tag) = .ok v ∧
    v.step (.finish tag.name) = .ok w ∧ Follows [] opened u w

section

variable {opened : List (List Symbol)} {s : State} {tag : StartTag}

theorem step_empty (hroot : s.seenRoot = true) : s.step (.empty tag) = .ok s := by
  rw [step]
  split_ifs
  · rw [← hroot]
  · rfl

theorem step_start_of_ne (hroot : s.seenRoot = true) (hother : tag.hasName "mutation" = false) :
    s.step (.start tag) = .ok { s with text := [] } := by
  rw [step, onStart, if_pos hroot, if_neg (by rw [hother]; exact Bool.false_ne_true)]

theorem step_finish_outside {name : List Symbol} (hname : name ≠ Symbols.ofString "mutation")
    (hcurrent : s.current = none) : s.step (.finish name) = .ok { s with text := [] } := by
  rw [step, onFinish, if_neg hname, hcurrent]

theorem follows_outside {u w : State} (hfound : w.found = u.found) (hu : u.current = none)
    (hw : w.current = none) (hroot : u.seenRoot = true) (hroot' : w.seenRoot = true) :
    Follows [] opened u w :=
  ⟨by rw [hfound, List.append_nil], hroot'.trans hroot.symm, hw.trans hu.symm, .inl hu⟩

theorem stepsAlike_mutation (hroot : s.seenRoot = true) (hcurrent : s.current = none)
    (hname : tag.hasName "mutation" = true) {d : Draft} (hd : Draft.ofTag tag = .ok d) :
    s.StepsAlike opened tag := by
  refine ⟨s, { s with current := some d, text := [] }, { s with current := none, text := [] },
    step_empty hroot, ?_, ?_, follows_outside rfl hcurrent rfl hroot hroot⟩
  · rw [step, onStart, if_pos hroot, if_pos hname, hd]
    rfl
  · rw [step, onFinish, if_pos (StartTag.hasName_iff.1 hname)]
    simp [Draft.finding?_ofTag hd]

theorem stepsAlike_outside (hroot : s.seenRoot = true ∨ tag.hasName "mutations" = true)
    (hcurrent : s.current = none) (hname : tag.hasName "mutation" = false) :
    s.StepsAlike opened tag := by
  have hne := StartTag.name_ne_of_hasName hname
  cases hseen : s.seenRoot with
  | true =>
    exact ⟨s, _, _, step_empty hseen, step_start_of_ne hseen hname,
      step_finish_outside hne hcurrent, follows_outside rfl hcurrent hcurrent hseen hseen⟩
  | false =>
    have hmutations : tag.hasName "mutations" = true :=
      hroot.resolve_left (by rw [hseen]; exact Bool.false_ne_true)
    refine ⟨{ s with seenRoot := true }, { s with seenRoot := true, text := [] }, _, ?_, ?_,
      step_finish_outside hne hcurrent, follows_outside rfl hcurrent hcurrent rfl rfl⟩
    · rw [step, if_pos hmutations]
    · rw [step, onStart, if_neg (by rw [hseen]; exact Bool.false_ne_true), if_pos hmutations]

theorem stepsAlike_inside (hroot : s.seenRoot = true) {d : Draft} (hcurrent : s.current = some d)
    (hname : tag.hasName "mutation" = false) (hkept : d.set tag.name [] = .ok d)
    (htext : allBlank s.text = true ∨
      ∀ name ∈ opened.head?, name ∉ fieldNames.map Symbols.ofString) :
    s.StepsAlike opened tag := by
  refine ⟨s, _, { s with text := [] }, step_empty hroot, step_start_of_ne hroot hname, ?_,
    (List.append_nil _).symm, rfl, rfl, .inr ?_⟩
  · rw [step, onFinish, if_neg (StartTag.name_ne_of_hasName hname)]
    simp only [hcurrent, hkept]
    rfl
  · rcases htext with hblank | hfield
    · exact .inr fun more => (trim_append_of_allBlank hblank more).symm
    · exact .inl hfield

theorem Indifferent.stepsAlike (h : s.Indifferent opened tag) (hs : s.Enclosed opened) :
    s.StepsAlike opened tag := by
  cases h with
  | outside current root readable =>
    cases hmutation : tag.hasName "mutation" with
    | true =>
      have hroot : s.seenRoot = true := by
        refine root.resolve_right fun h => ?_
        have heq := (StartTag.hasName_iff.1 h).symm.trans (StartTag.hasName_iff.1 hmutation)
        exact absurd (Symbols.ofString_inj.1 heq) (by decide)
      obtain ⟨d, hd⟩ := readable hmutation
      exact stepsAlike_mutation hroot current hmutation hd
    | false => exact stepsAlike_outside root current hmutation
  | inside d current other kept text =>
    exact stepsAlike_inside (hs.root (by rw [current]; rfl)) current other kept text

end

end State

/-- Where the reader is indifferent, the two spellings of an element without content are read alike,
whatever follows. -/
theorem read_empty_eq_pair {front : String} {opened : List (List Symbol)}
    (hfront : Opens front opened)
    (tag : TagText) {gap : List Char} (hgap : ∀ c ∈ gap, isSpaceChar c = true)
    (h : ∀ s, State.behind front = .ok s → s.Indifferent opened tag.startTag) (back : String) :
    read (front ++ String.ofList tag.empty ++ back) =
      read (front ++ String.ofList (tag.opening ++ tag.closing gap) ++ back) := by
  have hhead : ∀ cs : List Char, cs.head? = some '<' →
      ∀ c ∈ (String.ofList cs ++ back).toList.head?, c ≠ '\uFEFF' := by
    intro cs hcs c hc
    rw [String.toList_append, String.toList_ofList, List.head?_append, hcs] at hc
    cases hc
    decide
  rw [String.append_assoc, String.append_assoc, read_append hfront (.inr (hhead _ rfl)),
    read_append hfront (.inr (hhead _ rfl))]
  -- from the state that the front leaves, one event against two, then the same rest
  cases hs : State.behind front with
  | error e => rfl
  | ok s =>
    obtain ⟨u, v, w, hempty, hstart, hfinish, hfollows⟩ :=
      (h s hs).stepsAlike (State.enclosed_behind hfront hs)
    have hone : s.resume opened (Symbols.ofString (String.ofList tag.empty ++ back)) =
        u.resume opened (Symbols.ofString back) := by
      rw [Symbols.ofString_append, Symbols.ofString_ofList, State.resume, tag.inside_empty]
      exact Stream.feed_before_of_ok _ hempty _
    have htwo : s.resume opened
        (Symbols.ofString (String.ofList (tag.opening ++ tag.closing gap) ++ back)) =
          w.resume opened (Symbols.ofString back) := by
      rw [Symbols.ofString_append, Symbols.ofString_ofList, Symbols.ofChars_append,
        List.append_assoc, State.resume, tag.inside_opening,
        tag.inside_closing opened (Symbols.ofString back) hgap]
      refine (Stream.feed_before_of_ok _ hstart _).trans (Stream.feed_before_of_ok _ ?_ _)
      rw [← tag.name_startTag]
      exact hfinish
    have hboth := (hfollows.resume_of_nil (Symbols.ofString back)).symm
    rw [← hone, ← htwo] at hboth
    exact hboth

/-- The fields of a mutation, up to the end of the report. -/
def behindKillingTest : String :=
  "<sourceFile>A</sourceFile><mutatedClass>B</mutatedClass><mutatedMethod>m</mutatedMethod>" ++
    "<methodDescription></methodDescription><mutator></mutator><lineNumber>7</lineNumber>" ++
    "</mutation></mutations>"

/-- An element that is no field, behind white space in a mutation, leaves the record as it is. -/
theorem read_empty_eq_pair_killingTest :
    read ("<mutations><mutation>\n" ++ "<killingTest/>" ++ behindKillingTest) =
      read ("<mutations><mutation>\n" ++ "<killingTest></killingTest>" ++ behindKillingTest) ∧
    read ("<mutations><mutation>\n" ++ "<killingTest/>" ++ behindKillingTest) =
      .ok [{ sourceFile := "A", mutatedClass := "B", mutatedMethod := "m", line := 7 }] := by
  set tag : TagText :=
    .written (show IsName "killingTest" by decide) (List.forall_mem_nil Assignment.Fits) 0
  have hfront : Opens "<mutations><mutation>\n"
      [Symbols.ofString "mutation", Symbols.ofString "mutations"] := by
    decide +kernel
  have hbehind : State.behind "<mutations><mutation>\n" =
      .ok { seenRoot := true, current := some {}, text := ['\n'] } := by
    decide +kernel
  refine ⟨read_empty_eq_pair hfront tag (List.forall_mem_nil _) (fun s hs => ?_) _,
    by decide +kernel⟩
  rw [hbehind] at hs
  cases hs
  exact .inside {} rfl (by decide +kernel) (by decide +kernel) (.inl (by decide))

def sourceFileReport (element : String) : String :=
  "<mutations><mutation>" ++ element ++ "<mutatedClass></mutatedClass><mutatedMethod>" ++
    "</mutatedMethod><methodDescription></methodDescription><mutator></mutator>" ++
    "<lineNumber>1</lineNumber></mutation></mutations>"

/-- A source file without text is missing if it has one tag. So is the error of an index without
text, or of one whose text is in front of the tag, and that of an element in front of the root. -/
theorem empty_ne_pair :
    read (sourceFileReport "<sourceFile/>") = .ok [] ∧
    read (sourceFileReport "<sourceFile></sourceFile>") = .ok [{ line := 1 }] ∧
    read (report "<mutation><index/></mutation>") = .ok [] ∧
    read (report "<mutation><index></index></mutation>") =
      .error (.report (.invalidNumber "index" "")) ∧
    read (report "<mutation><index>2<x/></index></mutation>") = .ok [] ∧
    read (report "<mutation><index>2<x></x></index></mutation>") =
      .error (.report (.invalidNumber "index" "")) ∧
    read ("<x/>" ++ report "") = .ok [] ∧
    read ("<x></x>" ++ report "") = .error (.report (.wrongRoot "x")) := by
  decide +kernel

end Relocate.Report
