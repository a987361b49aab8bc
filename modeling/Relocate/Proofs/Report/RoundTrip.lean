import Relocate.Proofs.Report.Findings
import Relocate.Proofs.Report.Pieces

/-!
# Reports read back

A written report is read as the findings that it was written from, with the six texts of their
elements trimmed. A finding that was read before has nothing to trim, so it comes back as it was.
-/

set_option autoImplicit false

namespace Relocate.Report

open Relocate.Text Relocate.Markup
open Relocate.Interchange (declaration escaped fits_escaped inside_declaration valueText_escaped
  withoutMark_declaration)

/-! ### The fields of a draft -/

def headFields (f : Finding) : List (String × String) :=
  [("sourceFile", f.sourceFile), ("mutatedClass", f.mutatedClass),
    ("mutatedMethod", f.mutatedMethod), ("methodDescription", f.descriptor),
    ("lineNumber", toString f.line), ("mutator", f.operator)]

def numberFields (name : String) (ns : List Nat) : List (String × String) :=
  ns.map fun n => (name, toString n)

def tailFields (r : Relocation) : List (String × String) :=
  (r.finding.description.toList.map fun d => ("description", d)) ++
    [("originalLineNumber", toString r.old.line), ("sourceText", r.sourceText)]

theorem inner_headFields (f : Finding) : Inner (headFields f) :=
  .cons (by decide) (by decide) (.cons (by decide) (by decide) (.cons (by decide) (by decide)
    (.cons (by decide) (by decide) (.cons (by decide) (by decide) (.cons (by decide) (by decide)
      .nil _) _) _) _) _) _

theorem inner_numberFields {name : String} (hname : IsName name) (hother : name ≠ "mutation")
    (ns : List Nat) : Inner (numberFields name ns) := by
  intro p hp
  obtain ⟨n, -, rfl⟩ := List.mem_map.1 hp
  exact ⟨hname, hother⟩

theorem inner_tailFields (r : Relocation) : Inner (tailFields r) := by
  have hlast : Inner [("originalLineNumber", toString r.old.line), ("sourceText", r.sourceText)] :=
    .cons (by decide) (by decide) (.cons (by decide) (by decide) .nil _) _
  unfold tailFields
  cases r.finding.description with
  | none => exact hlast
  | some d => exact .cons (by decide) (by decide) hlast d

theorem numbers_eq (name : String) (ns : List Nat) :
    numbers name ns = elements (numberFields name ns) := by
  rw [numbers, elements, numberFields, List.flatMap_map]

theorem trimmed_toString (n : Nat) : trimmed (toString n) = toString n := by
  have hblank : ∀ c ∈ (toString n).toList, isBlank c = false := by
    intro c hc
    have hdigit := Number.isDigit_of_mem_toString hc
    cases hb : isBlank c with
    | false => rfl
    | true =>
      have hpoint : c.toNat ∈ blankPoints := List.contains_iff_mem.1 hb
      simp only [Number.isDigit, Bool.and_eq_true, decide_eq_true_eq] at hdigit
      have hlow : 48 ≤ c.toNat := hdigit.1
      have hhigh : c.toNat ≤ 57 := hdigit.2
      have hfree : ∀ p ∈ blankPoints, p < 48 ∨ 57 < p := by decide
      have := hfree _ hpoint
      omega
  rw [trimmed, trim_of_not_isBlank hblank, String.ofList_toList]

namespace Draft

theorem setAll_headFields (d : Draft) (f : Finding) :
    d.setAll (headFields f) = .ok { d with
      sourceFile := some (trimmed f.sourceFile)
      mutatedClass := some (trimmed f.mutatedClass)
      mutatedMethod := some (trimmed f.mutatedMethod)
      descriptor := some (trimmed f.descriptor)
      line := some (toString f.line)
      operator := some (trimmed f.operator) } := by
  rw [← trimmed_toString]
  simp only [setAll, headFields, List.foldlM_cons, List.foldlM_nil, set, Symbols.ofString_inj,
    ← trimmed.eq_1]
  rfl

theorem setAll_tailFields (d : Draft) (hd : d.description = none) (r : Relocation) :
    d.setAll (tailFields r) =
      .ok { d with description := r.finding.description.map trimmed } := by
  have hself : d = { d with description := none } := by rw [← hd]
  cases hdescription : r.finding.description with
  | none =>
    rw [Option.map_none, ← hself]
    simp only [setAll, tailFields, hdescription, Option.toList_none, List.map_nil, List.nil_append,
      List.foldlM_cons, List.foldlM_nil, set, Symbols.ofString_inj]
    rfl
  | some text =>
    simp only [setAll, tailFields, hdescription, Option.toList_some, List.map_cons, List.map_nil,
      List.cons_append, List.nil_append, List.foldlM_cons, List.foldlM_nil, set,
      Symbols.ofString_inj, ← trimmed.eq_1]
    rfl

theorem readNumber_toString (name : String) {n : Nat} (h : n ≤ Number.unsignedLimit) :
    readNumber name (String.ofList (trim (toString n).toList)) = .ok n := by
  rw [← trimmed, trimmed_toString, readNumber, Number.readUnsigned?_toString h]

/-- A list of numbers, each in an element of one name, where `put` adds a list to the draft. -/
theorem setAll_numberFields {name : String} {put : Draft → List Nat → Draft}
    (hnil : ∀ d, put d [] = d)
    (hcons : ∀ d n ns, n ≤ Number.unsignedLimit →
      ∃ e, d.set (Symbols.ofString name) (toString n).toList = .ok e ∧ put e ns = put d (n :: ns))
    (d : Draft) {ns : List Nat} (h : ∀ n ∈ ns, n ≤ Number.unsignedLimit) :
    d.setAll (numberFields name ns) = .ok (put d ns) := by
  induction ns generalizing d with
  | nil => exact congrArg Except.ok (hnil d).symm
  | cons n ns ih =>
    obtain ⟨e, hset, hput⟩ := hcons d n ns (h n List.mem_cons_self)
    have hrest := ih e fun m hm => h m (List.mem_cons_of_mem _ hm)
    rw [setAll] at hrest ⊢
    rw [numberFields, List.map_cons, List.foldlM_cons, hset, ← hput]
    exact hrest

theorem setAll_index (d : Draft) {ns : List Nat} (h : ∀ n ∈ ns, n ≤ Number.unsignedLimit) :
    d.setAll (numberFields "index" ns) = .ok { d with indices := d.indices ++ ns } := by
  refine @setAll_numberFields "index" (fun d ns => { d with indices := d.indices ++ ns })
    (fun d => by simp)
    (fun d n ns hn => ⟨{ d with indices := d.indices ++ [n] }, ?_, by simp⟩) d ns h
  simp only [set, readNumber_toString "index" hn, Symbols.ofString_inj]
  rfl

theorem setAll_block (d : Draft) {ns : List Nat} (h : ∀ n ∈ ns, n ≤ Number.unsignedLimit) :
    d.setAll (numberFields "block" ns) = .ok { d with order := d.order ++ ns } := by
  refine @setAll_numberFields "block" (fun d ns => { d with order := d.order ++ ns })
    (fun d => by simp)
    (fun d n ns hn => ⟨{ d with order := d.order ++ [n] }, ?_, by simp⟩) d ns h
  simp only [set, readNumber_toString "block" hn, Symbols.ofString_inj]
  rfl

end Draft

def statusAssignments (f : Finding) : List Assignment :=
  (f.detected.toList.map fun d => ⟨"detected", '\'', escaped (toString d)⟩) ++
    f.status.toList.map fun s => ⟨"status", '\'', escaped s⟩

theorem singleQuoted_eq_chars (name : String) (text : List Char) :
    singleQuoted name text = (Assignment.mk name '\'' text).chars := by
  simp [singleQuoted, Assignment.chars]

theorem escaped_toString_bool (b : Bool) : escaped (toString b) = (toString b).toList := by
  cases b <;> rfl

theorem statusAttributes_eq (f : Finding) :
    statusAttributes f = (statusAssignments f).flatMap Assignment.chars := by
  cases hd : f.detected <;> cases hs : f.status <;>
    simp only [statusAttributes, statusAssignments, hd, hs, singleQuoted_eq_chars,
      escaped_toString_bool, Option.toList_none, Option.toList_some, List.map_nil, List.map_cons,
      List.flatMap_append, List.flatMap_cons, List.flatMap_nil, List.append_nil]

theorem fits_statusAssignments (f : Finding) : ∀ a ∈ statusAssignments f, a.Fits := by
  intro a ha
  simp only [statusAssignments, List.mem_append, List.mem_map] at ha
  rcases ha with ⟨d, -, rfl⟩ | ⟨s, -, rfl⟩ <;> exact fits_escaped (by decide) (.inr rfl) _

theorem nodup_statusAssignments (f : Finding) :
    ((statusAssignments f).map Assignment.name).Nodup := by
  cases hd : f.detected <;> cases hs : f.status <;> simp [statusAssignments, hd, hs]

theorem Draft.setAttribute_escaped (d : Draft) (name text : String) :
    d.setAttribute (Assignment.mk name '\'' (escaped text)).read =
      .ok (if name = "status" then { d with status := some text }
        else if name = "detected" then { d with detected := some (text == "true") } else d) := by
  rw [setAttribute, valueText_escaped]
  simp only [Assignment.read, Symbols.ofString_inj]
  rfl

theorem ofTag_written (f : Finding) :
    Draft.ofTag (writtenTag "mutation" (statusAssignments f) 0) =
      .ok { status := f.status, detected := f.detected } := by
  have hname : IsName "mutation" := by decide
  have hdraft : ((statusAssignments f).map Assignment.read).foldlM Draft.setAttribute {} =
      .ok { status := f.status, detected := f.detected } := by
    have htrue : ∀ b : Bool, (toString b == "true") = b := by decide
    cases hd : f.detected <;> cases hs : f.status <;>
      simp only [statusAssignments, hd, hs, Option.toList_none, Option.toList_some, List.map_nil,
        List.map_cons, List.nil_append, List.cons_append, List.foldlM_cons, List.foldlM_nil,
        Draft.setAttribute_escaped, htrue] <;>
      rfl
  rw [Draft.ofTag, attributes_writtenTag hname (fits_statusAssignments f)
    (nodup_statusAssignments f)]
  simp only [hdraft]
  rfl

/-! ### Written reports -/

open State

theorem entry_eq (r : Relocation) :
    entry r = openingTag "mutation" (statusAssignments r.finding) 0 ++
      (elements (headFields r.finding) ++
        (openingTag "indexes" [] 0 ++ (elements (numberFields "index" r.finding.indices) ++
          (closingTag "indexes" ++
        (openingTag "blocks" [] 0 ++ (elements (numberFields "block" r.finding.order) ++
          (closingTag "blocks" ++
        (elements (tailFields r) ++ (closingTag "mutation" ++ ['\n']))))))))) := by
  have hopening : "<mutation".toList ++ statusAttributes r.finding ++ ">".toList =
      openingTag "mutation" (statusAssignments r.finding) 0 := by
    rw [openingTag, tagChars, statusAttributes_eq, List.replicate_zero, List.append_nil]
    rfl
  have hindexes : "<indexes>".toList = openingTag "indexes" [] 0 := rfl
  have hblocks : "</indexes><blocks>".toList = closingTag "indexes" ++ openingTag "blocks" [] 0 :=
    rfl
  have hend : "</blocks>".toList = closingTag "blocks" := rfl
  have hclosing : "</mutation>\n".toList = closingTag "mutation" ++ ['\n'] := rfl
  unfold entry tailFields
  simp only [hopening, hindexes, hblocks, hend, hclosing, numbers_eq]
  cases hdescription : r.finding.description <;>
    simp only [elements, headFields, Option.toList_none, Option.toList_some,
      List.map_nil, List.map_cons, List.nil_append, List.cons_append, List.flatMap_cons,
      List.flatMap_nil, List.append_nil, List.append_assoc]

def draftOf (f : Finding) : Draft where
  sourceFile := some (trimmed f.sourceFile)
  mutatedClass := some (trimmed f.mutatedClass)
  mutatedMethod := some (trimmed f.mutatedMethod)
  descriptor := some (trimmed f.descriptor)
  line := some (toString f.line)
  operator := some (trimmed f.operator)
  indices := f.indices
  order := f.order
  description := f.description.map trimmed
  status := f.status
  detected := f.detected

theorem finding?_draftOf {f : Finding} (h : f.Fits) : (draftOf f).finding? = some f.trimmed := by
  simp only [Draft.finding?, draftOf, Option.bind_some, Number.readUnsigned?_toString h.line]
  rfl

theorem resume_entry (s : State) (hs : s.seenRoot = true) (opened : List (List Symbol))
    {r : Relocation} (h : r.finding.Fits) {rest : List Symbol} (hrest : AtMark rest) :
    s.resume opened (Symbols.ofChars (entry r) ++ rest) =
      resume { found := r.finding.trimmed :: s.found, seenRoot := true, text := ['\n'] }
        opened rest := by
  set f := r.finding with hf
  have hname : IsName "mutation" := by decide
  have hopening : ∀ ss, s.resume opened
      (Symbols.ofChars (openingTag "mutation" (statusAssignments f) 0) ++ ss) =
        (within s.found { status := f.status, detected := f.detected }).resume
          (Symbols.ofString "mutation" :: opened) ss := by
    intro ss
    rw [resume, Stream.inside_openingTag opened hname (fits_statusAssignments f)]
    refine Stream.feed_before_of_ok _ ?_ _
    rw [step, onStart, if_pos hs, hasName_writtenTag hname, ofTag_written]
    simp only [within, hs]
    rfl
  have hclosing : ∀ ss, (within s.found (draftOf f)).resume (Symbols.ofString "mutation" :: opened)
      (Symbols.ofChars (closingTag "mutation") ++ ss) =
        resume { found := f.trimmed :: s.found, seenRoot := true } opened ss := by
    intro ss
    rw [resume, Stream.inside_closingTag opened hname]
    refine Stream.feed_before_of_ok _ ?_ _
    simp only [step, onFinish, if_true, within, Option.bind_some, finding?_draftOf h]
  rw [entry_eq]
  simp only [Symbols.ofChars_append, List.append_assoc]
  rw [hopening, resume_elements _ _ _ (inner_headFields f), Draft.setAll_headFields]
  simp only [Except.bind]
  rw [resume_group _ _ _ (by decide) (by decide) (fun d => rfl)
    (inner_numberFields (by decide) (by decide) _), Draft.setAll_index _ h.indices]
  simp only [Except.bind]
  rw [resume_group _ _ _ (by decide) (by decide) (fun d => rfl)
    (inner_numberFields (by decide) (by decide) _), Draft.setAll_block _ h.order]
  simp only [Except.bind]
  rw [resume_elements _ _ _ (inner_tailFields r), Draft.setAll_tailFields _ rfl]
  exact (hclosing _).trans (resume_newline _ opened hrest)

theorem atMark_entries (rs : List Relocation) {rest : List Symbol} (hrest : AtMark rest) :
    AtMark (Symbols.ofChars (rs.flatMap entry) ++ rest) := by
  cases rs with
  | nil => exact hrest
  | cons r rs =>
    rw [List.flatMap_cons, entry_eq]
    exact atMark_cons rfl _

theorem resume_entries (found : List Finding) (opened : List (List Symbol))
    {rs : List Relocation} (h : ∀ r ∈ rs, r.finding.Fits) {rest : List Symbol}
    (hrest : AtMark rest) :
    resume { found, seenRoot := true, text := ['\n'] } opened
        (Symbols.ofChars (rs.flatMap entry) ++ rest) =
      resume
        { found := (rs.map fun r => r.finding.trimmed).reverse ++ found, seenRoot := true,
          text := ['\n'] } opened rest := by
  induction rs generalizing found with
  | nil => rfl
  | cons r rs ih =>
    have hentry := resume_entry { found, seenRoot := true, text := ['\n'] } rfl opened
      (h r List.mem_cons_self) (atMark_entries rs hrest)
    rw [List.flatMap_cons, Symbols.ofChars_append, List.append_assoc, hentry,
      ih _ fun q hq => h q (List.mem_cons_of_mem _ hq)]
    simp

theorem read_write_trimmed {rs : List Relocation} (h : ∀ r ∈ rs, r.finding.Fits) :
    read (write rs) = .ok (rs.map fun r => r.finding.trimmed) := by
  have hname : IsName "mutations" := by decide
  have hsymbols : Symbols.ofString (write rs) = Symbols.ofString declaration ++
      (Symbols.ofChars (openingTag "mutations" [] 0) ++ .char '\n' ::
        (Symbols.ofChars (rs.flatMap entry) ++
          (Symbols.ofChars (closingTag "mutations") ++ [.char '\n']))) := by
    have hopening : "<mutations>\n".toList = openingTag "mutations" [] 0 ++ ['\n'] := rfl
    have hclosing : "</mutations>\n".toList = closingTag "mutations" ++ ['\n'] := rfl
    simp only [write, Symbols.ofString, String.toList_append, String.toList_ofList, hopening,
      hclosing, Symbols.ofChars_append, List.append_assoc]
    rfl
  -- The root element opens behind the line break of the declaration ...
  have hopening : ∀ ss, resume {} [] (Symbols.ofString declaration ++
      (Symbols.ofChars (openingTag "mutations" [] 0) ++ ss)) =
        resume { seenRoot := true } [Symbols.ofString "mutations"] ss := by
    intro ss
    rw [resume, inside_declaration]
    refine (Stream.feed_before_of_ok _ rfl _).trans ?_
    refine (resume_newline {} [] (atMark_openingTag _ _ _ _)).trans ?_
    rw [resume, Stream.inside_openingTag [] hname (List.forall_mem_nil _)]
    refine Stream.feed_before_of_ok _ ?_ _
    rw [step, onStart, hasName_writtenTag hname]
    rfl
  -- ... and closes behind that of the last entry.
  have hclosing : ∀ found : List Finding, resume { found, seenRoot := true, text := ['\n'] }
      [Symbols.ofString "mutations"] (Symbols.ofChars (closingTag "mutations") ++ [.char '\n']) =
        .ok { found, seenRoot := true, text := ['\n'] } := by
    intro found
    have hne : Symbols.ofString "mutations" ≠ Symbols.ofString "mutation" := by
      simp [Symbols.ofString_inj]
    rw [resume, Stream.inside_closingTag [] hname]
    have hfinish : step { found, seenRoot := true, text := ['\n'] }
        (.finish (Symbols.ofString "mutations")) = .ok { found, seenRoot := true } := by
      rw [step, onFinish, if_neg hne]
    refine (Stream.feed_before_of_ok _ hfinish _).trans ?_
    refine (resume_newline _ [] atMark_nil).trans ?_
    exact resume_nil _ _
  rw [read, hsymbols, ofSymbols_eq_resume, withoutMark_declaration, hopening,
    resume_newline _ _ (atMark_entries rs (atMark_closingTag _ _))]
  refine (congrArg (·.bind State.finish)
    ((resume_entries [] _ h (atMark_closingTag _ _)).trans (hclosing _))).trans ?_
  simp [Except.bind, State.finish]

theorem read_write_unmoved {ss : List Symbol} {found : List Finding}
    (hread : ofSymbols ss = .ok found) {rs : List Relocation}
    (h : ∀ r ∈ rs, r.old ∈ found ∧ r.finding = r.old) :
    read (write rs) = .ok (rs.map Relocation.old) := by
  have htidy : ∀ r ∈ rs, r.finding.Tidy := by
    intro r hr
    obtain ⟨hold, hsame⟩ := h r hr
    rw [hsame]
    exact tidy_of_ofStream hread r.old hold
  have hmap : (rs.map fun r => r.finding.trimmed) = rs.map Relocation.old := by
    refine List.map_congr_left fun r hr => ?_
    rw [(htidy r hr).trimmed, (h r hr).2]
  rw [read_write_trimmed fun r hr => (htidy r hr).fits, hmap]

/-- Writing and reading keeps everything but the white space around the texts of elements; what was
read from any document and is written where it stands is kept altogether. -/
theorem read_write :
    (∀ rs : List Relocation, (∀ r ∈ rs, r.finding.Fits) →
      read (write rs) = .ok (rs.map fun r => r.finding.trimmed)) ∧
    ∀ (ss : List Symbol) (found : List Finding) (rs : List Relocation),
      ofSymbols ss = .ok found → (∀ r ∈ rs, r.old ∈ found ∧ r.finding = r.old) →
        read (write rs) = .ok (rs.map Relocation.old) :=
  ⟨fun _ h => read_write_trimmed h, fun _ _ _ hread h => read_write_unmoved hread h⟩

def padded : Finding where
  sourceFile := " A.java\n"
  mutatedClass := "a.<b>&\"'"
  mutatedMethod := ""
  descriptor := "\u2003()V"
  line := 18446744073709551615
  operator := "&lt; "
  indices := [0, 18446744073709551615]
  status := some " SURVIVED '"
  detected := some false
  description := some "\t]]> &#32;"

def stay (f : Finding) (sourceText : String) : Relocation where
  old := f
  line := f.line
  className := f.mutatedClass
  methodName := f.mutatedMethod
  descriptor := f.descriptor
  sourceText

/-- Written once, the texts of elements lose their blanks; written again, nothing changes. -/
theorem read_write_padded :
    read (write [stay padded "</sourceText>"]) = .ok [{ padded with
      sourceFile := "A.java"
      descriptor := "()V"
      operator := "&lt;"
      description := some "]]> &#32;" }] ∧
    read (write [stay padded.trimmed ""]) = .ok [padded.trimmed] := by
  have hfits : ∀ r ∈ [stay padded "</sourceText>"], r.finding.Fits := by
    intro r hr
    rw [List.mem_singleton.1 hr]
    exact ⟨by decide, by decide, by decide⟩
  have hfirst := read_write.1 _ hfits
  refine ⟨hfirst.trans (by decide), ?_⟩
  refine read_write.2 _ _ _ hfirst fun r hr => ?_
  rw [List.mem_singleton.1 hr]
  exact ⟨List.mem_cons_self, rfl⟩

end Relocate.Report
