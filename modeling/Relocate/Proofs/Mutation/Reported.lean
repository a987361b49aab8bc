import Relocate.Proofs.Mutation.Parts

/-!
# What the report can tell

The report is asked for a descriptor only after the declaration and the finding, and it gives one
only if its entries for the position agree. So it is read as a set: neither the order of its entries
nor how often each one occurs changes a relocation. The findings themselves do not see each other.
-/

set_option autoImplicit false

namespace Relocate.Relocation

open Matching Descriptor

section Report

variable {report report' : List Finding} {f entry : Finding} {d : String}

theorem samePosition_iff : samePosition f entry = true ↔
    entry.line = f.line ∧ entry.mutatedClass = f.mutatedClass ∧
      entry.mutatedMethod = f.mutatedMethod := by
  simp [samePosition, and_assoc]

/-- There are entries for the line, class and method of a finding, and all give this descriptor. -/
structure Settled (f : Finding) (report : List Finding) (d : String) : Prop where
  found : ∃ entry ∈ report, entry.line = f.line ∧ entry.mutatedClass = f.mutatedClass ∧
    entry.mutatedMethod = f.mutatedMethod
  agreed : ∀ entry ∈ report, entry.line = f.line → entry.mutatedClass = f.mutatedClass →
    entry.mutatedMethod = f.mutatedMethod → entry.descriptor = d

theorem Settled.congr (h : Settled f report d) (hmem : ∀ entry, entry ∈ report' ↔ entry ∈ report) :
    Settled f report' d where
  found := by
    obtain ⟨entry, hentry, hposition⟩ := h.found
    exact ⟨entry, (hmem entry).2 hentry, hposition⟩
  agreed := fun entry hentry => h.agreed entry ((hmem entry).1 hentry)

def reported (f : Finding) (report : List Finding) : List String :=
  (report.filter (samePosition f)).map Finding.descriptor

theorem settled_iff :
    Settled f report d ↔ reported f report ≠ [] ∧ ∀ e ∈ reported f report, e = d := by
  rw [reported, List.forall_mem_map, Ne, List.map_eq_nil_iff, List.filter_eq_nil_iff]
  simp only [List.mem_filter, samePosition_iff]
  constructor
  · intro h
    obtain ⟨entry, hmem, hentry⟩ := h.found
    exact ⟨fun hnone => hnone entry hmem hentry,
      fun e he => h.agreed e he.1 he.2.1 he.2.2.1 he.2.2.2⟩
  · rintro ⟨hfound, hagreed⟩
    push Not at hfound
    exact ⟨hfound, fun e he hline hclass hmethod => hagreed e ⟨he, hline, hclass, hmethod⟩⟩

theorem reportedDescriptor?_eq_some_iff :
    reportedDescriptor? f report = some d ↔ Settled f report d := by
  rw [settled_iff, reportedDescriptor?, ← reported]
  cases reported f report with
  | nil => simp
  | cons first rest =>
    simp only [Option.ite_none_right_eq_some, List.all_eq_true, beq_iff_eq, Option.some.injEq,
      List.forall_mem_cons, ne_eq, reduceCtorEq, not_false_eq_true, true_and]
    constructor
    · rintro ⟨hrest, rfl⟩
      exact ⟨rfl, hrest⟩
    · rintro ⟨rfl, hrest⟩
      exact ⟨hrest, rfl⟩

theorem reportedDescriptor?_congr (f : Finding)
    (hmem : ∀ entry, entry ∈ report' ↔ entry ∈ report) :
    reportedDescriptor? f report' = reportedDescriptor? f report := by
  apply Option.ext
  intro d
  rw [reportedDescriptor?_eq_some_iff, reportedDescriptor?_eq_some_iff]
  constructor
  · exact fun h => h.congr fun entry => (hmem entry).symm
  · exact fun h => h.congr hmem

end Report

section Findings

variable {r : Result} {text : String} {report report' : List Finding} {f : Finding}

theorem descriptor?_congr (h : reportedDescriptor? f report' = reportedDescriptor? f report)
    (scope : Scope) (method enclosing : Place) (name : String) :
    descriptor? scope f report' method enclosing name =
      descriptor? scope f report method enclosing name := by
  rw [descriptor?, descriptor?, h]

theorem ofResult?_congr (r : Result) (text : String)
    (h : reportedDescriptor? f report' = reportedDescriptor? f report) :
    ofResult? r text report' f = ofResult? r text report f := by
  simp only [ofResult?, descriptor?_congr h]

/-- The relocation of a finding is the one that it gets alone, and the same for every report with
the same entries in any order and number. Such a report gives a descriptor exactly if some entry is
for the line, class and method of the finding and all of these agree on it. -/
theorem ofFindings_apart (config : Config) (old new : SourceFile) (report findings : List Finding) :
    (∀ i : Nat, (ofFindings config old new report findings)[i]? =
      findings[i]?.map (ofFinding? config old new report)) ∧
    (∀ report', (∀ entry, entry ∈ report' ↔ entry ∈ report) →
      ofFindings config old new report' findings = ofFindings config old new report findings) ∧
    ∀ f d, reportedDescriptor? f report = some d ↔ Settled f report d := by
  refine ⟨?_, ?_, fun f d => reportedDescriptor?_eq_some_iff⟩
  · intro i
    rw [ofFindings, List.getElem?_map]
    rfl
  · intro report' hmem
    apply List.map_congr_left
    intro f _
    exact ofResult?_congr _ _ (reportedDescriptor?_congr f hmem)

end Findings

namespace Overloaded

def type : Ast :=
  Sketch.type "class" "Calc" 2 []
    [Sketch.method "method" "twice" 3 [] "Value", Sketch.method "method" "twice" 4 [] "String"]

def file : SourceFile := ⟨Sketch.file "demo" [type], ""⟩

def finding : Finding where
  mutatedClass := "demo.Calc"
  mutatedMethod := "twice"
  descriptor := "(Lother/Value;)V"
  line := 3

def other : Finding := { finding with descriptor := "(Lthird/Value;)V" }

end Overloaded

/-- Only the report can tell which of the two methods it is, however often it says so; with two
opinions it tells nothing. -/
theorem ofFindings_apart_overloaded :
    (∀ entry, entry ∈ [Overloaded.finding, Overloaded.finding] ↔ entry ∈ [Overloaded.finding]) ∧
      (ofFinding? {} Overloaded.file Overloaded.file [] Overloaded.finding) = none ∧
      (ofFindings {} Overloaded.file Overloaded.file [Overloaded.finding, Overloaded.finding]
        [Overloaded.finding]).map (Option.map Relocation.descriptor) = [some "(Lother/Value;)V"] ∧
      ¬ Settled Overloaded.finding [Overloaded.finding, Overloaded.other] "(Lother/Value;)V" := by
  obtain ⟨-, hreport, -⟩ := ofFindings_apart {} Overloaded.file Overloaded.file
    [Overloaded.finding] [Overloaded.finding]
  obtain ⟨-, -, hsettled⟩ := ofFindings_apart {} Overloaded.file Overloaded.file
    [Overloaded.finding, Overloaded.other] [Overloaded.finding]
  have hmem : ∀ entry, entry ∈ [Overloaded.finding, Overloaded.finding] ↔
      entry ∈ [Overloaded.finding] := by simp
  refine ⟨hmem, by decide +kernel, ?_, ?_⟩
  · rw [hreport _ hmem]
    decide +kernel
  · rw [← hsettled]
    decide +kernel

end Relocate.Relocation
