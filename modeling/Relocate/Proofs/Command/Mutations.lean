import Relocate.Command.Outcome
import Relocate.Proofs.Files.Revision
import Relocate.Proofs.Files.Volume
import Relocate.Proofs.Matching.Unique
import Relocate.Proofs.Mutation.Parts
import Relocate.Proofs.Mutation.Vote
import Relocate.Proofs.Report.RoundTrip

/-!
# Relocating a report into a file

The command is all or nothing. If a revision or the report cannot be loaded, nothing is written.
Else every entry of the report for the old file is either in the written report or among the notes.
-/

set_option autoImplicit false

namespace Relocate

open Files Matching

/-! ## Relocated entries -/

namespace Relocation

variable {config : Config} {a b : Ast} {text : String} {report : List Finding} {x : Finding}
  {u : Relocation} {limit : Nat}

theorem line_le_of_ofResult? (hb : b.Within limit)
    (h : ofResult? (matchTrees config a b) text report x = some u) : u.line ≤ limit := by
  obtain ⟨anchor, _, _, steps⟩ := exists_steps h
  obtain ⟨hline, s, hpair, -⟩ := Vote.of_ofLine? steps.vote
  have hagrees := agrees_matchWrapped Mix.standard config a b
  have hanchor : anchor ∈ nodes (Rose.wrap Mix.standard b) :=
    hagrees.dst.inside (anchor, s) (List.mem_map_of_mem hpair)
  rw [← hline]
  exact Place.line_le_of_within hb hanchor

theorem fits_of_ofResult? (hb : b.Within Number.unsignedLimit) (hx : x.Fits)
    (h : ofResult? (matchTrees config a b) text report x = some u) : u.finding.Fits := by
  obtain ⟨_, _, _, steps⟩ := exists_steps h
  refine ⟨line_le_of_ofResult? hb h, ?_, ?_⟩
  · simpa [finding, steps.old] using hx.indices
  · simpa [finding, steps.old] using hx.order

end Relocation

namespace Command

theorem relocated_zip (f : Finding → Option Relocation) (entries : List Finding) :
    relocated (entries.zip (entries.map f)) = entries.filterMap f := by
  induction entries with
  | nil => rfl
  | cons x xs ih =>
    simp only [relocated] at ih
    simp [relocated, List.filterMap_cons, ih]

theorem refused_zip (f : Finding → Option Relocation) (entries : List Finding) :
    refused (entries.zip (entries.map f)) = entries.filter fun x => (f x).isNone := by
  induction entries with
  | nil => rfl
  | cons x xs ih =>
    simp only [refused] at ih
    by_cases hx : (f x).isNone = true <;> simp [refused, hx, ih]

theorem length_filterMap_add_length_filter (f : Finding → Option Relocation)
    (entries : List Finding) :
    (entries.filterMap f).length + (entries.filter fun x => (f x).isNone).length =
      entries.length := by
  induction entries with
  | nil => rfl
  | cons x xs ih => cases hx : f x <;> simp [hx] <;> omega

/-! ## The session -/

section Run

variable {files : Lookup} {config : Config} {role path oldPath newPath reportPath : String}
  {output : Option String} {old new : SourceFile} {report : List Finding} {name : String}

def parsing (role path : String) : String := s!"Parsing {role}: {path}"

theorem revision_of_ok {file : SourceFile} (h : readRevision files path = .ok file) :
    revision files role path = ⟨[parsing role path], .ok file⟩ := by
  rw [revision, Session.bind_of_ok rfl, h]
  rfl

theorem revision_of_error {f : Error} (h : readRevision files path = .error f) :
    revision files role path = ⟨[parsing role path], .error f.message⟩ := by
  rw [revision, Session.bind_of_ok rfl, h]
  rfl

def preamble (oldPath newPath reportPath : String) (count : Nat) : List String :=
  [parsing "old revision" oldPath, parsing "new revision" newPath, s!"Reading report: {reportPath}",
    s!"Matching and relocating {count} mutations..."]

def summary (relocated count : Nat) : String := s!"Relocated {relocated} of {count} mutations."

theorem mutations_of_ok (hold : readRevision files oldPath = .ok old)
    (hnew : readRevision files newPath = .ok new)
    (hreport : readReport files reportPath = .ok report)
    (hname : fileName? oldPath = some name) :
    let entries := report.filter fun x => x.isInFile name
    let relocate := Relocation.ofResult? (matchTrees config old.root new.root) new.text report
    let found := entries.filterMap relocate
    let lost := entries.filter fun x => (relocate x).isNone
    mutations files config oldPath newPath reportPath output =
      ⟨preamble oldPath newPath reportPath entries.length ++ lost.map refusal,
        .ok { document := Report.write found, file := output
              closing := [summary found.length entries.length] }⟩ := by
  intro entries relocate found lost
  have hrun : mutations files config oldPath newPath reportPath output =
      ⟨preamble oldPath newPath reportPath entries.length ++
          ((refused (entries.zip (entries.map relocate))).map refusal ++ []),
        .ok { document := Report.write (relocated (entries.zip (entries.map relocate)))
              file := output
              closing := [summary (relocated (entries.zip (entries.map relocate))).length
                entries.length] }⟩ := by
    rw [mutations, revision_of_ok hold, revision_of_ok hnew, hreport, hname]
    rfl
  rw [hrun, List.append_nil, relocated_zip, refused_zip]

theorem mutations_of_error {f : Error} (h : readRevision files oldPath = .error f ∨
    readRevision files newPath = .error f ∨ readReport files reportPath = .error f) :
    ∃ message,
      (mutations files config oldPath newPath reportPath output).result = .error message := by
  rw [mutations]
  cases hold : readRevision files oldPath with
  | error g => exact ⟨g.message, by rw [revision_of_error hold]; rfl⟩
  | ok old =>
    rw [revision_of_ok hold]
    cases hnew : readRevision files newPath with
    | error g => exact ⟨g.message, by rw [revision_of_error hnew]; rfl⟩
    | ok new =>
      rw [revision_of_ok hnew]
      have hreport : readReport files reportPath = .error f := by simpa [hold, hnew] using h
      exact ⟨f.message, by rw [hreport]; rfl⟩

end Run

/-! ## The outcome -/

section Outcome

variable {v : Volume} {arguments notes : List String} {task : Task} {config : Config}

theorem outcome_of_request (h : Request.ofArguments arguments = .ok (.perform task config)) :
    outcome v arguments = conclude v (task.session v.read config) := by
  rw [outcome, h]

/-- A command that fails leaves no trace but its notes. -/
def Failed (v : Volume) (o : Outcome) : Prop := o.code = 1 ∧ o.output = "" ∧ o.volume = v

theorem failed_conclude {s : Session Delivery} {message : String} (h : s.result = .error message) :
    Failed v (conclude v s) := by
  rw [conclude, h]
  exact ⟨rfl, rfl, rfl⟩

theorem conclude_of_ok (d : Delivery) : conclude v ⟨notes, .ok d⟩ = deliver v notes d := rfl

theorem failed_deliver {d : Delivery} {path : String} {f : FileFault} (hfile : d.file = some path)
    (h : v.target path = .error f) : Failed v (deliver v notes d) := by
  simp only [deliver, hfile, Volume.write, h]
  exact ⟨rfl, rfl, rfl⟩

theorem deliver_of_target {d : Delivery} {path : String} {names : List String}
    (hfile : d.file = some path) (h : v.target path = .ok names) :
    deliver v notes d =
      { code := 0, output := "", notes := lines (notes ++ d.closing)
        volume := v.put names d.document.toUTF8.toList } := by
  simp only [deliver, hfile, Volume.write, h, Except.map]

/-- What has become of the entries that belong to the old file. Those that are relocated are in the
written report, in order, the others among the notes, and no other file is touched. -/
structure Done (v : Volume) (o : Outcome) (oldPath newPath reportPath outPath : String)
    (names : List String) (entries : List Finding) (relocate : Finding → Option Relocation) :
    Prop where
  code : o.code = 0
  output : o.output = ""
  written : readReport o.volume.read outPath =
    .ok ((entries.filterMap relocate).map fun u => u.finding.trimmed)
  notes : o.notes = lines (preamble oldPath newPath reportPath entries.length ++
    (entries.filter fun x => (relocate x).isNone).map refusal ++
    [summary (entries.filterMap relocate).length entries.length])
  counted : (entries.filterMap relocate).length +
    (entries.filter fun x => (relocate x).isNone).length = entries.length
  others : ∀ other, other ≠ names → o.volume.content? other = v.content? other

theorem readReport_put {found : List Relocation} {path : String} {names : List String}
    (h : v.target path = .ok names) (hfits : ∀ u ∈ found, u.finding.Fits) :
    readReport (v.put names (Report.write found).toUTF8.toList).read path =
      .ok (found.map fun u => u.finding.trimmed) := by
  have hwrite : v.write path (Report.write found).toUTF8.toList =
      .ok (v.put names (Report.write found).toUTF8.toList) := by
    rw [Volume.write, h]
    rfl
  rw [readReport_of_stored (Volume.read_of_write hwrite), Report.read_write_trimmed hfits]

section Loaded

variable {oldPath newPath reportPath outPath name : String} {old new : SourceFile}
  {report : List Finding} (hold : readRevision v.read oldPath = .ok old)
  (hnew : readRevision v.read newPath = .ok new)
  (hreport : readReport v.read reportPath = .ok report) (hname : fileName? oldPath = some name)

include hnew hreport

/-- Every relocated entry can be written with all its numbers, since the lines of the new revision
have 64 bits. -/
theorem fits_of_loaded (hsize : Sized v.read newPath) :
    ∀ u ∈ (report.filter fun x => x.isInFile name).filterMap
      (Relocation.ofResult? (matchTrees config old.root new.root) new.text report),
      u.finding.Fits := by
  intro u hu
  obtain ⟨x, hx, hrelocated⟩ := List.mem_filterMap.1 hu
  have htidy := tidy_of_readReport hreport x (List.mem_filter.1 hx).1
  exact Relocation.fits_of_ofResult? (within_readRevision hsize hnew) htidy.fits hrelocated

include hold hname

theorem failed_of_target {f : FileFault} (h : v.target outPath = .error f) :
    Failed v (conclude v
      (mutations v.read config oldPath newPath reportPath (some outPath))) := by
  rw [mutations_of_ok hold hnew hreport hname]
  exact failed_deliver rfl h

theorem done_of_target {names : List String} (h : v.target outPath = .ok names)
    (hsize : Sized v.read newPath) :
    Done v (conclude v (mutations v.read config oldPath newPath reportPath (some outPath)))
      oldPath newPath reportPath outPath names (report.filter fun x => x.isInFile name)
      (Relocation.ofResult? (matchTrees config old.root new.root) new.text report) := by
  rw [mutations_of_ok hold hnew hreport hname, conclude_of_ok, deliver_of_target rfl h]
  exact {
    code := rfl
    output := rfl
    written := readReport_put h (fits_of_loaded hnew hreport hsize)
    notes := rfl
    counted := length_filterMap_add_length_filter _ _
    others := fun other hother => by rw [Volume.content?_put, if_neg hother] }

end Loaded

/-- The command is all or nothing, and every entry of the report for the old file is accounted for.
If something cannot be loaded or the output not be written, nothing is left but notes. -/
theorem outcome_mutations (v : Volume) {arguments : List String} {config : Config}
    {oldPath newPath reportPath outPath : String}
    (hrequest : Request.ofArguments arguments =
      .ok (.perform (.mutations oldPath newPath reportPath (some outPath)) config)) :
    (∀ f : Error, (readRevision v.read oldPath = .error f ∨ readRevision v.read newPath = .error f ∨
        readReport v.read reportPath = .error f) → Failed v (outcome v arguments)) ∧
    ∀ (old new : SourceFile) (report : List Finding), readRevision v.read oldPath = .ok old →
      readRevision v.read newPath = .ok new → readReport v.read reportPath = .ok report →
        (∀ f, v.target outPath = .error f → Failed v (outcome v arguments)) ∧
        ∀ names, v.target outPath = .ok names → Sized v.read newPath →
          ∃ name, fileName? oldPath = some name ∧
            Done v (outcome v arguments) oldPath newPath reportPath outPath names
              (report.filter fun x => x.isInFile name)
              (Relocation.ofResult? (matchTrees config old.root new.root) new.text report) := by
  rw [outcome_of_request hrequest]
  constructor
  · intro f h
    obtain ⟨message, hmessage⟩ := mutations_of_error h
    exact failed_conclude hmessage
  · intro old new report hold hnew hreport
    obtain ⟨name, hname⟩ := exists_fileName? hold
    constructor
    · intro f htarget
      exact failed_of_target hold hnew hreport hname htarget
    · intro names htarget hsize
      exact ⟨name, hname, done_of_target hold hnew hreport hname htarget hsize⟩

end Outcome

namespace Filed

open Descriptor

def old : Ast :=
  Sketch.file "demo" [Sketch.type "class" "Job" 2 [] [Sketch.method "method" "run" 3 [] "String"]]

def new : Ast :=
  Sketch.file "demo" [Sketch.type "class" "Job" 2 [] [Sketch.method "method" "run" 5 [] "String"]]

def entry : Finding :=
  { sourceFile := "Old.xml", mutatedClass := "demo.Job", mutatedMethod := "run"
    descriptor := "(Ljava/lang/String;)V", line := 3, operator := "MATH" }

def report : List Finding :=
  [entry, { entry with line := 9 }, { entry with sourceFile := "Other.java" }]

def volume : Volume :=
  { files :=
      [⟨["Old.xml"], (Interchange.print old).toUTF8.toList⟩,
        ⟨["New.xml"], (Interchange.print new).toUTF8.toList⟩,
        ⟨["Report.xml"], (Report.write (report.map (Report.stay · ""))).toUTF8.toList⟩] }

theorem readRevision_old : readRevision volume.read "Old.xml" = .ok { root := old } := by
  have hlocate : volume.locate "Old.xml" = .ok (.inside ["Old.xml"]) := by decide +kernel
  have hlines : ∀ u ∈ old.preOrder, u.label.line ≤ Number.unsignedLimit := by decide +kernel
  exact readRevision_of_printed (by decide +kernel) (Volume.read_of_locate hlocate rfl) hlines

theorem read_new : volume.read "New.xml" = .ok (Interchange.print new).toUTF8.toList := by
  have hlocate : volume.locate "New.xml" = .ok (.inside ["New.xml"]) := by decide +kernel
  exact Volume.read_of_locate hlocate rfl

theorem readRevision_new : readRevision volume.read "New.xml" = .ok { root := new } := by
  have hlines : ∀ u ∈ new.preOrder, u.label.line ≤ Number.unsignedLimit := by decide +kernel
  exact readRevision_of_printed (by decide +kernel) read_new hlines

theorem readReport_report : readReport volume.read "Report.xml" = .ok report := by
  have hlocate : volume.locate "Report.xml" = .ok (.inside ["Report.xml"]) := by decide +kernel
  have hfits : ∀ u ∈ report.map (Report.stay · ""), u.finding.Fits := by
    intro u hu
    obtain ⟨x, hx, rfl⟩ := List.mem_map.1 hu
    simp only [report, List.mem_cons, List.not_mem_nil, or_false] at hx
    rcases hx with rfl | rfl | rfl <;> exact ⟨by decide, by decide, by decide⟩
  rw [readReport_of_stored (Volume.read_of_locate hlocate rfl), Report.read_write_trimmed hfits]
  decide +kernel

theorem sized_new : Sized volume.read "New.xml" := by
  intro bytes h
  rw [read_new] at h
  cases h
  rw [Text.toList_toUTF8, Interchange.print, String.toList_append, String.toList_ofList]
  decide +kernel

end Filed

/-- The output replaces the report. A report that does not exist leaves everything as it is. -/
theorem outcome_mutations_filed :
    Failed Filed.volume
      (outcome Filed.volume ["m", "Old.xml", "New.xml", "Other.xml", "Report.xml"]) ∧
    readReport (outcome Filed.volume
        ["m", "Old.xml", "New.xml", "Report.xml", "Report.xml"]).volume.read "Report.xml" =
      .ok [{ Filed.entry with line := 5 }] ∧
    (outcome Filed.volume ["m", "Old.xml", "New.xml", "Report.xml", "Report.xml"]).notes =
      lines ["Parsing old revision: Old.xml", "Parsing new revision: New.xml",
        "Reading report: Report.xml", "Matching and relocating 2 mutations...",
        "Could not relocate demo.Job.run(Ljava/lang/String;)V line 9 (MATH)",
        "Relocated 1 of 2 mutations."] := by
  have hmissing : Request.ofArguments ["m", "Old.xml", "New.xml", "Other.xml", "Report.xml"] =
      .ok (.perform (.mutations "Old.xml" "New.xml" "Other.xml" (some "Report.xml")) {}) := by
    decide +kernel
  have hrequest : Request.ofArguments ["m", "Old.xml", "New.xml", "Report.xml", "Report.xml"] =
      .ok (.perform (.mutations "Old.xml" "New.xml" "Report.xml" (some "Report.xml")) {}) := by
    decide +kernel
  have hloaded := (outcome_mutations Filed.volume hrequest).2 _ _ _ Filed.readRevision_old
    Filed.readRevision_new Filed.readReport_report
  have htarget : Filed.volume.target "Report.xml" = .ok ["Report.xml"] := by decide +kernel
  obtain ⟨name, hname, hdone⟩ := hloaded.2 _ htarget Filed.sized_new
  obtain rfl : "Old.xml" = name := Option.some.inj (Eq.trans (by decide +kernel) hname)
  refine ⟨?_, hdone.written.trans (by decide +kernel), hdone.notes.trans (by decide +kernel)⟩
  exact (outcome_mutations Filed.volume hmissing).1 (.file .notFound)
    (Or.inr (Or.inr (by decide +kernel)))

end Command

end Relocate
