import Relocate.Command.Request
import Relocate.Files.Revision
import Relocate.Interchange.Printer
import Relocate.Matching.Matcher
import Relocate.Report.Writer

/-!
# Carrying out tasks

A session makes notes on the way and ends with a result or the message of what went wrong; its notes
stay either way. The result of a task is a document to be delivered to standard output or a file,
and the note that follows the delivery. So nothing is delivered unless everything before has gone
well.
-/

set_option autoImplicit false

namespace Relocate.Command

open Relocate.Files Relocate.Matching

structure Session (α : Type) where
  notes : List String
  result : Except String α
  deriving Inhabited

namespace Session

instance : Monad Session where
  pure a := ⟨[], .ok a⟩
  bind s f :=
    match s.result with
    | .error message => ⟨s.notes, .error message⟩
    | .ok a => ⟨s.notes ++ (f a).notes, (f a).result⟩

theorem bind_of_ok {α β : Type} {s : Session α} {a : α} (h : s.result = .ok a)
    (f : α → Session β) : s >>= f = ⟨s.notes ++ (f a).notes, (f a).result⟩ := by
  simp only [bind, h]

def say (notes : List String) : Session Unit := ⟨notes, .ok ()⟩

def ofResult {α : Type} (r : Except Error α) : Session α := ⟨[], r.mapError Error.message⟩

def ofOption {α : Type} (message : String) : Option α → Session α
  | some a => ⟨[], .ok a⟩
  | none => ⟨[], .error message⟩

end Session

structure Delivery where
  document : String
  /-- The file to be written; without one the document goes to standard output. -/
  file : Option String := none
  closing : List String := []
  deriving DecidableEq, Inhabited

open Session

def revision (files : Lookup) (role path : String) : Session SourceFile := do
  say [s!"Parsing {role}: {path}"]
  ofResult (readRevision files path)

def refusal (f : Finding) : String := s!"Could not relocate {f.display}"

def relocated (outcomes : List (Finding × Option Relocation)) : List Relocation :=
  outcomes.filterMap Prod.snd

def refused (outcomes : List (Finding × Option Relocation)) : List Finding :=
  (outcomes.filter (fun o => o.2.isNone)).map Prod.fst

/-- Relocates the entries of a report that belong to the old revision's file. -/
def mutations (files : Lookup) (config : Config) (oldPath newPath reportPath : String)
    (output : Option String) : Session Delivery := do
  let old ← revision files "old revision" oldPath
  let new ← revision files "new revision" newPath
  say [s!"Reading report: {reportPath}"]
  let report ← ofResult (readReport files reportPath)
  let name ← ofOption "old revision path has no file name" (fileName? oldPath)
  let findings := report.filter (fun f => f.isInFile name)
  say [s!"Matching and relocating {findings.length} mutations..."]
  let outcomes := findings.zip (Relocation.ofFindings config old new report findings)
  say ((refused outcomes).map refusal)
  let found := relocated outcomes
  return { document := Report.write found
           file := output
           closing := [s!"Relocated {found.length} of {findings.length} mutations."] }

def pairLine (p : Place × Place) : String := s!"{p.1.display} => {p.2.display}\n"

def mappedLine (r : Result) : String :=
  s!"Mapped {r.pairs.length} of {r.src.size} old and {r.dst.size} new nodes."

def diff (files : Lookup) (config : Config) (oldPath newPath : String) : Session Delivery := do
  let old ← revision files "old revision" oldPath
  let new ← revision files "new revision" newPath
  say ["Building matching..."]
  let r := matchTrees config old.root new.root
  return { document := String.join (r.pairs.map pairLine), closing := [mappedLine r] }

def tree (files : Lookup) (path : String) : Session Delivery := do
  let file ← revision files "file" path
  return { document := Interchange.print file.root }

namespace Task

def session (files : Lookup) (config : Config) : Task → Session Delivery
  | mutations old new report output => Command.mutations files config old new report output
  | diff old new => Command.diff files config old new
  | tree file => Command.tree files file

def inputs : Task → List String
  | mutations old new report _ => [old, new, report]
  | diff old new => [old, new]
  | tree file => [file]

end Task

end Relocate.Command
