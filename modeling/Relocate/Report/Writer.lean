import Relocate.Interchange.Printer
import Relocate.Mutation.Finding

/-!
# Writing reports

Relocated findings in the layout of a report, each with its old line and new source text added,
so that the output can be read again.
-/

set_option autoImplicit false

namespace Relocate.Report

open Relocate.Interchange

def element (name : String) (text : String) : List Char :=
  '<' :: name.toList ++ '>' :: escaped text ++ '<' :: '/' :: name.toList ++ ['>']

def numbers (name : String) (ns : List Nat) : List Char :=
  ns.flatMap (fun n => element name (toString n))

def singleQuoted (name : String) (text : List Char) : List Char :=
  ' ' :: name.toList ++ '=' :: '\'' :: text ++ ['\'']

def statusAttributes (f : Finding) : List Char :=
  (match f.detected with
    | some d => singleQuoted "detected" (toString d).toList
    | none => []) ++
  (match f.status with
    | some s => singleQuoted "status" (escaped s)
    | none => [])

def entry (r : Relocation) : List Char :=
  let f := r.finding
  "<mutation".toList ++ statusAttributes f ++ ">".toList ++
    element "sourceFile" f.sourceFile ++ element "mutatedClass" f.mutatedClass ++
    element "mutatedMethod" f.mutatedMethod ++ element "methodDescription" f.descriptor ++
    element "lineNumber" (toString f.line) ++ element "mutator" f.operator ++
    "<indexes>".toList ++ numbers "index" f.indices ++ "</indexes><blocks>".toList ++
    numbers "block" f.order ++ "</blocks>".toList ++
    (match f.description with
      | some d => element "description" d
      | none => []) ++
    element "originalLineNumber" (toString r.old.line) ++ element "sourceText" r.sourceText ++
    "</mutation>\n".toList

def write (rs : List Relocation) : String :=
  declaration ++ "<mutations>\n" ++ String.ofList (rs.flatMap entry) ++ "</mutations>\n"

end Relocate.Report
