/-!
# Findings of mutation testing

A finding says where a program was mutated and what came of it. A relocation is a finding with the
position that belongs to it in a newer revision.
-/

set_option autoImplicit false

namespace Relocate

structure Finding where
  sourceFile : String := ""
  /-- Binary name of the mutated class, with dots between packages. -/
  mutatedClass : String := ""
  mutatedMethod : String := ""
  descriptor : String := ""
  line : Nat := 0
  operator : String := ""
  indices : List Nat := []
  order : List Nat := []
  status : Option String := none
  detected : Option Bool := none
  description : Option String := none
  deriving DecidableEq, Inhabited

namespace Finding

def isInFile (f : Finding) (fileName : String) : Bool := f.sourceFile == fileName

def display (f : Finding) : String :=
  s!"{f.mutatedClass}.{f.mutatedMethod}{f.descriptor} line {f.line} ({f.operator})"

end Finding

structure Relocation where
  old : Finding
  line : Nat
  className : String
  methodName : String
  descriptor : String
  /-- Trimmed text of the new line, empty if the source is unavailable. -/
  sourceText : String
  deriving DecidableEq, Inhabited

namespace Relocation

def finding (r : Relocation) : Finding :=
  { r.old with
    mutatedClass := r.className
    mutatedMethod := r.methodName
    descriptor := r.descriptor
    line := r.line }

def sameMethod (r : Relocation) : Bool :=
  r.old.mutatedClass == r.className && r.old.mutatedMethod == r.methodName &&
    r.old.descriptor == r.descriptor

def display (r : Relocation) : String :=
  s!"{r.className}.{r.methodName}{r.descriptor} line {r.old.line} -> line {r.line}: {r.sourceText}"

end Relocation

end Relocate
