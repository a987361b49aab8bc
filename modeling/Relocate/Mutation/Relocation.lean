import Relocate.Descriptor.Method
import Relocate.Mutation.Finding
import Relocate.Mutation.Vote
import Relocate.Text.Lines

/-!
# Relocating findings

The line of a finding is carried over by vote. The method and the type around the anchor give the
new method and class name. The descriptor comes from the declaration, else from the finding itself
when its method is the only one of that name in the type, else from the report when all its entries
for the same position agree.
-/

set_option autoImplicit false

namespace Relocate

open Relocate.Matching

/-- A parsed source file; the text is empty when there is only a tree. -/
structure SourceFile where
  root : Ast
  text : String := ""
  deriving Inhabited

namespace Relocation

def constructorName : String := "<init>"

def constructorDescriptor : String := "()V"

def isConstructor (method : Place) : Bool := method.kind == "constructor_declaration"

def methodAround? (p : Place) : Option Place := p.upward.find? (fun q => Kinds.isMethod q.kind)

def typeAround? (method : Place) : Option Place :=
  method.ancestors.find? (fun q => Kinds.isEnclosing q.kind)

def typeChain (enclosing : Place) : List Place :=
  enclosing.upward.filter (fun q => Kinds.isType q.kind)

/-- Package and type names from the outermost on, separated by points; with more than one type the
last point becomes a dollar sign. -/
def className? (package : Option String) (chain : List Place) : Option String :=
  (chain.reverse.mapM (fun t : Place => t.ast.name?)).map fun names =>
    let dotted := String.intercalate "." (package.toList ++ names)
    if 1 < names.length then String.ofList (Text.replaceLast '.' '$' dotted.toList) else dotted

mutual
/-- How many methods of this name a type declares itself: nested types and anonymous classes are
not entered. -/
def countMethods (name : String) : Rose Tag → Nat
  | .node _ cs => countMethodsAll name cs

def countMethodsAll (name : String) : List (Rose Tag) → Nat
  | [] => 0
  | c :: cs =>
    let here :=
      if c.kind == "method_declaration" then (if c.name? == some name then 1 else 0)
      else if Kinds.isType c.kind || c.kind == "object_creation_expression" then 0
      else countMethods name c
    here + countMethodsAll name cs
end

def ownDescriptor? (f : Finding) (methodName : String) (enclosing : Ast) : Option String :=
  if f.mutatedMethod == methodName && countMethods methodName enclosing == 1 then
    some f.descriptor
  else none

def samePosition (f entry : Finding) : Bool :=
  entry.line == f.line && entry.mutatedClass == f.mutatedClass &&
    entry.mutatedMethod == f.mutatedMethod

/-- The descriptor on which all entries for the finding's position agree. -/
def reportedDescriptor? (f : Finding) (report : List Finding) : Option String :=
  match (report.filter (samePosition f)).map Finding.descriptor with
  | [] => none
  | d :: ds => if ds.all (· == d) then some d else none

def methodName? (method : Place) : Option String :=
  if isConstructor method then some constructorName else method.ast.name?

def descriptor? (scope : Scope) (f : Finding) (report : List Finding) (method enclosing : Place)
    (methodName : String) : Option String :=
  if isConstructor method then some constructorDescriptor
  else
    match Descriptor.ofMethod scope method.ast with
    | some d => some d
    | none =>
      match ownDescriptor? f methodName enclosing.ast with
      | some d => some d
      | none => reportedDescriptor? f report

/-- What the file and the types around a method say about type names; the outermost type's
parameters are added last. -/
def scopeAround (root : Ast) (chain : List Place) : Scope :=
  chain.foldl (fun scope t => scope.withTypeParameters t.ast) (Scope.ofRoot root)

/-- Relocates a finding over a finished match, whose destination tree was parsed from `text`. -/
def ofResult? (r : Result) (text : String) (report : List Finding) (f : Finding) :
    Option Relocation := do
  let (line, anchor) ← Vote.ofLine? r f.line
  let method ← methodAround? anchor
  let enclosing ← typeAround? method
  let chain := typeChain enclosing
  let scope := scopeAround r.dst.ast chain
  let className ← className? scope.package chain
  let methodName ← methodName? method
  let descriptor ← descriptor? scope f report method enclosing methodName
  return { old := f, line, className, methodName, descriptor
           sourceText := (Text.lineText? text line).getD "" }

def ofFinding? (config : Config) (old new : SourceFile) (report : List Finding) (f : Finding) :
    Option Relocation :=
  ofResult? (matchTrees config old.root new.root) new.text report f

def ofFindings (config : Config) (old new : SourceFile) (report findings : List Finding) :
    List (Option Relocation) :=
  let r := matchTrees config old.root new.root
  findings.map (ofResult? r new.text report)

end Relocation

end Relocate
