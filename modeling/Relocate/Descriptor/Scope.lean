import Relocate.Descriptor.Kinds
import Relocate.Text.Segments

/-!
# Type names in scope

What a file says about simple type names: the types it declares, by their binary names, and its
single-type imports. Of several declarations or imports of one name the first counts; declared types
come before imports, and imports before the implicitly imported types. A dotted name resolves by its
first segment, or is taken as it stands if it begins with a package.
-/

set_option autoImplicit false

namespace Relocate

open Relocate.Text

def implicitTypes : List String :=
  ["AutoCloseable", "Boolean", "Byte", "CharSequence", "Character", "Class", "ClassCastException",
   "Cloneable", "Comparable", "Deprecated", "Double", "Enum", "Error", "Exception", "Float",
   "FunctionalInterface", "IllegalArgumentException", "IllegalStateException",
   "IndexOutOfBoundsException", "Integer", "InterruptedException", "Iterable", "Long", "Math",
   "NullPointerException", "Number", "Object", "Override", "Record", "Runnable",
   "RuntimeException", "Short", "String", "StringBuffer", "StringBuilder", "SuppressWarnings",
   "System", "Thread", "Throwable", "UnsupportedOperationException", "Void"]

namespace BinaryName

/-- Each segment after its separator: `$` behind the first capitalised segment, `/` before. -/
def joinFrom (inType : Bool) : List (List Char) → List Char
  | [] => []
  | s :: rest => (if inType then '$' else '/') :: s ++ joinFrom (inType || startsUpper s) rest

def ofSegments : List (List Char) → List Char
  | [] => []
  | s :: rest => s ++ joinFrom (startsUpper s) rest

def ofDotted (name : String) : String := String.ofList (ofSegments (segments name.toList))

def member (outer rest : String) : String :=
  outer ++ "$" ++ String.ofList (replace '.' '$' rest.toList)

end BinaryName

structure Scope where
  package : Option String := none
  /-- Simple names of the types declared in the file and their binary names, in file order. -/
  declared : List (String × String) := []
  /-- Simple names of the single-type imports and their binary names, in file order. -/
  imports : List (String × String) := []
  /-- Type variables and their first bounds, the latest first. -/
  typeVariables : List (String × Option Ast) := []
  deriving Inhabited

namespace Scope

/-- The dotted package name of the last package declaration that there is. -/
def packageOf (root : Ast) : Option String :=
  ((root.children.filter (fun c => c.kind == "package_declaration")).getLast?).bind
    (fun d => d.children.head?.map Rose.text)

def importOf? (decl : Ast) : Option (String × String) :=
  if decl.kind == "import_declaration" && (decl.childByKind? "asterisk").isNone then
    decl.children.head?.map fun n =>
      (String.ofList ((segments n.text.toList).getLastD []), BinaryName.ofDotted n.text)
  else none

def packagePath (package : Option String) : String :=
  match package with
  | some p => String.ofList (replace '.' '/' p.toList) ++ "/"
  | none => ""

def binaryName (home : String) (outer : Option String) (name : String) : String :=
  match outer with
  | some o => o ++ "$" ++ name
  | none => home ++ name

mutual
def declaredIn (home : String) (outer : Option String) : Rose Tag → List (String × String)
  | .node _ cs => declaredInAll home outer cs

def declaredInAll (home : String) (outer : Option String) :
    List (Rose Tag) → List (String × String)
  | [] => []
  | c :: cs =>
    let here := match (if Kinds.isType c.kind then c.name? else none) with
      | some name =>
        let binary := binaryName home outer name
        (name, binary) :: declaredIn home (some binary) c
      | none => declaredIn home outer c
    here ++ declaredInAll home outer cs
end

def ofRoot (root : Ast) : Scope :=
  let package := packageOf root
  { package
    imports := root.children.filterMap importOf?
    declared := declaredIn (packagePath package) none root }

def variableOf? (param : Ast) : Option (String × Option Ast) :=
  if param.kind == "type_parameter" then
    (param.childByKind? "type_identifier").map fun name =>
      (name.text, (param.childByKind? "type_bound").bind
        (fun b => b.children.find? (fun t => Kinds.isTypeUse t.kind)))
  else none

/-- Adds the type parameters of a class or method; they hide earlier ones of the same name. -/
def withTypeParameters (scope : Scope) (declaration : Ast) : Scope :=
  match declaration.childByKind? "type_parameters" with
  | some params =>
    { scope with
      typeVariables := (params.children.filterMap variableOf?).reverse ++ scope.typeVariables }
  | none => scope

def resolveSimple? (scope : Scope) (name : String) : Option String :=
  match scope.declared.lookup name with
  | some binary => some binary
  | none =>
    match scope.imports.lookup name with
    | some binary => some binary
    | none => if implicitTypes.contains name then some ("java/lang/" ++ name) else none

def resolve? (scope : Scope) (name : String) : Option String :=
  let first := name.toList.takeWhile (· != '.')
  match name.toList.dropWhile (· != '.') with
  | [] => scope.resolveSimple? name
  | _ :: rest =>
    match scope.resolveSimple? (String.ofList first) with
    | some outer => some (BinaryName.member outer (String.ofList rest))
    | none => if startsLower first then some (BinaryName.ofDotted name) else none

end Scope

end Relocate
