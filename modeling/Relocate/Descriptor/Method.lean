import Relocate.Descriptor.Scope

/-!
# Method descriptors

The descriptor of a declared method: its parameter types in parentheses, then its return type. Type
variables stand for their first bound, or for `java/lang/Object`. A type that cannot be resolved
makes the descriptor unavailable.
-/

set_option autoImplicit false

namespace Relocate.Descriptor

def objectType : String := "Ljava/lang/Object;"

/-- How many bounds of type variables are followed one after the other. -/
def maxErasureDepth : Nat := 8

def primitive? : String → Option String
  | "int" => some "I"
  | "long" => some "J"
  | "short" => some "S"
  | "byte" => some "B"
  | "char" => some "C"
  | "float" => some "F"
  | "double" => some "D"
  | "boolean" => some "Z"
  | "void" => some "V"
  | _ => none

def ofBinaryName (name : String) : String := "L" ++ name ++ ";"

/-- One bracket for each pair that the dimensions write. -/
def arrayPart (dimensions : Option Ast) : String :=
  match dimensions with
  | some d => String.ofList (d.text.toList.filter (· == '['))
  | none => ""

def isRawType (t : Ast) : Bool := t.kind == "type_identifier" || t.kind == "scoped_type_identifier"

def ofTypeWith (scope : Scope) (erase : Option Ast → Option String) (t : Ast) : Option String :=
  match t.kind with
  | "integral_type" | "floating_point_type" | "boolean_type" | "void_type" => primitive? t.text
  | "type_identifier" =>
    match scope.typeVariables.lookup t.text with
    | some bound => erase bound
    | none => (scope.resolve? t.text).map ofBinaryName
  | "scoped_type_identifier" => (scope.resolve? t.text).map ofBinaryName
  | "generic_type" =>
    match _h : t.children.find? isRawType with
    | some raw => ofTypeWith scope erase raw
    | none => none
  | "array_type" =>
    match _h : t.childByField? "element" with
    | some element =>
      (ofTypeWith scope erase element).map (arrayPart (t.childByField? "dimensions") ++ ·)
    | none => none
  | "annotated_type" =>
    match _h : t.children.reverse.find? (fun c => Kinds.isTypeUse c.kind) with
    | some inner => ofTypeWith scope erase inner
    | none => none
  | _ => none
termination_by t.size
decreasing_by
  · exact t.size_lt_of_mem_children (List.mem_of_find?_eq_some _h)
  · exact t.size_lt_of_mem_children (Rose.mem_children_of_childByField? _h)
  · exact t.size_lt_of_mem_children (List.mem_reverse.1 (List.mem_of_find?_eq_some _h))

/-- What a type variable stands for, with so many further bounds to follow. -/
def erasure (scope : Scope) : Nat → Option Ast → Option String
  | _, none => some objectType
  | 0, some _ => some objectType
  | hops + 1, some bound => ofTypeWith scope (erasure scope hops) bound

def ofType (scope : Scope) (t : Ast) : Option String :=
  ofTypeWith scope (erasure scope maxErasureDepth) t

/-- A parameter type and its array brackets; `none` for anything that is no parameter. -/
def parameter? (scope : Scope) (param : Ast) : Option (Option String) :=
  match param.kind with
  | "formal_parameter" =>
    some ((param.childByField? "type").bind fun t =>
      (ofType scope t).map (arrayPart (param.childByField? "dimensions") ++ ·))
  | "spread_parameter" =>
    some ((param.children.find? (fun c => Kinds.isTypeUse c.kind)).bind fun t =>
      (ofType scope t).map ("[" ++ ·))
  | _ => none

def allOf : List (Option String) → Option String
  | [] => some ""
  | none :: _ => none
  | some d :: rest => (allOf rest).map (d ++ ·)

def parameters (scope : Scope) (method : Ast) : Option String :=
  match method.childByField? "parameters" with
  | some params => allOf (params.children.filterMap (parameter? scope))
  | none => some ""

def result (scope : Scope) (method : Ast) : Option String :=
  if method.kind == "constructor_declaration" then some "V"
  else (method.childByField? "type").bind fun t =>
    (ofType scope t).map (arrayPart (method.childByField? "dimensions") ++ ·)

def ofMethod (scope : Scope) (method : Ast) : Option String :=
  let inner := scope.withTypeParameters method
  match parameters inner method, result inner method with
  | some ps, some r => some ("(" ++ ps ++ ")" ++ r)
  | _, _ => none

end Relocate.Descriptor
