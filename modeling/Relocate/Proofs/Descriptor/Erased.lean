import Relocate.Descriptor.Method
import Relocate.Proofs.Tree.Shape

/-!
# What erasure reads off a type

However a type is written, its descriptor is made of array brackets in front of one core: a
primitive type or a name. The brackets and the core depend on the syntax alone; the scope only says
what the core stands for. So a method's descriptor is its signature, read once, with a meaning for
its cores.
-/

set_option autoImplicit false

namespace Relocate.Descriptor

inductive Core where
  | primitive (text : String)
  /-- A name as it stands in a `type_identifier`. -/
  | simple (name : String)
  | dotted (name : String)
  deriving DecidableEq

namespace Core

def simple? : Core → Option String
  | simple name => some name
  | _ => none

end Core

structure Erased where
  brackets : String
  core : Core
  deriving DecidableEq

namespace Erased

def under (brackets : String) (e : Erased) : Erased := { e with brackets := brackets ++ e.brackets }

def descriptor (meaning : Core → Option String) (e : Erased) : Option String :=
  (meaning e.core).map (e.brackets ++ ·)

theorem descriptor_under (meaning : Core → Option String) (brackets : String) (e : Erased) :
    (e.under brackets).descriptor meaning = (e.descriptor meaning).map (brackets ++ ·) := by
  rw [descriptor, descriptor, under, Option.map_map]
  simp only [Function.comp_def, String.append_assoc]

theorem bind_descriptor_map_under (meaning : Core → Option String) (brackets : String)
    (e : Option Erased) : (e.map (under brackets)).bind (descriptor meaning) =
      (e.bind (descriptor meaning)).map (brackets ++ ·) := by
  cases e with
  | none => rfl
  | some e => exact descriptor_under meaning brackets e

end Erased

def erased? (t : Ast) : Option Erased :=
  match t.kind with
  | "integral_type" | "floating_point_type" | "boolean_type" | "void_type" =>
    some ⟨"", .primitive t.text⟩
  | "type_identifier" => some ⟨"", .simple t.text⟩
  | "scoped_type_identifier" => some ⟨"", .dotted t.text⟩
  | "generic_type" =>
    match _h : t.children.find? isRawType with
    | some raw => erased? raw
    | none => none
  | "array_type" =>
    match _h : t.childByField? "element" with
    | some element =>
      (erased? element).map (Erased.under (arrayPart (t.childByField? "dimensions")))
    | none => none
  | "annotated_type" =>
    match _h : t.children.reverse.find? (fun c => Kinds.isTypeUse c.kind) with
    | some inner => erased? inner
    | none => none
  | _ => none
termination_by t.size
decreasing_by
  · exact t.size_lt_of_mem_children (List.mem_of_find?_eq_some _h)
  · exact t.size_lt_of_mem_children (Rose.mem_children_of_childByField? _h)
  · exact t.size_lt_of_mem_children (List.mem_reverse.1 (List.mem_of_find?_eq_some _h))

theorem erased?_eq (t : Ast) : erased? t =
    match t.kind with
    | "integral_type" | "floating_point_type" | "boolean_type" | "void_type" =>
      some ⟨"", .primitive t.text⟩
    | "type_identifier" => some ⟨"", .simple t.text⟩
    | "scoped_type_identifier" => some ⟨"", .dotted t.text⟩
    | "generic_type" => (t.children.find? isRawType).bind erased?
    | "array_type" => (t.childByField? "element").bind fun element =>
        (erased? element).map (Erased.under (arrayPart (t.childByField? "dimensions")))
    | "annotated_type" =>
      (t.children.reverse.find? fun c => Kinds.isTypeUse c.kind).bind erased?
    | _ => none := by
  fun_cases erased? t
  all_goals simp only [*, Option.bind_some, Option.bind_none]

theorem ofTypeWith_eq (scope : Scope) (erase : Option Ast → Option String) (t : Ast) :
    ofTypeWith scope erase t =
      match t.kind with
      | "integral_type" | "floating_point_type" | "boolean_type" | "void_type" => primitive? t.text
      | "type_identifier" =>
        match scope.typeVariables.lookup t.text with
        | some bound => erase bound
        | none => (scope.resolve? t.text).map ofBinaryName
      | "scoped_type_identifier" => (scope.resolve? t.text).map ofBinaryName
      | "generic_type" => (t.children.find? isRawType).bind (ofTypeWith scope erase)
      | "array_type" =>
        (t.childByField? "element").bind fun element =>
          (ofTypeWith scope erase element).map (arrayPart (t.childByField? "dimensions") ++ ·)
      | "annotated_type" =>
        (t.children.reverse.find? fun c => Kinds.isTypeUse c.kind).bind (ofTypeWith scope erase)
      | _ => none := by
  fun_cases ofTypeWith scope erase t
  all_goals simp only [*, Option.bind_some, Option.bind_none]

/-- What a core stands for, given which names are type variables and what becomes of those. -/
def meaning {α : Type} (file : Scope) (bound? : String → Option α) (erase : α → Option String) :
    Core → Option String
  | .primitive text => primitive? text
  | .simple name =>
    match bound? name with
    | some v => erase v
    | none => (file.resolve? name).map ofBinaryName
  | .dotted name => (file.resolve? name).map ofBinaryName

def scopeMeaning (scope : Scope) (erase : Option Ast → Option String) : Core → Option String :=
  meaning scope (fun name => scope.typeVariables.lookup name) erase

/-- Syntax first, scope afterwards. -/
theorem ofTypeWith_eq_erased (scope : Scope) (erase : Option Ast → Option String) (t : Ast) :
    ofTypeWith scope erase t = (erased? t).bind (Erased.descriptor (scopeMeaning scope erase)) := by
  have hcore : ∀ core, Erased.descriptor (scopeMeaning scope erase) ⟨"", core⟩ =
      scopeMeaning scope erase core := by
    intro core
    simp only [Erased.descriptor, String.empty_append, Option.map_id']
  generalize hn : t.size = n
  induction n using Nat.strongRecOn generalizing t with
  | ind n ih =>
    have hchild : ∀ c ∈ t.children, ofTypeWith scope erase c =
        (erased? c).bind (Erased.descriptor (scopeMeaning scope erase)) :=
      fun c hc => ih c.size (hn ▸ t.size_lt_of_mem_children hc) c rfl
    rw [ofTypeWith_eq, erased?_eq]
    split
    · exact (hcore (.primitive t.text)).symm
    · exact (hcore (.primitive t.text)).symm
    · exact (hcore (.primitive t.text)).symm
    · exact (hcore (.primitive t.text)).symm
    · rw [Option.bind_some, hcore, scopeMeaning, meaning]
      cases scope.typeVariables.lookup t.text <;> rfl
    · exact (hcore (.dotted t.text)).symm
    · cases hfind : t.children.find? isRawType with
      | none => rfl
      | some raw => exact hchild raw (List.mem_of_find?_eq_some hfind)
    · cases hfind : t.childByField? "element" with
      | none => rfl
      | some element =>
        rw [Option.bind_some, Option.bind_some, Erased.bind_descriptor_map_under,
          hchild element (Rose.mem_children_of_childByField? hfind)]
    · cases hfind : t.children.reverse.find? fun c => Kinds.isTypeUse c.kind with
      | none => rfl
      | some inner => exact hchild inner (List.mem_reverse.1 (List.mem_of_find?_eq_some hfind))
    · rfl

theorem ofType_eq_erased (scope : Scope) (t : Ast) : ofType scope t =
    (erased? t).bind (Erased.descriptor (scopeMeaning scope (erasure scope maxErasureDepth))) :=
  ofTypeWith_eq_erased scope _ t

section Signature

def parameterType? (param : Ast) : Option (Option Erased) :=
  match param.kind with
  | "formal_parameter" =>
    some ((param.childByField? "type").bind fun t =>
      (erased? t).map (Erased.under (arrayPart (param.childByField? "dimensions"))))
  | "spread_parameter" =>
    some ((param.children.find? (fun c => Kinds.isTypeUse c.kind)).bind fun t =>
      (erased? t).map (Erased.under "["))
  | _ => none

def parameterTypes (method : Ast) : List (Option Erased) :=
  match method.childByField? "parameters" with
  | some params => params.children.filterMap parameterType?
  | none => []

def resultType? (method : Ast) : Option Erased :=
  if method.kind == "constructor_declaration" then some ⟨"", .primitive "void"⟩
  else (method.childByField? "type").bind fun t =>
    (erased? t).map (Erased.under (arrayPart (method.childByField? "dimensions")))

def describe (meaning : Core → Option String) (method : Ast) : Option String :=
  (allOf ((parameterTypes method).map fun e => e.bind (Erased.descriptor meaning))).bind fun ps =>
    ((resultType? method).bind (Erased.descriptor meaning)).map fun r => "(" ++ ps ++ ")" ++ r

theorem bind_ofType_map (scope : Scope) (t : Option Ast) (brackets : String) :
    (t.bind fun t => (ofType scope t).map (brackets ++ ·)) =
      (t.bind fun t => (erased? t).map (Erased.under brackets)).bind
        (Erased.descriptor (scopeMeaning scope (erasure scope maxErasureDepth))) := by
  cases t with
  | none => rfl
  | some t =>
    rw [Option.bind_some, Option.bind_some, Erased.bind_descriptor_map_under, ofType_eq_erased]

theorem parameter?_eq (scope : Scope) (param : Ast) :
    parameter? scope param = (parameterType? param).map fun e =>
      e.bind (Erased.descriptor (scopeMeaning scope (erasure scope maxErasureDepth))) := by
  rw [parameter?, parameterType?]
  split
  all_goals simp only [*, Option.map_some, Option.map_none, bind_ofType_map]

theorem parameters_eq (scope : Scope) (method : Ast) : parameters scope method =
    allOf ((parameterTypes method).map fun e =>
      e.bind (Erased.descriptor (scopeMeaning scope (erasure scope maxErasureDepth)))) := by
  rw [parameters, parameterTypes]
  cases method.childByField? "parameters" with
  | none => rfl
  | some params =>
    rw [List.map_filterMap, show parameter? scope = _ from funext (parameter?_eq scope)]

theorem result_eq (scope : Scope) (method : Ast) : result scope method =
    (resultType? method).bind
      (Erased.descriptor (scopeMeaning scope (erasure scope maxErasureDepth))) := by
  rw [result, resultType?]
  split
  · rfl
  · exact bind_ofType_map scope _ _

theorem ofMethod_eq_describe (scope : Scope) (method : Ast) : ofMethod scope method =
    describe (scopeMeaning (scope.withTypeParameters method)
      (erasure (scope.withTypeParameters method) maxErasureDepth)) method := by
  rw [describe, ← parameters_eq, ← result_eq]
  simp only [ofMethod]
  cases parameters (scope.withTypeParameters method) method with
  | none => rfl
  | some ps => cases result (scope.withTypeParameters method) method <;> rfl

/-- All that a scope does for a descriptor is to look names up. -/
theorem ofMethod_congr {scope scope' : Scope} {method : Ast}
    (hresolve : ∀ name, scope.resolve? name = scope'.resolve? name)
    (hlookup : ∀ name, (scope.withTypeParameters method).typeVariables.lookup name =
      (scope'.withTypeParameters method).typeVariables.lookup name) :
    ofMethod scope method = ofMethod scope' method := by
  have hinner : ∀ (scope : Scope) (name : String),
      (scope.withTypeParameters method).resolve? name = scope.resolve? name := by
    intro scope name
    rw [Scope.withTypeParameters]
    cases method.childByKind? "type_parameters" <;> rfl
  have hmeaning : ∀ erase, scopeMeaning (scope.withTypeParameters method) erase =
      scopeMeaning (scope'.withTypeParameters method) erase := by
    intro erase
    funext core
    cases core with
    | primitive text => rfl
    | simple name => simp only [scopeMeaning, meaning, hlookup, hinner, hresolve]
    | dotted name => simp only [scopeMeaning, meaning, hinner, hresolve]
  have herasure : ∀ hops, erasure (scope.withTypeParameters method) hops =
      erasure (scope'.withTypeParameters method) hops := by
    intro hops
    induction hops with
    | zero => funext bound; cases bound <;> rfl
    | succ hops ih =>
      funext bound
      cases bound with
      | none => rfl
      | some bound =>
        rw [erasure, erasure, ofTypeWith_eq_erased, ofTypeWith_eq_erased, hmeaning, ih]
  rw [ofMethod_eq_describe, ofMethod_eq_describe, hmeaning, herasure]

theorem allOf_eq_some_iff {l : List (Option String)} {d : String} :
    allOf l = some d ↔ ∃ parts, l = parts.map some ∧ String.join parts = d := by
  induction l generalizing d with
  | nil => simp [allOf]
  | cons o l ih =>
    cases o with
    | none =>
      simp only [allOf, reduceCtorEq, false_iff]
      rintro ⟨parts, hparts, -⟩
      cases parts <;> simp at hparts
    | some first =>
      simp only [allOf, Option.map_eq_some_iff, ih]
      constructor
      · rintro ⟨rest, ⟨parts, rfl, rfl⟩, rfl⟩
        exact ⟨first :: parts, rfl, String.join_cons⟩
      · rintro ⟨parts, hparts, rfl⟩
        cases parts with
        | nil => simp at hparts
        | cons part parts =>
          simp only [List.map_cons, List.cons.injEq, Option.some.injEq] at hparts
          obtain ⟨rfl, rfl⟩ := hparts
          exact ⟨_, ⟨parts, rfl, rfl⟩, String.join_cons.symm⟩

theorem describe_eq_some_iff {meaning : Core → Option String} {method : Ast} {d : String} :
    describe meaning method = some d ↔ ∃ parts r,
      ((parameterTypes method).map fun e => e.bind (Erased.descriptor meaning)) = parts.map some ∧
      (resultType? method).bind (Erased.descriptor meaning) = some r ∧
      "(" ++ String.join parts ++ ")" ++ r = d := by
  simp only [describe, Option.bind_eq_some_iff (x := allOf _), Option.map_eq_some_iff,
    allOf_eq_some_iff]
  constructor
  · rintro ⟨_, ⟨parts, hparts, rfl⟩, r, hr, rfl⟩
    exact ⟨parts, r, hparts, hr, rfl⟩
  · rintro ⟨parts, r, hparts, hr, rfl⟩
    exact ⟨_, ⟨parts, hparts, rfl⟩, r, hr, rfl⟩

end Signature

end Relocate.Descriptor
