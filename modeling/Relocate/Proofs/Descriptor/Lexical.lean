import Relocate.Proofs.Descriptor.Erased

/-!
# Type variables in their lexical scope

A type variable belongs to the innermost declaration around it that has a type parameter of its
name, and the names in a bound are looked up from the declaration that the bound stands in. A scope
keeps all type parameters in one list instead: the method's in front, then those of the outermost
type first, and bounds are looked up in the same list. The two agree as long as no type repeats a
type parameter of a type around it and no type parameter has a name that a bound further out
mentions.
-/

set_option autoImplicit false

namespace Relocate

namespace Scope

def typeParameters (declaration : Ast) : List (String × Option Ast) :=
  match declaration.childByKind? "type_parameters" with
  | some params => (params.children.filterMap variableOf?).reverse
  | none => []

def parameterNames (declaration : Ast) : List String := (typeParameters declaration).map Prod.fst

def boundNames (declaration : Ast) : List String :=
  (typeParameters declaration).filterMap fun v => (v.2.bind Descriptor.erased?).bind
    fun e => e.core.simple?

theorem withTypeParameters_eq (scope : Scope) (declaration : Ast) :
    scope.withTypeParameters declaration =
      { scope with typeVariables := typeParameters declaration ++ scope.typeVariables } := by
  rw [withTypeParameters, typeParameters]
  cases declaration.childByKind? "type_parameters" <;> rfl

theorem foldl_withTypeParameters (scope : Scope) (declarations : List Ast) :
    declarations.foldl withTypeParameters scope =
      { scope with
        typeVariables := declarations.reverse.flatMap typeParameters ++ scope.typeVariables } := by
  induction declarations generalizing scope with
  | nil => rfl
  | cons d declarations ih =>
    rw [List.foldl_cons, ih, withTypeParameters_eq]
    simp only [List.reverse_cons, List.flatMap_append, List.flatMap_singleton, List.append_assoc]

theorem lookup_typeParameters {declaration : Ast} {name : String}
    (h : name ∉ parameterNames declaration) : (typeParameters declaration).lookup name = none := by
  rw [List.lookup_eq_none_iff]
  intro v hv
  rw [bne_iff_ne]
  rintro rfl
  exact h (List.mem_map_of_mem hv)

theorem lookup_flatMap_typeParameters {declarations : List Ast} {name : String}
    (h : ∀ d ∈ declarations, name ∉ parameterNames d) :
    (declarations.flatMap typeParameters).lookup name = none := by
  induction declarations with
  | nil => rfl
  | cons d declarations ih =>
    rw [List.flatMap_cons, List.lookup_append, lookup_typeParameters (h d List.mem_cons_self),
      ih fun e he => h e (List.mem_cons_of_mem d he)]
    rfl

/-- The order of declarations does not matter for names that only one of them declares. -/
theorem lookup_flatMap_reverse {declarations : List Ast}
    (h : declarations.Pairwise fun d e => ∀ name ∈ parameterNames d, name ∉ parameterNames e)
    (name : String) : (declarations.reverse.flatMap typeParameters).lookup name =
      (declarations.flatMap typeParameters).lookup name := by
  induction declarations with
  | nil => rfl
  | cons d declarations ih =>
    obtain ⟨hd, htail⟩ := List.pairwise_cons.1 h
    rw [List.reverse_cons, List.flatMap_append, List.flatMap_singleton, List.lookup_append,
      ih htail, List.flatMap_cons, List.lookup_append]
    by_cases hname : name ∈ parameterNames d
    · rw [lookup_flatMap_typeParameters fun e he => hd e he name hname, Option.none_or,
        Option.or_none]
    · rw [lookup_typeParameters hname, Option.none_or, Option.or_none]

end Scope

namespace Descriptor

open Scope

/-- The bound of a type variable, and the declarations from the one that declares it outwards; the
innermost declaration comes first. -/
def declaration? : List Ast → String → Option (Option Ast × List Ast)
  | [], _ => none
  | d :: around, name =>
    match (typeParameters d).lookup name with
    | some bound => some (bound, d :: around)
    | none => declaration? around name

/-- What a type variable stands for: its bound, read where it is declared, with so many further
bounds to follow. -/
def lexicalErasure (file : Scope) : Nat → Option Ast × List Ast → Option String
  | _, (none, _) => some objectType
  | 0, (some _, _) => some objectType
  | hops + 1, (some bound, around) =>
    (erased? bound).bind
      (Erased.descriptor (meaning file (declaration? around) (lexicalErasure file hops)))

def lexicalMeaning (file : Scope) (declarations : List Ast) : Core → Option String :=
  meaning file (declaration? declarations) (lexicalErasure file maxErasureDepth)

/-- No type repeats a type parameter of a type around it, and no bound mentions a type parameter of
a declaration further in. -/
structure Unhidden (method : Ast) (types : List Ast) : Prop where
  apart : types.Pairwise fun inner outer =>
    ∀ name ∈ parameterNames inner, name ∉ parameterNames outer
  bounds : (method :: types).Pairwise fun inner outer =>
    ∀ name ∈ parameterNames inner, name ∉ boundNames outer

instance (method : Ast) (types : List Ast) : Decidable (Unhidden method types) :=
  decidable_of_iff (_ ∧ _) ⟨fun ⟨apart, bounds⟩ => ⟨apart, bounds⟩, fun h => ⟨h.apart, h.bounds⟩⟩

theorem map_fst_declaration? (declarations : List Ast) (name : String) :
    (declaration? declarations name).map Prod.fst =
      (declarations.flatMap typeParameters).lookup name := by
  induction declarations with
  | nil => rfl
  | cons d around ih =>
    rw [declaration?, List.flatMap_cons, List.lookup_append]
    cases (typeParameters d).lookup name with
    | none => rw [Option.none_or, ← ih]
    | some bound => rfl

theorem declaration?_append {inner around : List Ast} {name : String}
    (h : ∀ d ∈ inner, name ∉ parameterNames d) :
    declaration? (inner ++ around) name = declaration? around name := by
  induction inner with
  | nil => rfl
  | cons d inner ih =>
    rw [List.cons_append, declaration?, lookup_typeParameters (h d List.mem_cons_self)]
    exact ih fun e he => h e (List.mem_cons_of_mem d he)

theorem split_of_declaration? {declarations around : List Ast} {name : String} {bound : Option Ast}
    (h : declaration? declarations name = some (bound, around)) :
    ∃ inner d outer, declarations = inner ++ d :: outer ∧ around = d :: outer ∧
      (typeParameters d).lookup name = some bound := by
  induction declarations with
  | nil => cases h
  | cons d declarations ih =>
    rw [declaration?] at h
    split at h
    · rename_i b hlookup
      cases h
      exact ⟨[], d, declarations, rfl, rfl, hlookup⟩
    · obtain ⟨inner, e, outer, rfl, rfl, hlookup⟩ := ih h
      exact ⟨d :: inner, e, outer, rfl, rfl, hlookup⟩

section Flat

variable {file : Scope} {method : Ast} {types : List Ast}

/-- The scope of a method's types, as the types around it and the method itself are added. -/
def flatScope (file : Scope) (method : Ast) (types : List Ast) : Scope :=
  (types.foldl withTypeParameters file).withTypeParameters method

theorem flatScope_eq (hfile : file.typeVariables = []) (method : Ast) (types : List Ast) :
    flatScope file method types =
      { file with
        typeVariables := typeParameters method ++ types.reverse.flatMap typeParameters } := by
  rw [flatScope, foldl_withTypeParameters, withTypeParameters_eq, hfile, List.append_nil]

/-- Among all type parameters in one list, a name that nothing further in declares has the bound of
its innermost declaration. -/
theorem lookup_flatScope (hfile : file.typeVariables = []) (h : Unhidden method types)
    {inner around : List Ast} (hsplit : method :: types = inner ++ around) {name : String}
    (hinner : ∀ d ∈ inner, name ∉ parameterNames d) :
    (flatScope file method types).typeVariables.lookup name =
      (declaration? around name).map Prod.fst := by
  rw [← declaration?_append hinner, ← hsplit, map_fst_declaration?, flatScope_eq hfile,
    List.lookup_append, lookup_flatMap_reverse h.apart, List.flatMap_cons, List.lookup_append]

theorem resolve?_flatScope (hfile : file.typeVariables = []) (method : Ast) (types : List Ast)
    (name : String) : (flatScope file method types).resolve? name = file.resolve? name := by
  rw [flatScope_eq hfile]
  rfl

theorem not_mem_parameterNames_of_mem_boundNames (h : Unhidden method types)
    {inner outer : List Ast} {d : Ast} (hsplit : method :: types = inner ++ d :: outer)
    {name : String} (hname : name ∈ boundNames d) : ∀ e ∈ inner, name ∉ parameterNames e := by
  intro e he hmem
  have hpairs := h.bounds
  rw [hsplit, List.pairwise_append] at hpairs
  exact hpairs.2.2 e he d List.mem_cons_self name hmem hname

theorem scopeMeaning_eq_meaning (hfile : file.typeVariables = []) (h : Unhidden method types)
    {inner around : List Ast} (hsplit : method :: types = inner ++ around)
    {erase : Option Ast → Option String} {erase' : Option Ast × List Ast → Option String}
    (herase : ∀ name v, declaration? around name = some v → erase v.1 = erase' v) {core : Core}
    (hinner : ∀ name, core = .simple name → ∀ d ∈ inner, name ∉ parameterNames d) :
    scopeMeaning (flatScope file method types) erase core =
      meaning file (declaration? around) erase' core := by
  cases core with
  | primitive text => rfl
  | dotted name => rw [scopeMeaning, meaning, meaning, resolve?_flatScope hfile]
  | simple name =>
    rw [scopeMeaning, meaning, meaning, lookup_flatScope hfile h hsplit (hinner name rfl),
      resolve?_flatScope hfile]
    cases hdeclared : declaration? around name with
    | none => rfl
    | some v => exact herase name v hdeclared

/-- A variable stands for the same in both, however many bounds are followed: each bound is read in
the declarations from its own outwards. -/
theorem erasure_flatScope (hfile : file.typeVariables = []) (h : Unhidden method types) (hops : Nat)
    {inner around : List Ast} (hsplit : method :: types = inner ++ around) {name : String}
    {v : Option Ast × List Ast} (hv : declaration? around name = some v) :
    erasure (flatScope file method types) hops v.1 = lexicalErasure file hops v := by
  induction hops generalizing inner around name v with
  | zero =>
    obtain ⟨bound, around'⟩ := v
    cases bound <;> rfl
  | succ hops ih =>
    obtain ⟨bound, around'⟩ := v
    cases bound with
    | none => rfl
    | some bound =>
      -- the bound stands in `d`, so its names are looked up from `d` outwards
      obtain ⟨between, d, outer, rfl, rfl, hlookup⟩ := split_of_declaration? hv
      rw [← List.append_assoc] at hsplit
      rw [erasure, lexicalErasure, ofTypeWith_eq_erased]
      cases herased : erased? bound with
      | none => rfl
      | some e =>
        have hmeaning : scopeMeaning (flatScope file method types)
            (erasure (flatScope file method types) hops) e.core =
              meaning file (declaration? (d :: outer)) (lexicalErasure file hops) e.core := by
          apply scopeMeaning_eq_meaning hfile h hsplit
          · intro name v hv
            exact ih hsplit hv
          · intro mentioned hcore
            apply not_mem_parameterNames_of_mem_boundNames h hsplit
            apply List.mem_filterMap.2
            obtain ⟨before, after, hparameters, -⟩ := List.lookup_eq_some_iff.1 hlookup
            refine ⟨(name, some bound), by rw [hparameters]; exact List.mem_append_cons_self, ?_⟩
            simp only [Option.bind_some, herased, hcore, Core.simple?]
        rw [Option.bind_some, Option.bind_some, Erased.descriptor, Erased.descriptor, hmeaning]

theorem scopeMeaning_flatScope (hfile : file.typeVariables = []) (h : Unhidden method types) :
    scopeMeaning (flatScope file method types)
        (erasure (flatScope file method types) maxErasureDepth) =
      lexicalMeaning file (method :: types) := by
  funext core
  have hsplit : method :: types = [] ++ method :: types := rfl
  apply scopeMeaning_eq_meaning hfile h hsplit
  · intro name v hv
    exact erasure_flatScope hfile h maxErasureDepth hsplit hv
  · intro name _ d hd
    cases hd

end Flat

end Descriptor

end Relocate
