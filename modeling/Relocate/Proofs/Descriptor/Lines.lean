import Relocate.Proofs.Descriptor.Erased
import Relocate.Proofs.Tree.Relabel

/-!
# Names and descriptors without lines

What a declaration is called, which types are in scope and which descriptor a method has can be read
off kinds, values and fields alone. Putting every node on another line changes none of it.
-/

set_option autoImplicit false

namespace Relocate

def Tag.relined (f : Nat → Nat) (t : Tag) : Tag := { t with line := f t.line }

namespace Rose

variable (f : Nat → Nat)

def relined (t : Ast) : Ast := t.map (Tag.relined f)

variable (t : Ast)

@[simp] theorem kind_relined : (t.relined f).kind = t.kind := by
  rw [kind, relined, label_map]
  rfl

@[simp] theorem value_relined : (t.relined f).value = t.value := by
  rw [value, relined, label_map]
  rfl

@[simp] theorem field_relined : (t.relined f).field = t.field := by
  rw [field, relined, label_map]
  rfl

@[simp] theorem text_relined : (t.relined f).text = t.text := by rw [text, text, value_relined]

@[simp] theorem children_relined : (t.relined f).children = t.children.map (relined f) :=
  children_map (Tag.relined f) t

@[simp] theorem outline_relined : (t.relined f).outline = t.outline := by
  rw [outline, relined, map_map]
  rfl

@[simp] theorem childByField?_relined (field : String) :
    (t.relined f).childByField? field = (t.childByField? field).map (relined f) := by
  simp only [childByField?, children_relined, List.find?_map, Function.comp_def, field_relined]

@[simp] theorem childByKind?_relined (kind : String) :
    (t.relined f).childByKind? kind = (t.childByKind? kind).map (relined f) := by
  simp only [childByKind?, children_relined, List.find?_map, Function.comp_def, kind_relined]

@[simp] theorem name?_relined : (t.relined f).name? = t.name? := by
  rw [name?, name?, childByField?_relined]
  cases t.childByField? "name" with
  | none => rfl
  | some c => exact value_relined f c

end Rose

theorem lookup_map_snd {α β : Type} (g : α → β) (key : String) (l : List (String × α)) :
    (l.map fun u => (u.1, g u.2)).lookup key = (l.lookup key).map g := by
  induction l with
  | nil => rfl
  | cons u l ih =>
    obtain ⟨k, a⟩ := u
    simp only [List.map_cons, List.lookup_cons]
    cases key == k <;> simp [ih]

namespace Scope

variable (f : Nat → Nat)

def relined (scope : Scope) : Scope :=
  { scope with typeVariables := scope.typeVariables.map fun u => (u.1, u.2.map (Rose.relined f)) }

theorem packageOf_relined (root : Ast) : packageOf (root.relined f) = packageOf root := by
  simp only [packageOf, Rose.children_relined, List.filter_map, Function.comp_def,
    Rose.kind_relined, List.getLast?_map]
  cases (root.children.filter fun c => c.kind == "package_declaration").getLast? with
  | none => rfl
  | some d => simp [Function.comp_def]

theorem importOf?_relined (decl : Ast) : importOf? (decl.relined f) = importOf? decl := by
  simp [importOf?, Function.comp_def]

mutual
theorem declaredIn_relined (home : String) (outer : Option String) :
    (t : Ast) → declaredIn home outer (t.relined f) = declaredIn home outer t
  | .node tag cs => by
    rw [Rose.relined, Rose.map, declaredIn, declaredIn, Rose.mapAll_eq_map]
    exact declaredInAll_relined home outer cs

theorem declaredInAll_relined (home : String) (outer : Option String) : (cs : List Ast) →
    declaredInAll home outer (cs.map (Rose.relined f)) = declaredInAll home outer cs
  | [] => rfl
  | c :: cs => by
    have hc := fun outer => declaredIn_relined home outer c
    rw [List.map_cons, declaredInAll, declaredInAll, declaredInAll_relined home outer cs,
      Rose.kind_relined, Rose.name?_relined]
    simp only [hc]
end

theorem ofRoot_relined (root : Ast) : ofRoot (root.relined f) = (ofRoot root).relined f := by
  simp only [ofRoot, relined, packageOf_relined, declaredIn_relined, Rose.children_relined,
    List.filterMap_map, Function.comp_def, importOf?_relined, List.map_nil]

theorem variableOf?_relined (param : Ast) : variableOf? (param.relined f) =
    (variableOf? param).map fun u => (u.1, u.2.map (Rose.relined f)) := by
  simp only [variableOf?, Rose.kind_relined, Rose.childByKind?_relined]
  split
  · cases param.childByKind? "type_identifier" with
    | none => rfl
    | some name =>
      cases param.childByKind? "type_bound" with
      | none => simp
      | some bound =>
        simp only [Option.map_some, Option.bind_some, Rose.text_relined, Rose.children_relined,
          List.find?_map, Function.comp_def, Rose.kind_relined]
  · rfl

theorem withTypeParameters_relined (scope : Scope) (declaration : Ast) :
    (scope.relined f).withTypeParameters (declaration.relined f) =
      (scope.withTypeParameters declaration).relined f := by
  simp only [withTypeParameters, Rose.childByKind?_relined]
  cases declaration.childByKind? "type_parameters" with
  | none => rfl
  | some params =>
    simp only [Option.map_some, relined, Rose.children_relined, List.filterMap_map,
      Function.comp_def, variableOf?_relined, List.map_append, List.map_reverse, List.map_filterMap]

theorem resolve?_relined (scope : Scope) (name : String) :
    (scope.relined f).resolve? name = scope.resolve? name := rfl

end Scope

namespace Descriptor

variable (f : Nat → Nat)

theorem arrayPart_relined (dimensions : Option Ast) :
    arrayPart (dimensions.map (Rose.relined f)) = arrayPart dimensions := by
  cases dimensions with
  | none => rfl
  | some d => simp [arrayPart]

theorem erased?_relined (t : Ast) : erased? (t.relined f) = erased? t := by
  generalize hn : t.size = n
  induction n using Nat.strongRecOn generalizing t with
  | ind n ih =>
    have hchild : ∀ c ∈ t.children, erased? (c.relined f) = erased? c :=
      fun c hc => ih c.size (hn ▸ t.size_lt_of_mem_children hc) c rfl
    rw [erased?_eq, erased?_eq, Rose.kind_relined]
    split
    · rw [Rose.text_relined]
    · rw [Rose.text_relined]
    · rw [Rose.text_relined]
    · rw [Rose.text_relined]
    · rw [Rose.text_relined]
    · rw [Rose.text_relined]
    · have hraw : (fun c => isRawType (Rose.relined f c)) = isRawType := by
        funext c
        rw [isRawType, isRawType, Rose.kind_relined]
      rw [Rose.children_relined, List.find?_map, Function.comp_def, hraw]
      cases hfind : t.children.find? isRawType with
      | none => rfl
      | some raw => exact hchild raw (List.mem_of_find?_eq_some hfind)
    · rw [Rose.childByField?_relined, Rose.childByField?_relined]
      cases hfind : t.childByField? "element" with
      | none => rfl
      | some element =>
        simp only [Option.map_some, Option.bind_some, arrayPart_relined,
          hchild element (Rose.mem_children_of_childByField? hfind)]
    · rw [Rose.children_relined, ← List.map_reverse, List.find?_map, Function.comp_def]
      simp only [Rose.kind_relined]
      cases hfind : t.children.reverse.find? fun c => Kinds.isTypeUse c.kind with
      | none => rfl
      | some inner => exact hchild inner (List.mem_reverse.1 (List.mem_of_find?_eq_some hfind))
    · rfl

theorem bind_erased?_relined (t : Option Ast) (g : Erased → Erased) :
    ((t.map (Rose.relined f)).bind fun t => (erased? t).map g) =
      t.bind fun t => (erased? t).map g := by
  cases t with
  | none => rfl
  | some t => simp only [Option.map_some, Option.bind_some, erased?_relined]

theorem parameterType?_relined (param : Ast) :
    parameterType? (param.relined f) = parameterType? param := by
  simp only [parameterType?, Rose.kind_relined, Rose.childByField?_relined, arrayPart_relined,
    bind_erased?_relined, Rose.children_relined, List.find?_map, Function.comp_def]

theorem parameterTypes_relined (method : Ast) :
    parameterTypes (method.relined f) = parameterTypes method := by
  rw [parameterTypes, parameterTypes, Rose.childByField?_relined]
  cases method.childByField? "parameters" with
  | none => rfl
  | some params =>
    simp only [Option.map_some, Rose.children_relined, List.filterMap_map, Function.comp_def,
      parameterType?_relined]

theorem resultType?_relined (method : Ast) :
    resultType? (method.relined f) = resultType? method := by
  simp only [resultType?, Rose.kind_relined, Rose.childByField?_relined, arrayPart_relined,
    bind_erased?_relined]

theorem scopeMeaning_relined (scope : Scope) {erase erase' : Option Ast → Option String}
    (herase : ∀ bound, erase' (bound.map (Rose.relined f)) = erase bound) :
    scopeMeaning (scope.relined f) erase' = scopeMeaning scope erase := by
  funext core
  cases core with
  | primitive text => rfl
  | dotted name => rfl
  | simple name =>
    have hlookup : (scope.relined f).typeVariables.lookup name =
        (scope.typeVariables.lookup name).map fun bound => bound.map (Rose.relined f) :=
      lookup_map_snd (fun bound : Option Ast => bound.map (Rose.relined f)) name _
    rw [scopeMeaning, scopeMeaning, meaning, meaning, hlookup, Scope.resolve?_relined]
    cases scope.typeVariables.lookup name with
    | none => rfl
    | some bound => exact herase bound

theorem erasure_relined (scope : Scope) (hops : Nat) (bound : Option Ast) :
    erasure (scope.relined f) hops (bound.map (Rose.relined f)) = erasure scope hops bound := by
  induction hops generalizing bound with
  | zero => cases bound <;> rfl
  | succ hops ih =>
    cases bound with
    | none => rfl
    | some bound =>
      rw [Option.map_some, erasure, erasure, ofTypeWith_eq_erased, ofTypeWith_eq_erased,
        erased?_relined, scopeMeaning_relined f scope ih]

theorem ofMethod_relined (scope : Scope) (method : Ast) :
    ofMethod (scope.relined f) (method.relined f) = ofMethod scope method := by
  rw [ofMethod_eq_describe, ofMethod_eq_describe, Scope.withTypeParameters_relined, describe,
    parameterTypes_relined, resultType?_relined,
    scopeMeaning_relined f _ (erasure_relined f _ maxErasureDepth)]
  rfl

end Descriptor

end Relocate
