import Relocate.Descriptor.Sketch
import Relocate.Proofs.Descriptor.Bounds
import Relocate.Proofs.Descriptor.Dimensions
import Relocate.Proofs.Descriptor.Names
import Relocate.Source.Tree

/-!
# Descriptors follow the grammar

What is computed for a method is a method descriptor: one field descriptor for each parameter, in
order, with a bracket for each dimension, and behind them that of the result. This takes proper
names throughout the file, and `void` nowhere but as the type of a method. There is no descriptor
exactly if one of its types is missing or has none.
-/

set_option autoImplicit false

namespace Relocate.Descriptor

open Scope

/-! ## Types -/

def Core.IsField : Core → Prop
  | .primitive text => text ≠ "void"
  | .simple name => IsDotted name
  | .dotted name => IsDotted name

instance : DecidablePred Core.IsField
  | .primitive text => inferInstanceAs (Decidable (text ≠ "void"))
  | .simple name => inferInstanceAs (Decidable (IsDotted name))
  | .dotted name => inferInstanceAs (Decidable (IsDotted name))

def IsFieldType (t : Ast) : Prop := ∀ n ∈ t.preOrder, ∀ core ∈ core? n, core.IsField

instance (t : Ast) : Decidable (IsFieldType t) :=
  inferInstanceAs (Decidable (∀ n ∈ t.preOrder, ∀ core ∈ core? n, core.IsField))

/-- A scope in which names stand for classes and type variables for types of fields. -/
structure Sound (scope : Scope) : Prop where
  resolve : ∀ name binary, IsDotted name → scope.resolve? name = some binary →
    IsInternal binary.toList
  bounds : ∀ v ∈ scope.typeVariables, ∀ bound ∈ v.2, IsFieldType bound

section Types

variable {scope : Scope} {t : Ast} {d : String}

theorem exists_base {text : String} (htext : text ≠ "void") (h : primitive? text = some d) :
    ∃ b : BaseType, d.toList = [b.letter] := by
  unfold primitive? at h
  split at h
  case h_9 => exact absurd rfl htext
  case h_10 => cases h
  all_goals cases h
  · exact ⟨.int, rfl⟩
  · exact ⟨.long, rfl⟩
  · exact ⟨.short, rfl⟩
  · exact ⟨.byte, rfl⟩
  · exact ⟨.char, rfl⟩
  · exact ⟨.float, rfl⟩
  · exact ⟨.double, rfl⟩
  · exact ⟨.boolean, rfl⟩

theorem toList_ofBinaryName {binary : String} (h : IsInternal binary.toList) :
    (ofBinaryName binary).toList = (FieldType.object ⟨binary, h⟩).chars := by
  simp only [ofBinaryName, String.toList_append, FieldType.chars]
  rfl

theorem toList_objectType : ∃ name, objectType.toList = (FieldType.object name).chars :=
  ⟨⟨"java/lang/Object", by decide⟩, rfl⟩

theorem exists_fieldType_of_core (hscope : Sound scope) {erase : Option Ast → Option String}
    (herase : ∀ v ∈ scope.typeVariables, ∀ d, erase v.2 = some d →
      ∃ u : FieldType, d.toList = u.chars)
    {core : Core} (hcore : core.IsField) (h : scopeMeaning scope erase core = some d) :
    ∃ u : FieldType, d.toList = u.chars ∧
      ((∀ name, core = .simple name → scope.typeVariables.lookup name = none) →
        u.dimensions = 0) := by
  have hnamed : ∀ name, IsDotted name → (scope.resolve? name).map ofBinaryName = some d →
      ∃ u : FieldType, d.toList = u.chars ∧ u.dimensions = 0 := by
    intro name hname hd
    obtain ⟨binary, hbinary, rfl⟩ := Option.map_eq_some_iff.1 hd
    have hinternal := hscope.resolve name binary hname hbinary
    exact ⟨.object ⟨binary, hinternal⟩, toList_ofBinaryName hinternal, rfl⟩
  cases core with
  | primitive text =>
    obtain ⟨b, hb⟩ := exists_base hcore h
    exact ⟨.base b, hb, fun _ => rfl⟩
  | simple name =>
    rw [scopeMeaning, meaning] at h
    split at h
    · rename_i bound hlookup
      obtain ⟨u, hu⟩ := herase (name, bound) (mem_of_lookup_eq_some hlookup) d h
      refine ⟨u, hu, ?_⟩
      intro hnone
      exact absurd (hnone name rfl) (by rw [hlookup]; simp)
    · obtain ⟨u, hu, hzero⟩ := hnamed name hcore h
      exact ⟨u, hu, fun _ => hzero⟩
  | dotted name =>
    obtain ⟨u, hu, hzero⟩ := hnamed name hcore h
    exact ⟨u, hu, fun _ => hzero⟩

theorem ofTypeWith_of_primitive {text : String} (h : core? t = some (.primitive text))
    (erase : Option Ast → Option String) : ofTypeWith scope erase t = primitive? text := by
  rw [core?] at h
  split at h
  case h_5 => cases h
  case h_6 => cases h
  case h_7 => cases h
  all_goals
    rename_i hkind
    cases h
    rw [ofTypeWith_eq]
    simp only [hkind]

theorem exists_fieldType_of_ofTypeWith (hscope : Sound scope) {erase : Option Ast → Option String}
    (herase : ∀ v ∈ scope.typeVariables, ∀ d, erase v.2 = some d →
      ∃ u : FieldType, d.toList = u.chars)
    (ht : IsFieldType t) (h : ofTypeWith scope erase t = some d) :
    ∃ u : FieldType, d.toList = u.chars ∧ (Closed scope t → u.dimensions = arrayDepth t) := by
  rw [ofTypeWith_eq_erased] at h
  obtain ⟨e, he, hd⟩ := Option.bind_eq_some_iff.1 h
  obtain ⟨core, hcore, rfl⟩ := Option.map_eq_some_iff.1 hd
  obtain ⟨n, hn, hwritten⟩ := exists_core_of_erased? he
  obtain ⟨u, hu, hzero⟩ :=
    exists_fieldType_of_core hscope herase (ht n hn e.core hwritten) hcore
  refine ⟨.arrays (arrayDepth t) u, ?_, ?_⟩
  · rw [String.toList_append, toList_brackets he, hu, FieldType.chars_arrays]
  · intro hclosed
    rw [FieldType.dimensions_arrays, hzero fun name => lookup_of_closed hclosed he, Nat.add_zero]

theorem exists_fieldType_of_erasure (hscope : Sound scope) (hops : Nat) {bound : Option Ast}
    (hbound : ∀ t ∈ bound, IsFieldType t) (h : erasure scope hops bound = some d) :
    ∃ u : FieldType, d.toList = u.chars := by
  induction hops generalizing bound d with
  | zero =>
    obtain ⟨name, hname⟩ := toList_objectType
    cases bound <;> cases h <;> exact ⟨.object name, hname⟩
  | succ hops ih =>
    cases bound with
    | none =>
      obtain ⟨name, hname⟩ := toList_objectType
      cases h
      exact ⟨.object name, hname⟩
    | some bound =>
      obtain ⟨u, hu, -⟩ := exists_fieldType_of_ofTypeWith hscope
        (fun v hv d => ih (hscope.bounds v hv)) (hbound bound rfl) h
      exact ⟨u, hu⟩

theorem exists_fieldType (hscope : Sound scope) (ht : IsFieldType t) (h : ofType scope t = some d) :
    ∃ u : FieldType, d.toList = u.chars ∧ (Closed scope t → u.dimensions = arrayDepth t) :=
  exists_fieldType_of_ofTypeWith hscope
    (fun v hv _ => exists_fieldType_of_erasure hscope maxErasureDepth (hscope.bounds v hv)) ht h

end Types

/-! ## Methods -/

def isParameter (p : Ast) : Bool := p.kind == "formal_parameter" || p.kind == "spread_parameter"

def parameterNodes (method : Ast) : List Ast :=
  match method.childByField? "parameters" with
  | some params => params.children.filter isParameter
  | none => []

def writtenType? (p : Ast) : Option Ast :=
  if p.kind == "spread_parameter" then p.children.find? fun c => Kinds.isTypeUse c.kind
  else p.childByField? "type"

def ownDimensions (p : Ast) : Nat :=
  if p.kind == "spread_parameter" then 1 else pairs (p.childByField? "dimensions")

/-- So many dimensions are written next to the name of a parameter, or one stands for a variable
number of arguments, next to whose name the language has none. -/
inductive OwnDimensions (p : Ast) : Nat → Prop where
  | formal {n : Nat} : p.kind = "formal_parameter" → DimensionsOf (p.childByField? "dimensions") n →
      OwnDimensions p n
  | spread : p.kind = "spread_parameter" →
      (∀ c ∈ p.children, c.kind = "variable_declarator" → c.childByField? "dimensions" = none) →
      OwnDimensions p 1

theorem OwnDimensions.eq_ownDimensions {p : Ast} {n : Nat} (h : OwnDimensions p n) :
    n = ownDimensions p := by
  cases h with
  | formal hkind h => simp [ownDimensions, hkind, h.eq_pairs]
  | spread hkind _ => simp [ownDimensions, hkind]

def ofParameter (scope : Scope) (p : Ast) : Option String :=
  (writtenType? p).bind fun t => (ofType scope t).map (opening (ownDimensions p) ++ ·)

theorem parameter?_eq_ite (scope : Scope) (p : Ast) :
    parameter? scope p = if isParameter p then some (ofParameter scope p) else none := by
  unfold parameter?
  split
  · rename_i hkind
    simp [isParameter, ofParameter, writtenType?, ownDimensions, arrayPart_eq, hkind]
  · rename_i hkind
    simp [isParameter, ofParameter, writtenType?, ownDimensions, opening, hkind]
  · rename_i hformal hspread
    have hparameter : isParameter p = false := by
      rw [isParameter, Bool.or_eq_false_iff, beq_eq_false_iff_ne, beq_eq_false_iff_ne]
      exact ⟨hformal, hspread⟩
    rw [hparameter]
    rfl

theorem parameters_eq_allOf (scope : Scope) (method : Ast) :
    parameters scope method = allOf ((parameterNodes method).map (ofParameter scope)) := by
  rw [parameters, parameterNodes]
  cases method.childByField? "parameters" with
  | none => rfl
  | some params =>
    simp only [← List.filterMap_eq_map, List.filterMap_filter, Function.comp_def]
    rw [show parameter? scope = _ from funext (parameter?_eq_ite scope)]

theorem allOf_eq_none_iff {l : List (Option String)} : allOf l = none ↔ none ∈ l := by
  induction l with
  | nil => simp [allOf]
  | cons o l ih =>
    cases o with
    | none => simp [allOf]
    | some d => simp [allOf, ih]

theorem bind_ofType_map_eq_none_iff {scope : Scope} {t : Option Ast} {brackets : String} :
    (t.bind fun t => (ofType scope t).map (brackets ++ ·)) = none ↔
      t.bind (ofType scope) = none := by
  cases t with
  | none => exact Iff.rfl
  | some t => exact Option.map_eq_none_iff

theorem ofMethod_eq_none_iff {scope : Scope} {method : Ast} : ofMethod scope method = none ↔
    (∃ p ∈ parameterNodes method,
      (writtenType? p).bind (ofType (scope.withTypeParameters method)) = none) ∨
    method.kind ≠ "constructor_declaration" ∧
      (method.childByField? "type").bind (ofType (scope.withTypeParameters method)) = none := by
  have hparts : ofMethod scope method = none ↔
      parameters (scope.withTypeParameters method) method = none ∨
        result (scope.withTypeParameters method) method = none := by
    simp only [ofMethod]
    cases parameters (scope.withTypeParameters method) method with
    | none => simp
    | some ps => cases result (scope.withTypeParameters method) method <;> simp
  rw [hparts, parameters_eq_allOf, allOf_eq_none_iff, List.mem_map]
  apply or_congr
  · apply exists_congr
    intro p
    exact and_congr_right fun _ => bind_ofType_map_eq_none_iff
  · rw [result]
    by_cases hkind : method.kind = "constructor_declaration"
    · simp [hkind]
    · rw [if_neg (by simpa using hkind), bind_ofType_map_eq_none_iff]
      exact (and_iff_right hkind).symm

/-- What the declarations write are types of fields; only what the method itself returns may be
`void`, without any dimensions. -/
structure WellTyped (declarations : List Ast) (method : Ast) : Prop where
  parameters : ∀ p ∈ parameterNodes method, ∀ t ∈ writtenType? p, IsFieldType t
  result : method.kind ≠ "constructor_declaration" → ∀ t ∈ method.childByField? "type",
    IsFieldType t ∨
      core? t = some (.primitive "void") ∧ pairs (method.childByField? "dimensions") = 0
  bounds : ∀ d ∈ method :: declarations, ∀ v ∈ typeParameters d, ∀ bound ∈ v.2, IsFieldType bound

/-- The dimensions of a parameter are those written at its name and in its type, and one more for a
variable number of arguments. Nothing is said of types with type variables, nor where what is
written cannot be counted in the text: between annotations, and next to a comment with a bracket. -/
def HasDimensions (scope : Scope) (p : Ast) (u : FieldType) : Prop :=
  ∀ t ∈ writtenType? p, Closed scope t → ∀ own inner, OwnDimensions p own →
    TypeDimensions t inner → u.dimensions = own + inner

section Method

variable {root method : Ast} {declarations : List Ast} {scope : Scope}

theorem sound_withTypeParameters (hroot : WellNamed root)
    (hmethod : WellTyped declarations method) :
    Sound ((declarations.foldl withTypeParameters (ofRoot root)).withTypeParameters method) := by
  rw [foldl_withTypeParameters, withTypeParameters_eq]
  constructor
  · intro name binary hname hbinary
    exact internal_of_resolve? hroot hname hbinary
  · intro v hv
    simp only [List.mem_append, List.mem_flatMap, List.mem_reverse] at hv
    rcases hv with hv | ⟨d, hd, hv⟩ | hv
    · exact hmethod.bounds method List.mem_cons_self v hv
    · exact hmethod.bounds d (List.mem_cons_of_mem _ hd) v hv
    · cases hv

theorem exists_fieldType_of_ofParameter (hscope : Sound scope) {p : Ast}
    (hp : ∀ t ∈ writtenType? p, IsFieldType t) {part : String}
    (h : ofParameter scope p = some part) :
    ∃ u : FieldType, part.toList = u.chars ∧ HasDimensions scope p u := by
  obtain ⟨t, ht, hpart⟩ := Option.bind_eq_some_iff.1 h
  obtain ⟨d, hd, rfl⟩ := Option.map_eq_some_iff.1 hpart
  obtain ⟨u, hu, hdepth⟩ := exists_fieldType hscope (hp t ht) hd
  refine ⟨.arrays (ownDimensions p) u, ?_, ?_⟩
  · rw [String.toList_append, opening, String.toList_ofList, hu, FieldType.chars_arrays]
  · intro t' ht' hclosed own inner hown hinner
    cases ht.symm.trans ht'
    rw [FieldType.dimensions_arrays, hdepth hclosed, hown.eq_ownDimensions, hinner.eq_arrayDepth]

theorem exists_fieldTypes (hscope : Sound scope) {ps : List Ast}
    (hps : ∀ p ∈ ps, ∀ t ∈ writtenType? p, IsFieldType t) {parts : List String}
    (h : ps.map (ofParameter scope) = parts.map some) :
    ∃ us : List FieldType, (String.join parts).toList = us.flatMap FieldType.chars ∧
      List.Forall₂ (HasDimensions scope) ps us := by
  induction ps generalizing parts with
  | nil =>
    cases parts with
    | nil => exact ⟨[], rfl, .nil⟩
    | cons part parts => cases h
  | cons p ps ih =>
    cases parts with
    | nil => cases h
    | cons part parts =>
      rw [List.map_cons, List.map_cons, List.cons.injEq] at h
      obtain ⟨hp, hps⟩ := List.forall_mem_cons.1 hps
      obtain ⟨u, hu, hdimensions⟩ := exists_fieldType_of_ofParameter hscope hp h.1
      obtain ⟨us, hus, hall⟩ := ih hps h.2
      refine ⟨u :: us, ?_, .cons hdimensions hall⟩
      rw [String.join_cons, String.toList_append, hu, hus, List.flatMap_cons]

theorem exists_result (hscope : Sound scope) (hmethod : WellTyped declarations method) {r : String}
    (h : result scope method = some r) :
    ∃ u : Option FieldType, r.toList = MethodType.resultChars u := by
  rw [result] at h
  split at h
  · cases h
    exact ⟨none, rfl⟩
  · rename_i hkind
    obtain ⟨t, ht, hr⟩ := Option.bind_eq_some_iff.1 h
    obtain ⟨d, hd, rfl⟩ := Option.map_eq_some_iff.1 hr
    rcases hmethod.result (by simpa using hkind) t ht with hfield | ⟨hvoid, hnone⟩
    · obtain ⟨u, hu, -⟩ := exists_fieldType hscope hfield hd
      refine ⟨some (.arrays (pairs (method.childByField? "dimensions")) u), ?_⟩
      rw [String.toList_append, arrayPart_eq, opening, String.toList_ofList, hu,
        MethodType.resultChars, FieldType.chars_arrays]
    · have hV : some "V" = some d := (ofTypeWith_of_primitive hvoid _).symm.trans hd
      cases hV
      refine ⟨none, ?_⟩
      rw [arrayPart_eq, hnone]
      rfl

/-- In a file with proper names and types a descriptor is that of exactly one type of methods, with
a type for each parameter, in order, that has the dimensions of the parameter. -/
theorem ofMethod_derivable (hroot : WellNamed root) (hmethod : WellTyped declarations method) :
    let scope := declarations.foldl withTypeParameters (ofRoot root)
    (∀ d, ofMethod scope method = some d → ∃ m : MethodType, m.text = d ∧
      (∀ m' : MethodType, m'.text = d → m' = m) ∧
      List.Forall₂ (HasDimensions (scope.withTypeParameters method)) (parameterNodes method)
        m.parameters) ∧
    (ofMethod scope method = none ↔
      (∃ p ∈ parameterNodes method,
        (writtenType? p).bind (ofType (scope.withTypeParameters method)) = none) ∨
      method.kind ≠ "constructor_declaration" ∧
        (method.childByField? "type").bind (ofType (scope.withTypeParameters method)) = none) := by
  intro scope
  refine ⟨?_, ofMethod_eq_none_iff⟩
  intro d hd
  have hscope := sound_withTypeParameters hroot hmethod
  have hparts : ∃ ps r, parameters (scope.withTypeParameters method) method = some ps ∧
      result (scope.withTypeParameters method) method = some r ∧ "(" ++ ps ++ ")" ++ r = d := by
    simp only [ofMethod] at hd
    split at hd
    · rename_i ps r hps hr
      exact ⟨ps, r, hps, hr, Option.some.inj hd⟩
    · cases hd
  obtain ⟨ps, r, hps, hr, rfl⟩ := hparts
  rw [parameters_eq_allOf, allOf_eq_some_iff] at hps
  obtain ⟨parts, hparts, rfl⟩ := hps
  obtain ⟨us, hus, hall⟩ := exists_fieldTypes hscope hmethod.parameters hparts
  obtain ⟨u, hu⟩ := exists_result hscope hmethod hr
  have htext : (MethodType.mk us u).text = "(" ++ String.join parts ++ ")" ++ r := by
    apply String.toList_injective
    rw [MethodType.text, String.toList_ofList, MethodType.chars]
    simp only [String.toList_append, hus, hu, List.append_assoc]
    rfl
  refine ⟨⟨us, u⟩, htext, ?_, hall⟩
  intro m' hm'
  exact MethodType.text_injective (hm'.trans htext.symm)

end Method

namespace Boxes

def leaf (kind text : String) (field : Option String) : Ast :=
  .node ⟨⟨kind, some text⟩, field, 3⟩ []

def brackets : Ast := leaf "dimensions" "[]" (some "dimensions")

def array (element dimensions : Ast) : Ast :=
  .node ⟨⟨"array_type", none⟩, some "type", 3⟩ [element, dimensions]

def parameter (kind : String) (parts : List Ast) : Ast := .node ⟨⟨kind, none⟩, none, 3⟩ parts

def method (type : Ast) (parameters : List Ast) : Ast :=
  .node ⟨⟨"method_declaration", none⟩, none, 3⟩
    [type, Sketch.named 3 "fill",
      .node ⟨⟨"formal_parameters", none⟩, some "parameters", 3⟩ parameters]

def strings : Ast := array (leaf "type_identifier" "String" (some "element")) brackets

def names : Ast := parameter "formal_parameter" [strings, Sketch.named 3 "names", brackets]

def fill : Ast :=
  method (array (leaf "integral_type" "int" (some "element")) brackets)
    [names,
     parameter "formal_parameter" [leaf "type_identifier" "T" (some "type"), Sketch.named 3 "it"],
     parameter "spread_parameter" [leaf "scoped_type_identifier" "Map.Entry" none]]

def box : Ast := Sketch.type "class" "Box" 2 [("T", "Number")] [fill]

def file : Ast :=
  .node ⟨⟨"program", none⟩, none, 1⟩
    [parameter "package_declaration" [leaf "identifier" "demo" none],
     parameter "import_declaration" [leaf "scoped_identifier" "java.util.Map" none], box]

theorem dimensionsOf_brackets : DimensionsOf (some brackets) 1 :=
  .some Nat.one_pos (.pair .nil .nil (.done .nil))

theorem typeDimensions_strings : TypeDimensions strings 1 :=
  .array (n := 1) (m := 0) rfl rfl dimensionsOf_brackets (.other (by decide) (by decide))

end Boxes

open Boxes in
theorem ofMethod_derivable_boxes : ∃ m : MethodType,
    m.text = "([[Ljava/lang/String;Ljava/lang/Number;[Ljava/util/Map$Entry;)[I" ∧
      m.parameters.length = 3 ∧ ∀ u ∈ m.parameters.head?, u.dimensions = 2 := by
  have hroot : WellNamed file :=
    ⟨by decide +kernel, by decide +kernel, by decide +kernel, by decide +kernel⟩
  have hmethod : WellTyped [box] fill := ⟨by decide +kernel, by decide +kernel, by decide +kernel⟩
  obtain ⟨m, htext, -, hall⟩ := (ofMethod_derivable hroot hmethod).1
    "([[Ljava/lang/String;Ljava/lang/Number;[Ljava/util/Map$Entry;)[I" (by decide +kernel)
  refine ⟨m, htext, ?_, ?_⟩
  · rw [← hall.length_eq]
    decide +kernel
  · have hnodes : ∃ rest, parameterNodes fill = names :: rest := ⟨_, rfl⟩
    obtain ⟨rest, hnodes⟩ := hnodes
    rw [hnodes] at hall
    obtain ⟨u, us, hu, -, heq⟩ := List.forall₂_cons_left_iff.1 hall
    rw [heq]
    intro v hv
    cases hv
    exact hu strings rfl (by decide +kernel) 1 1 (.formal rfl dimensionsOf_brackets)
      typeDimensions_strings

namespace Boxes

open Source (Concrete) in
/-- What is written as `@A []`, an annotation in front of a pair of brackets. -/
def annotated : Concrete :=
  .node ⟨"dimensions", true, false, some "dimensions", ⟨3, 0, 5⟩⟩
    [.node ⟨"marker_annotation", true, false, none, ⟨3, 0, 2⟩⟩
      [Concrete.token "@" ⟨3, 0, 1⟩,
        Concrete.withField "name" (Concrete.leaf "identifier" ⟨3, 1, 2⟩)],
     Concrete.token "[" ⟨3, 3, 4⟩, Concrete.token "]" ⟨3, 4, 5⟩]

def rank : Ast :=
  method (leaf "void_type" "void" (some "type"))
    [parameter "formal_parameter"
      [array (leaf "type_identifier" "String" (some "element"))
        (Source.Concrete.toAst "@A []".toList.toArray annotated), Sketch.named 3 "names"]]

def ranking : Ast := Sketch.file "demo" [Sketch.type "class" "Box" 2 [] [rank]]

end Boxes

open Boxes in
/-- Of dimensions with an annotation none is counted, for their node has no text. -/
theorem ofMethod_drops_annotated_dimensions :
    (annotated.children.filter fun c => c.label.kind = "[").length = 1 ∧
      WellNamed ranking ∧ WellTyped [] rank ∧
      ofMethod (ofRoot ranking) rank = some "(Ljava/lang/String;)V" ∧
      ∀ m : MethodType, m.text = "(Ljava/lang/String;)V" →
        m.parameters.map FieldType.dimensions = [0] := by
  have hnames : WellNamed ranking :=
    ⟨by decide +kernel, by decide +kernel, by decide +kernel, by decide +kernel⟩
  have htypes : WellTyped [] rank := ⟨by decide +kernel, by decide +kernel, by decide +kernel⟩
  refine ⟨by decide, hnames, htypes, by decide +kernel, ?_⟩
  intro m hm
  have heq : m = ⟨[.object ⟨"java/lang/String", by decide⟩], none⟩ := MethodType.text_injective hm
  rw [heq]
  rfl

end Relocate.Descriptor
