import Relocate.Descriptor.Sketch
import Relocate.Mutation.Relocation
import Relocate.Proofs.Descriptor.Erased
import Relocate.Proofs.Tree.Lines

/-!
# Which methods count as overloads

The descriptor that a finding brings along is trusted if its type declares one method of that name.
The methods are counted by a walk over the type that turns back wherever another method, another
type or an anonymous class begins. It does not turn back at the body of an enum constant, so the
methods declared there count with the type's own.
-/

set_option autoImplicit false

namespace Relocate

namespace Place

def depth (p : Place) : Nat := p.above.length

def between (p q : Place) : List Place := q.ancestors.filter fun r => p.depth < r.depth

variable {p q r c : Place}

theorem depth_of_mem_children (h : c ∈ p.children) : c.depth = p.depth + 1 := by
  obtain ⟨n, -, rfl⟩ := List.mem_map.1 h
  rfl

theorem depth_lt_of_mem_ancestors (h : r ∈ p.ancestors) : r.depth < p.depth := by
  have main : ∀ ns : List Wrapped, r ∈ chain ns → r.depth < ns.length := by
    intro ns
    induction ns with
    | nil => exact fun h => absurd h List.not_mem_nil
    | cons n ns ih =>
      intro h
      rcases List.mem_cons.1 h with rfl | h
      · exact Nat.lt_succ_self ns.length
      · exact Nat.lt_succ_of_lt (ih h)
  exact main p.above h

theorem mem_between_iff : r ∈ p.between q ↔ r ∈ q.ancestors ∧ p.depth < r.depth := by
  rw [between, List.mem_filter, decide_eq_true_iff]

theorem mem_between (h : q ∈ p.descendants) :
    r ∈ p.between q ↔ r ∈ p.descendants ∧ r ∈ q.ancestors := by
  rw [mem_between_iff]
  constructor
  · intro ⟨hr, hdepth⟩
    rcases mem_ancestors_cases (mem_preOrder_of_mem_descendants h) hr with habove | ⟨hin, -⟩
    · have := depth_lt_of_mem_ancestors habove
      omega
    · refine ⟨mem_descendants_of_ne hin ?_, hr⟩
      rintro rfl
      exact Nat.lt_irrefl _ hdepth
  · intro ⟨hin, hr⟩
    exact ⟨hr, depth_lt_of_mem_ancestors (mem_ancestors_of_mem_descendants hin)⟩

theorem between_of_mem_children (h : c ∈ p.children) : p.between c = [] := by
  rw [List.eq_nil_iff_forall_not_mem]
  intro r hr
  obtain ⟨habove, hdepth⟩ := mem_between_iff.1 hr
  have := depth_lt_of_mem_ancestors habove
  have := depth_of_mem_children h
  omega

theorem mem_between_of_mem_children (hc : c ∈ p.children) (hq : q ∈ c.descendants) :
    r ∈ p.between q ↔ r = c ∨ r ∈ c.between q := by
  have hqp : q ∈ p.descendants := mem_descendants.2 ⟨c, hc, mem_preOrder_of_mem_descendants hq⟩
  have hcq : c ∈ q.ancestors := mem_ancestors_of_mem_descendants hq
  have hdepth : c.depth = p.depth + 1 := depth_of_mem_children hc
  rw [mem_between_iff, mem_between_iff]
  constructor
  · intro ⟨hr, hbelow⟩
    rcases mem_ancestors_cases (mem_preOrder_of_mem_descendants hq) hr with habove | ⟨hin, -⟩
    · have := depth_lt_of_mem_ancestors habove
      omega
    · by_cases heq : r = c
      · exact Or.inl heq
      · exact Or.inr ⟨hr, depth_lt_of_mem_ancestors
          (mem_ancestors_of_mem_descendants (mem_descendants_of_ne hin heq))⟩
  · rintro (rfl | ⟨hr, hbelow⟩)
    · exact ⟨hcq, by omega⟩
    · exact ⟨hr, by omega⟩

end Place

namespace Relocation

open Relocate.Descriptor

/-- Where a method, a named type or an anonymous class begins. -/
def encloses (q : Place) : Bool :=
  q.kind == "method_declaration" || Kinds.isType q.kind || q.kind == "object_creation_expression"

def isConstantBody (q : Place) : Bool :=
  q.kind == "class_body" && q.parent?.any fun parent => parent.kind == "enum_constant"

def isMethodNamed (name : String) (q : Place) : Bool :=
  q.kind == "method_declaration" && q.ast.name? == some name

/-- A method of this name with nothing in between that encloses it. -/
def isReached (T : Place) (name : String) (q : Place) : Bool :=
  isMethodNamed name q && (T.between q).all fun r => !encloses r

def reachedMethods (T : Place) (name : String) : List Place :=
  T.descendants.filter (isReached T name)

def ownMethods (T : Place) (name : String) : List Place :=
  (reachedMethods T name).filter fun q => !(T.between q).any isConstantBody

def constantMethods (T : Place) (name : String) : List Place :=
  (reachedMethods T name).filter fun q => (T.between q).any isConstantBody

section Own

variable {T q : Place} {name : String}

theorem mem_ownMethods : q ∈ ownMethods T name ↔
    q ∈ T.descendants ∧ q.kind = "method_declaration" ∧ q.ast.name? = some name ∧
      ∀ r ∈ T.descendants, r ∈ q.ancestors → encloses r = false ∧ isConstantBody r = false := by
  simp only [ownMethods, reachedMethods, isReached, isMethodNamed, List.mem_filter,
    Bool.and_eq_true, beq_iff_eq, List.all_eq_true, Bool.not_eq_true', List.any_eq_false,
    Bool.not_eq_true, and_assoc]
  apply and_congr_right
  intro hq
  apply and_congr_right'
  apply and_congr_right'
  simp only [Place.mem_between hq, and_imp]
  constructor
  · intro ⟨hencloses, hconstant⟩ r hr habove
    exact ⟨hencloses r hr habove, hconstant r hr habove⟩
  · intro h
    exact ⟨fun r hr habove => (h r hr habove).1, fun r hr habove => (h r hr habove).2⟩

/-- What is reached through a child is what is reached from it, if it does not enclose that. -/
theorem filter_descendants_of_mem_children {c : Place} (hc : c ∈ T.children) :
    c.descendants.filter (isReached T name) = if encloses c then [] else reachedMethods c name := by
  have hall : ∀ q ∈ c.descendants, ((T.between q).all fun r => !encloses r) =
      (!encloses c && (c.between q).all fun r => !encloses r) := by
    intro q hq
    rw [Bool.eq_iff_iff, Bool.and_eq_true, List.all_eq_true, List.all_eq_true]
    simp only [Place.mem_between_of_mem_children hc hq, forall_eq_or_imp]
  by_cases hencloses : encloses c = true
  · rw [if_pos hencloses, List.filter_eq_nil_iff]
    intro q hq
    simp [isReached, hall q hq, hencloses]
  · rw [if_neg hencloses, reachedMethods]
    apply List.filter_congr
    intro q hq
    simp [isReached, hall q hq, hencloses]

/-- The walk meets each of them once. -/
theorem countMethods_eq_length (T : Place) (name : String) :
    countMethods name T.ast = (reachedMethods T name).length := by
  induction T using Place.childInduction with
  | h T ih =>
    have hchildren : ∀ cs ⊆ T.children, countMethodsAll name (cs.map Place.ast) =
        ((cs.flatMap Place.preOrder).filter (isReached T name)).length := by
      intro cs hcs
      induction cs with
      | nil => rfl
      | cons c cs rest =>
        obtain ⟨hc, hcs⟩ := List.cons_subset.1 hcs
        rw [List.map_cons, countMethodsAll, rest hcs, List.flatMap_cons, List.filter_append,
          List.length_append, Place.preOrder_eq_cons_descendants, List.filter_cons,
          filter_descendants_of_mem_children hc, isReached, Place.between_of_mem_children hc,
          Place.kind_ast]
        congr 1
        -- a method counts itself; what encloses hides what is below; all else hands on its count
        by_cases hmethod : c.kind = "method_declaration"
        · by_cases hname : c.ast.name? = some name <;>
            simp [isMethodNamed, encloses, hmethod, hname]
        · by_cases htype : Kinds.isType c.kind = true ∨ c.kind = "object_creation_expression"
          · simp [isMethodNamed, encloses, hmethod, htype]
          · simp [isMethodNamed, encloses, hmethod, htype, ih c hc]
    have hall := hchildren T.children (List.Subset.refl _)
    rw [← Place.children_ast] at hall
    rw [reachedMethods, Place.descendants, Place.preWalk_eq_flatMap, ← hall]
    cases T.ast
    rfl

theorem length_reachedMethods (T : Place) (name : String) : (reachedMethods T name).length =
    (ownMethods T name).length + (constantMethods T name).length := by
  rw [Nat.add_comm, ownMethods, constantMethods, ← List.length_eq_length_filter_add]

end Own

/-- A type is taken to declare its own methods and those in the bodies of its enum constants. Where
there are none of the latter, it keeps a finding's descriptor from being trusted exactly if it does
not declare one method of that name itself. -/
theorem countMethods_counts_own (T : Place) (name : String) :
    (∀ q, q ∈ ownMethods T name ↔
      q ∈ T.descendants ∧ q.kind = "method_declaration" ∧ q.ast.name? = some name ∧
        ∀ r ∈ T.descendants, r ∈ q.ancestors → encloses r = false ∧ isConstantBody r = false) ∧
    countMethods name T.ast = (ownMethods T name).length + (constantMethods T name).length ∧
    (constantMethods T name = [] →
      countMethods name T.ast = (ownMethods T name).length ∧
      ∀ f : Finding, f.mutatedMethod = name →
        (ownDescriptor? f name T.ast = none ↔ (ownMethods T name).length ≠ 1)) := by
  have hcount : countMethods name T.ast =
      (ownMethods T name).length + (constantMethods T name).length := by
    rw [countMethods_eq_length, length_reachedMethods]
  refine ⟨fun q => mem_ownMethods, hcount, ?_⟩
  intro hnone
  rw [hnone, List.length_nil, Nat.add_zero] at hcount
  refine ⟨hcount, ?_⟩
  intro f hname
  simp [ownDescriptor?, hname, hcount]

namespace Overloads

def tasks : Ast :=
  Sketch.type "class" "Tasks" 2 []
    [Sketch.method "method" "run" 3 [] "Value",
      .node ⟨⟨"field_declaration", none⟩, none, 4⟩
        [.node ⟨⟨"object_creation_expression", none⟩, none, 4⟩
          [.node ⟨⟨"class_body", none⟩, none, 4⟩ [Sketch.method "method" "run" 5 [] "Value"]]]]

def operations : Ast :=
  Sketch.type "enum" "Op" 2 []
    [.node ⟨⟨"enum_constant", none⟩, none, 3⟩
        [Sketch.named 3 "ADD",
          .node ⟨⟨"class_body", none⟩, some "body", 3⟩ [Sketch.method "method" "run" 4 [] "Value"]],
      .node ⟨⟨"enum_body_declarations", none⟩, none, 5⟩ [Sketch.method "method" "run" 6 [] "Value"]]

def place (type : Ast) : Place := Place.root (Rose.wrap Mix.standard type)

def mutated (mutatedClass : String) (line : Nat) : Finding :=
  { mutatedClass, line, mutatedMethod := "run", descriptor := "(Lother/Value;)V" }

def file (type : Ast) : SourceFile := ⟨Sketch.file "demo" [type], ""⟩

end Overloads

open Overloads in
theorem countMethods_counts_own_anonymous :
    constantMethods (place tasks) "run" = [] ∧ (ownMethods (place tasks) "run").length = 1 ∧
      countMethods "run" tasks = 1 ∧
      ownDescriptor? (mutated "demo.Tasks" 3) "run" tasks ≠ none := by
  have hast : (place tasks).ast = tasks := Rose.ast_wrap _ _
  have hnone : constantMethods (place tasks) "run" = [] :=
    List.isEmpty_iff.1 (by decide +kernel)
  have hone : (ownMethods (place tasks) "run").length = 1 := by decide +kernel
  obtain ⟨hcount, htrusted⟩ := (countMethods_counts_own (place tasks) "run").2.2 hnone
  rw [hast, hone] at hcount
  refine ⟨hnone, hone, hcount, ?_⟩
  rw [← hast, Ne, htrusted (mutated "demo.Tasks" 3) rfl, hone]
  exact fun h => h rfl

open Overloads in
/-- The method in the body of a constant counts as an overload, and the finding in the only method
that the enum declares goes nowhere. -/
theorem countMethods_ne_own_constant :
    (ownMethods (place operations) "run").length = 1 ∧ countMethods "run" operations = 2 ∧
      ownDescriptor? (mutated "demo.Op" 6) "run" operations = none ∧
      ofFinding? {} (file operations) (file operations) [] (mutated "demo.Op" 6) = none := by
  refine ⟨?_, ?_, ?_, ?_⟩ <;> decide +kernel

end Relocation

end Relocate
