import Mathlib.Data.Prod.Lex
import Relocate.Proofs.Descriptor.Erased
import Relocate.Proofs.Tree.Lines

/-!
# Bounds of type variables, followed one after the other

To describe a type is to go down into it, and at a type variable to leave the tree for the bound of
the variable, wherever that stands. This ends in every scope, also where variables are bounded by
each other: only so many bounds are followed, and between two of them the types get smaller. A chain
of variables that ends in time stands for the type at its end, and any other chain for `Object`.
-/

set_option autoImplicit false

namespace Relocate.Descriptor

/-! ## Where the core of a type is written -/

def core? (t : Ast) : Option Core :=
  match t.kind with
  | "integral_type" | "floating_point_type" | "boolean_type" | "void_type" =>
    some (.primitive t.text)
  | "type_identifier" => some (.simple t.text)
  | "scoped_type_identifier" => some (.dotted t.text)
  | _ => none

theorem exists_core_of_erased? {t : Ast} {e : Erased} (h : erased? t = some e) :
    ∃ n ∈ t.preOrder, core? n = some e.core := by
  generalize hsize : t.size = size
  induction size using Nat.strongRecOn generalizing t e with
  | ind size ih =>
    have hchild : ∀ c ∈ t.children, ∀ e, erased? c = some e →
        ∃ n ∈ t.preOrder, core? n = some e.core := by
      intro c hc e he
      obtain ⟨n, hn, hcore⟩ := ih c.size (hsize ▸ t.size_lt_of_mem_children hc) he rfl
      exact ⟨n, Rose.mem_preOrder_of_mem_children hc hn, hcore⟩
    rw [erased?_eq] at h
    split at h
    -- the three kinds of types with another type inside, then all that are no types
    case h_7 =>
      obtain ⟨raw, hraw, he⟩ := Option.bind_eq_some_iff.1 h
      exact hchild raw (List.mem_of_find?_eq_some hraw) e he
    case h_8 =>
      obtain ⟨element, helement, hmap⟩ := Option.bind_eq_some_iff.1 h
      obtain ⟨inner, hinner, rfl⟩ := Option.map_eq_some_iff.1 hmap
      exact hchild element (Rose.mem_children_of_childByField? helement) inner hinner
    case h_9 =>
      obtain ⟨inner, hinner, he⟩ := Option.bind_eq_some_iff.1 h
      exact hchild inner (List.mem_reverse.1 (List.mem_of_find?_eq_some hinner)) e he
    case h_10 => cases h
    all_goals
      rename_i hkind
      cases h
      exact ⟨t, Rose.mem_preOrder_self t, by simp only [core?, hkind]⟩

def asVariable? (scope : Scope) (t : Ast) : Option (Option Ast) :=
  if t.kind = "type_identifier" then scope.typeVariables.lookup t.text else none

def Closed (scope : Scope) (t : Ast) : Prop := ∀ n ∈ t.preOrder, asVariable? scope n = none

instance (scope : Scope) (t : Ast) : Decidable (Closed scope t) :=
  inferInstanceAs (Decidable (∀ n ∈ t.preOrder, asVariable? scope n = none))

theorem lookup_of_closed {scope : Scope} {t : Ast} (h : Closed scope t) {e : Erased}
    (he : erased? t = some e) {name : String} (hcore : e.core = .simple name) :
    scope.typeVariables.lookup name = none := by
  obtain ⟨n, hn, hwritten⟩ := exists_core_of_erased? he
  have hvariable := h n hn
  rw [hcore, core?] at hwritten
  split at hwritten
  case h_5 hkind =>
    cases hwritten
    rwa [asVariable?, if_pos hkind] at hvariable
  all_goals cases hwritten

theorem ofTypeWith_of_closed {scope : Scope} {t : Ast} (h : Closed scope t)
    (erase erase' : Option Ast → Option String) :
    ofTypeWith scope erase t = ofTypeWith scope erase' t := by
  rw [ofTypeWith_eq_erased, ofTypeWith_eq_erased]
  cases herased : erased? t with
  | none => rfl
  | some e =>
    have hmeaning : scopeMeaning scope erase e.core = scopeMeaning scope erase' e.core := by
      cases hcore : e.core with
      | primitive text => rfl
      | dotted name => rfl
      | simple name =>
        simp only [scopeMeaning, meaning, lookup_of_closed h herased hcore]
    rw [Option.bind_some, Option.bind_some, Erased.descriptor, Erased.descriptor, hmeaning]

theorem erasure_none (scope : Scope) (hops : Nat) : erasure scope hops none = some objectType := by
  cases hops <;> rfl

/-! ## From one type to the next -/

/-- A type that is to be described, and how many bounds have been followed on the way to it. -/
structure Visit where
  followed : Nat
  type : Ast

namespace Visit

def next? (scope : Scope) (v : Visit) : Option Visit :=
  match v.type.kind with
  | "type_identifier" =>
    match scope.typeVariables.lookup v.type.text with
    | some (some bound) =>
      if v.followed < maxErasureDepth then some ⟨v.followed + 1, bound⟩ else none
    | _ => none
  | "generic_type" => (v.type.children.find? isRawType).map (mk v.followed)
  | "array_type" => (v.type.childByField? "element").map (mk v.followed)
  | "annotated_type" =>
    (v.type.children.reverse.find? fun c => Kinds.isTypeUse c.kind).map (mk v.followed)
  | _ => none

def direct (scope : Scope) (v : Visit) : Option String :=
  match v.type.kind with
  | "integral_type" | "floating_point_type" | "boolean_type" | "void_type" => primitive? v.type.text
  | "type_identifier" =>
    match scope.typeVariables.lookup v.type.text with
    | some _ => some objectType
    | none => (scope.resolve? v.type.text).map ofBinaryName
  | "scoped_type_identifier" => (scope.resolve? v.type.text).map ofBinaryName
  | _ => none

def brackets (v : Visit) : String :=
  if v.type.kind = "array_type" then arrayPart (v.type.childByField? "dimensions") else ""

def descriptor (scope : Scope) (v : Visit) : Option String :=
  ofTypeWith scope (erasure scope (maxErasureDepth - v.followed)) v.type

/-- Bounds left, then sizes, get smaller from visit to visit. -/
theorem lex_of_next? {scope : Scope} {v w : Visit} (h : v.next? scope = some w) :
    Prod.Lex (· < ·) (· < ·) (maxErasureDepth - w.followed, w.type.size)
      (maxErasureDepth - v.followed, v.type.size) := by
  have hinside : ∀ {c : Option Ast}, (∀ t ∈ c, t ∈ v.type.children) →
      c.map (mk v.followed) = some w →
      Prod.Lex (· < ·) (· < ·) (maxErasureDepth - w.followed, w.type.size)
        (maxErasureDepth - v.followed, v.type.size) := by
    intro c hc hw
    obtain ⟨t, ht, rfl⟩ := Option.map_eq_some_iff.1 hw
    exact Prod.Lex.right _ (v.type.size_lt_of_mem_children (hc t ht))
  rw [next?] at h
  split at h
  · split at h
    · split at h
      · cases h
        apply Prod.Lex.left
        simp only
        omega
      · cases h
    · cases h
  · exact hinside (fun t ht => List.mem_of_find?_eq_some ht) h
  · exact hinside (fun t ht => Rose.mem_children_of_childByField? ht) h
  · exact hinside (fun t ht => List.mem_reverse.1 (List.mem_of_find?_eq_some ht)) h
  · cases h

theorem wellFounded_next (scope : Scope) :
    WellFounded fun w v : Visit => v.next? scope = some w := by
  apply Subrelation.wf (r := InvImage (Prod.Lex (· < ·) (· < ·)) fun v : Visit =>
    (maxErasureDepth - v.followed, v.type.size)) lex_of_next?
  exact InvImage.wf _ (WellFounded.prod_lex Nat.lt_wfRel.wf Nat.lt_wfRel.wf)

/-- The descriptor of a type is that of the next one behind its brackets, if there is a next one. -/
theorem descriptor_eq (scope : Scope) (v : Visit) : v.descriptor scope =
    match v.next? scope with
    | some w => (w.descriptor scope).map (v.brackets ++ ·)
    | none => v.direct scope := by
  have hinside : ∀ c : Option Ast, v.brackets = "" →
      c.bind (ofTypeWith scope (erasure scope (maxErasureDepth - v.followed))) =
        match c.map (mk v.followed) with
        | some w => (w.descriptor scope).map (v.brackets ++ ·)
        | none => none := by
    intro c hbrackets
    rw [hbrackets]
    cases c with
    | none => rfl
    | some t => simp only [Option.bind_some, Option.map_some, descriptor, String.empty_append,
        Option.map_id']
  rw [descriptor, ofTypeWith_eq]
  split
  case h_5 hkind =>
    simp only [next?, direct, hkind]
    cases hlookup : scope.typeVariables.lookup v.type.text with
    | none => rfl
    | some bound =>
      cases bound with
      | none => exact erasure_none scope _
      | some bound =>
        by_cases hleft : v.followed < maxErasureDepth
        · have hbrackets : v.brackets = "" := by rw [brackets, if_neg (by simp [hkind])]
          have hone : maxErasureDepth - v.followed = maxErasureDepth - (v.followed + 1) + 1 := by
            omega
          simp only [if_pos hleft, descriptor, hbrackets, String.empty_append, Option.map_id', hone,
            erasure]
        · simp only [if_neg hleft, Nat.sub_eq_zero_of_le (Nat.not_lt.1 hleft), erasure]
  case h_7 hkind =>
    simp only [next?, direct, hkind]
    exact hinside _ (by rw [brackets, if_neg (by simp [hkind])])
  case h_8 hkind =>
    simp only [next?, direct, hkind]
    cases v.type.childByField? "element" with
    | none => rfl
    | some t => simp only [Option.bind_some, Option.map_some, descriptor, brackets, hkind, if_true]
  case h_9 hkind =>
    simp only [next?, direct, hkind]
    exact hinside _ (by rw [brackets, if_neg (by simp [hkind])])
  case h_10 =>
    -- no kind of a type, on either side
    simp only [next?, direct, *]
  all_goals
    rename_i hkind
    simp only [next?, direct, hkind]
    rfl

end Visit

/-! ## Chains of bounds -/

/-- From one type to another over so many bounds of type variables. -/
inductive Hops (scope : Scope) : Nat → Ast → Ast → Prop
  | here (t : Ast) : Hops scope 0 t t
  | step {k : Nat} {t bound r : Ast} (ht : asVariable? scope t = some (some bound))
      (h : Hops scope k bound r) : Hops scope (k + 1) t r

section Hops

variable {scope : Scope} {k j : Nat} {t r s : Ast}

theorem ofTypeWith_of_asVariable? {bound : Option Ast} (h : asVariable? scope t = some bound)
    (erase : Option Ast → Option String) : ofTypeWith scope erase t = erase bound := by
  rw [asVariable?] at h
  split at h
  · rename_i hkind
    rw [ofTypeWith_eq, hkind]
    simp only [h]
  · cases h

theorem ofTypeWith_of_hops (h : Hops scope k t r) (left : Nat) :
    ofTypeWith scope (erasure scope (left + k)) t = ofTypeWith scope (erasure scope left) r := by
  induction h with
  | here t => rfl
  | step ht h ih => rw [ofTypeWith_of_asVariable? ht, ← ih, ← Nat.add_assoc, erasure]

theorem Hops.append (h : Hops scope k t r) (h' : Hops scope j r s) : Hops scope (k + j) t s := by
  induction h with
  | here t => rwa [Nat.zero_add]
  | step ht _ ih =>
    rw [Nat.add_right_comm]
    exact .step ht (ih h')

theorem Hops.cut (h : Hops scope (k + j) t s) : ∃ r, Hops scope k t r ∧ Hops scope j r s := by
  induction k generalizing t with
  | zero => exact ⟨t, .here t, by rwa [Nat.zero_add] at h⟩
  | succ k ih =>
    rw [Nat.add_right_comm] at h
    cases h with
    | step ht h =>
      obtain ⟨r, hr, hs⟩ := ih h
      exact ⟨r, .step ht hr, hs⟩

theorem Hops.around (h : Hops scope k t t) (times : Nat) : Hops scope (times * k) t t := by
  induction times with
  | zero =>
    rw [Nat.zero_mul]
    exact .here t
  | succ times ih =>
    rw [Nat.succ_mul]
    exact ih.append h

theorem ofType_of_hops (h : Hops scope k t r) (hk : k ≤ maxErasureDepth) :
    ofType scope t = ofTypeWith scope (erasure scope (maxErasureDepth - k)) r := by
  rw [ofType, ← ofTypeWith_of_hops h, Nat.sub_add_cancel hk]

theorem ofType_of_hops_closed (h : Hops scope k t r) (hk : k ≤ maxErasureDepth)
    (hr : Closed scope r) : ofType scope t = ofType scope r := by
  rw [ofType_of_hops h hk, ofTypeWith_of_closed hr, ofType]

theorem ofType_of_hops_longer (h : Hops scope k t r) (hk : maxErasureDepth < k) :
    ofType scope t = some objectType := by
  have hsplit : k = maxErasureDepth + (k - maxErasureDepth - 1 + 1) := by omega
  rw [hsplit] at h
  obtain ⟨last, hlast, hbeyond⟩ := h.cut
  cases hbeyond with
  | step hbound _ =>
    rw [ofType_of_hops hlast (Nat.le_refl _), ofTypeWith_of_asVariable? hbound, Nat.sub_self,
      erasure]

theorem ofType_of_hops_unbounded (h : Hops scope k t r) (hr : asVariable? scope r = some none) :
    ofType scope t = some objectType := by
  by_cases hk : k ≤ maxErasureDepth
  · rw [ofType_of_hops h hk, ofTypeWith_of_asVariable? hr, erasure_none]
  · exact ofType_of_hops_longer h (Nat.not_le.1 hk)

/-- A chain that comes back to a variable is longer than any bound. -/
theorem ofType_of_hops_cyclic (h : Hops scope j t r) (hr : Hops scope (k + 1) r r) :
    ofType scope t = some objectType := by
  have hlong := h.append (hr.around (maxErasureDepth + 1))
  have hmany : maxErasureDepth + 1 ≤ (maxErasureDepth + 1) * (k + 1) :=
    Nat.le_mul_of_pos_right _ (Nat.succ_pos k)
  exact ofType_of_hops_longer hlong (by omega)

end Hops

/-- In every scope a type is described after a finite number of visits, each of which gets what it
puts behind its brackets from the next one. A type variable stands for what its chain of bounds ends
in, if that is reached in time, and otherwise for `Object`. -/
theorem ofType_follows_bounds (scope : Scope) :
    (WellFounded fun w v : Visit => v.next? scope = some w) ∧
    (∀ v : Visit, v.descriptor scope =
      match v.next? scope with
      | some w => (w.descriptor scope).map (v.brackets ++ ·)
      | none => v.direct scope) ∧
    (∀ t, ofType scope t = (Visit.mk 0 t).descriptor scope) ∧
    (∀ k t r, Hops scope k t r → k ≤ maxErasureDepth → Closed scope r →
      ofType scope t = ofType scope r) ∧
    (∀ k t r, Hops scope k t r → asVariable? scope r = some none →
      ofType scope t = some objectType) ∧
    (∀ k t r, Hops scope k t r → maxErasureDepth < k → ofType scope t = some objectType) ∧
    (∀ j k t r, Hops scope j t r → Hops scope (k + 1) r r → ofType scope t = some objectType) :=
  ⟨Visit.wellFounded_next scope, Visit.descriptor_eq scope, fun _ => rfl,
    fun _ _ _ => ofType_of_hops_closed, fun _ _ _ => ofType_of_hops_unbounded,
    fun _ _ _ => ofType_of_hops_longer, fun _ _ _ _ => ofType_of_hops_cyclic⟩

namespace Chained

def typeName (name : String) : Ast := .leaf "type_identifier" (some name) 1

def strings : Ast :=
  .node ⟨⟨"array_type", none⟩, none, 1⟩
    [.node ⟨⟨"type_identifier", some "String"⟩, some "element", 1⟩ [],
      .node ⟨⟨"dimensions", some "[][]"⟩, some "dimensions", 1⟩ []]

/-- Each of eight variables is bounded by the next, the last of them by an array; one more variable
stands in front of them. Then two that bound each other, and two of which one has no bound. -/
def scope : Scope where
  typeVariables :=
    (["Far", "A", "B", "C", "D", "E", "F", "G", "Left", "Right", "Free"].zip
      (["A", "B", "C", "D", "E", "F", "G", "H", "Right", "Left", "None"].map
        fun name => some (typeName name))) ++ [("H", some strings), ("None", none)]

end Chained

open Chained in
theorem ofType_follows_bounds_chained :
    ofType scope (typeName "A") = some "[[Ljava/lang/String;" ∧
    ofType scope (typeName "Far") = some objectType ∧
    ofType scope (typeName "Left") = some objectType ∧
    ofType scope (typeName "Free") = some objectType := by
  obtain ⟨-, -, -, hreached, hunbounded, hlonger, hcyclic⟩ := ofType_follows_bounds scope
  have height : Hops scope 8 (typeName "A") strings :=
    .step rfl (.step rfl (.step rfl (.step rfl (.step rfl (.step rfl (.step rfl (.step rfl
      (.here _))))))))
  have hround : Hops scope 2 (typeName "Left") (typeName "Left") := .step rfl (.step rfl (.here _))
  refine ⟨?_, ?_, ?_, ?_⟩
  · rw [hreached 8 _ strings height (by decide) (by decide +kernel)]
    decide +kernel
  · exact hlonger 9 _ strings (.step rfl height) (by decide)
  · exact hcyclic 0 1 _ _ (.here _) hround
  · exact hunbounded 1 _ (typeName "None") (.step rfl (.here _)) rfl

end Relocate.Descriptor
