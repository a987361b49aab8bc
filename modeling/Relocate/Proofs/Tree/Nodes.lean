import Mathlib.Data.List.Nodup
import Mathlib.Data.List.Perm.Basic
import Relocate.Proofs.Tree.Address
import Relocate.Tree.Place

/-!
# Nodes of a wrapped tree

The stack-driven walks give the places of a subtree in the order of its recursion, and the numbers
that wrapping hands out follow the pre-order: the subtree of a node is the interval of numbers that
starts at its own. So within one tree a number stands for one place, and one place lies below
another exactly when its number is in the other's interval.
-/

set_option autoImplicit false

namespace Relocate

namespace Place

theorem childInduction {motive : Place → Prop}
    (h : ∀ p : Place, (∀ c ∈ p.children, motive c) → motive p) (p : Place) : motive p := by
  generalize hn : p.height = n
  induction n using Nat.strongRecOn generalizing p with
  | ind n ih =>
    apply h
    intro c hc
    exact ih c.height (hn ▸ height_lt_of_mem_children hc) c rfl

theorem preWalk_append (a b : List Place) : preWalk (a ++ b) = preWalk a ++ preWalk b := by
  induction a using preWalk.induct with
  | case1 => rw [List.nil_append, preWalk, List.nil_append]
  | case2 p stack ih =>
    rw [List.append_assoc] at ih
    rw [List.cons_append, preWalk, ih, preWalk, List.cons_append]

theorem preWalk_eq_flatMap (stack : List Place) : preWalk stack = stack.flatMap preOrder := by
  induction stack with
  | nil => rw [preWalk, List.flatMap_nil]
  | cons p stack ih =>
    rw [← List.singleton_append, preWalk_append, ih, List.flatMap_append, List.flatMap_singleton,
      preOrder]

theorem preOrder_eq (p : Place) : p.preOrder = p :: p.children.flatMap preOrder := by
  rw [preOrder, preWalk, List.append_nil, preWalk_eq_flatMap]

theorem preOrder_eq_cons_descendants (p : Place) : p.preOrder = p :: p.descendants := by
  rw [preOrder_eq, descendants, preWalk_eq_flatMap]

theorem length_flatMap_preOrder {ps : List Place} (h : ∀ p ∈ ps, p.preOrder.length = p.size) :
    (ps.flatMap preOrder).length = totalSize ps := by
  induction ps with
  | nil => rfl
  | cons p ps ih =>
    rw [List.flatMap_cons, List.length_append, h p List.mem_cons_self,
      ih fun q hq => h q (List.mem_cons_of_mem p hq), totalSize]

theorem length_preOrder (p : Place) : p.preOrder.length = p.size := by
  induction p using childInduction with
  | h p ih =>
    rw [preOrder_eq, List.length_cons, length_flatMap_preOrder ih, size_eq, Nat.add_comm]

theorem postWalk_append (a b : List (Place × List Place)) :
    postWalk (a ++ b) = postWalk a ++ postWalk b := by
  induction a using postWalk.induct with
  | case1 => rw [List.nil_append, postWalk, List.nil_append]
  | case2 p stack ih => rw [List.cons_append, postWalk, ih, postWalk, List.cons_append]
  | case3 p c cs stack ih =>
    rw [List.cons_append, List.cons_append] at ih
    rw [List.cons_append, postWalk, ih, postWalk]

theorem postWalk_frame (p : Place) (cs : List Place) :
    postWalk [(p, cs)] = cs.flatMap postOrder ++ [p] := by
  induction cs with
  | nil => rw [postWalk, postWalk, List.flatMap_nil, List.nil_append]
  | cons c cs ih =>
    rw [postWalk, ← List.singleton_append, postWalk_append, ih, List.flatMap_cons,
      List.append_assoc, postOrder]

theorem postOrder_eq (p : Place) : p.postOrder = p.children.flatMap postOrder ++ [p] := by
  rw [postOrder, postWalk_frame]

@[simp] theorem mem_preOrder_self (p : Place) : p ∈ p.preOrder := by
  rw [preOrder_eq]
  exact List.mem_cons_self

theorem mem_preOrder {p q : Place} : q ∈ p.preOrder ↔ q = p ∨ ∃ c ∈ p.children, q ∈ c.preOrder := by
  rw [preOrder_eq, List.mem_cons, List.mem_flatMap]

theorem mem_preOrder_of_mem_children {p c q : Place} (hc : c ∈ p.children) (hq : q ∈ c.preOrder) :
    q ∈ p.preOrder :=
  mem_preOrder.2 (Or.inr ⟨c, hc, hq⟩)

theorem mem_preOrder_trans {p q r : Place} (hq : q ∈ p.preOrder) (hr : r ∈ q.preOrder) :
    r ∈ p.preOrder := by
  induction p using childInduction with
  | h p ih =>
    rcases mem_preOrder.1 hq with rfl | ⟨c, hc, hqc⟩
    · exact hr
    · exact mem_preOrder_of_mem_children hc (ih c hc hqc)

theorem mem_postOrder {p q : Place} : q ∈ p.postOrder ↔ q ∈ p.preOrder := by
  induction p using childInduction with
  | h p ih =>
    rw [postOrder_eq, mem_preOrder, List.mem_append, List.mem_flatMap, List.mem_singleton, or_comm]
    apply or_congr_right
    apply exists_congr
    intro c
    exact and_congr_right (ih c)

theorem postOrder_perm (p : Place) : p.postOrder.Perm p.preOrder := by
  induction p using childInduction with
  | h p ih =>
    rw [postOrder_eq, preOrder_eq]
    exact List.perm_append_comm.trans ((List.Perm.flatMap_left p.children ih).cons p)

theorem mem_descendants {p q : Place} : q ∈ p.descendants ↔ ∃ c ∈ p.children, q ∈ c.preOrder := by
  rw [descendants, preWalk_eq_flatMap, List.mem_flatMap]

theorem mem_preOrder_of_mem_descendants {p q : Place} (h : q ∈ p.descendants) : q ∈ p.preOrder :=
  mem_preOrder.2 (Or.inr (mem_descendants.1 h))

theorem mem_descendants_of_ne {p q : Place} (h : q ∈ p.preOrder) (hne : q ≠ p) :
    q ∈ p.descendants := by
  rw [preOrder_eq_cons_descendants] at h
  exact List.mem_of_ne_of_mem hne h

theorem length_descendants (p : Place) : p.descendants.length + 1 = p.size := by
  rw [← length_preOrder, preOrder_eq_cons_descendants, List.length_cons]

theorem mem_above_iff {p : Place} {n : Wrapped} : n ∈ p.above ↔ ∃ r ∈ p.ancestors, r.node = n := by
  have main : ∀ ns : List Wrapped, n ∈ ns ↔ ∃ r ∈ chain ns, r.node = n := by
    intro ns
    induction ns with
    | nil => simp [chain]
    | cons m ns ih => simp [chain, ih, eq_comm]
  exact main p.above

theorem ancestors_of_mem_children {p c : Place} (h : c ∈ p.children) :
    c.ancestors = p :: p.ancestors := by
  obtain ⟨n, -, rfl⟩ := List.mem_map.1 h
  rfl

theorem upward_of_mem_children {p c : Place} (h : c ∈ p.children) : c.upward = c :: p.upward := by
  rw [upward, ancestors_of_mem_children h]
  rfl

theorem ancestors_subset {p q : Place} (h : q ∈ p.ancestors) : q.ancestors ⊆ p.ancestors := by
  have main : ∀ ns : List Wrapped, q ∈ chain ns → q.ancestors ⊆ chain ns := by
    intro ns
    induction ns with
    | nil => exact fun h => absurd h List.not_mem_nil
    | cons n ns ih =>
      intro h
      rcases List.mem_cons.1 h with rfl | h
      · exact List.subset_cons_self _ (chain ns)
      · exact List.Subset.trans (ih h) (List.subset_cons_self _ (chain ns))
  exact main p.above h

theorem mem_ancestors_cases {p q r : Place} (hq : q ∈ p.preOrder) (hr : r ∈ q.ancestors) :
    r ∈ p.ancestors ∨ r ∈ p.preOrder ∧ q ∈ r.descendants := by
  induction p using childInduction with
  | h p ih =>
    rcases mem_preOrder.1 hq with rfl | ⟨c, hc, hqc⟩
    · exact Or.inl hr
    · rcases ih c hc hqc with habove | ⟨hin, hbelow⟩
      · rw [ancestors_of_mem_children hc, List.mem_cons] at habove
        rcases habove with rfl | habove
        · exact Or.inr ⟨mem_preOrder_self r, mem_descendants.2 ⟨c, hc, hqc⟩⟩
        · exact Or.inl habove
      · exact Or.inr ⟨mem_preOrder_of_mem_children hc hin, hbelow⟩

theorem suffix_upward {p q : Place} (h : q ∈ p.preOrder) : p.upward <:+ q.upward := by
  induction p using childInduction with
  | h p ih =>
    rcases mem_preOrder.1 h with rfl | ⟨c, hc, hq⟩
    · exact List.suffix_rfl
    · have hsuffix := ih c hc hq
      rw [upward_of_mem_children hc] at hsuffix
      exact (List.suffix_cons c p.upward).trans hsuffix

theorem mem_ancestors_of_mem_descendants {p q : Place} (h : q ∈ p.descendants) :
    p ∈ q.ancestors := by
  obtain ⟨c, hc, hq⟩ := mem_descendants.1 h
  have hsuffix : c :: p.upward <:+ q :: q.ancestors := by
    rw [← upward_of_mem_children hc]
    exact suffix_upward hq
  rcases List.suffix_cons_iff.1 hsuffix with heq | hsuffix
  · rw [← (List.cons.inj heq).2]
    exact List.mem_cons_self
  · exact hsuffix.subset (by simp [upward])

theorem eq_or_above_ne_nil {p q : Place} (h : q ∈ p.preOrder) : q = p ∨ q.above ≠ [] := by
  induction p using childInduction with
  | h p ih =>
    rcases mem_preOrder.1 h with rfl | ⟨c, hc, hq⟩
    · exact Or.inl rfl
    · obtain ⟨n, -, rfl⟩ := List.mem_map.1 hc
      rcases ih _ hc hq with rfl | habove
      · exact Or.inr (List.cons_ne_nil _ _)
      · exact Or.inr habove

theorem above_ne_nil_of_mem_descendants {p q : Place} (h : q ∈ p.descendants) : q.above ≠ [] := by
  obtain ⟨c, hc, hq⟩ := mem_descendants.1 h
  obtain ⟨n, -, rfl⟩ := List.mem_map.1 hc
  rcases eq_or_above_ne_nil hq with rfl | habove
  · exact List.cons_ne_nil _ _
  · exact habove

theorem kind_ast (p : Place) : p.ast.kind = p.kind := by
  rw [ast, Rose.ast, Rose.kind, Rose.label_map]
  rfl

theorem children_ast (p : Place) : p.ast.children = p.children.map ast := by
  rw [ast, Rose.ast, Rose.children_map, children, List.map_map]
  rfl

theorem children_mk_node (l : Label) (cs above : List Wrapped) :
    (⟨.node l cs, above⟩ : Place).children = cs.map fun c => ⟨c, .node l cs :: above⟩ := rfl

end Place

namespace Rose

mutual
theorem map_id_wrapFrom (mix : Mix) (next : Nat) (above : List Wrapped) :
    (t : Rose Tag) →
      (⟨wrapFrom mix next t, above⟩ : Place).preOrder.map Place.id = List.range' next t.size
  | node tag cs => by
    rw [wrapFrom, Place.preOrder_eq, Place.children_mk_node, List.map_cons,
      map_id_wrapAllFrom mix (next + 1) _ cs, size, Nat.add_comm 1, List.range'_succ]
    rfl

theorem map_id_wrapAllFrom (mix : Mix) (next : Nat) (above : List Wrapped) :
    (cs : List (Rose Tag)) →
      (((wrapAllFrom mix next cs).map fun c => (⟨c, above⟩ : Place)).flatMap
        Place.preOrder).map Place.id = List.range' next (totalSize cs)
  | [] => rfl
  | c :: cs => by
    rw [wrapAllFrom, List.map_cons, List.flatMap_cons, List.map_append,
      map_id_wrapFrom mix next above c, map_id_wrapAllFrom mix (next + c.size) above cs, totalSize,
      List.range'_append_1]
end

mutual
/-- Every subtree of a wrapped tree is a subtree wrapped from its own number on. -/
theorem exists_wrapFrom (mix : Mix) (next : Nat) (above : List Wrapped) :
    (t : Rose Tag) → ∀ p ∈ (⟨wrapFrom mix next t, above⟩ : Place).preOrder,
      ∃ u, p.node = wrapFrom mix p.id u
  | node tag cs => by
    intro p hp
    rcases Place.mem_preOrder.1 hp with rfl | ⟨c, hc, hpc⟩
    · exact ⟨node tag cs, by rw [wrapFrom]; rfl⟩
    · rw [wrapFrom, Place.children_mk_node] at hc
      exact exists_wrapAllFrom mix (next + 1) _ cs c hc p hpc

theorem exists_wrapAllFrom (mix : Mix) (next : Nat) (above : List Wrapped) :
    (cs : List (Rose Tag)) →
      ∀ c ∈ (wrapAllFrom mix next cs).map fun c => (⟨c, above⟩ : Place), ∀ p ∈ c.preOrder,
        ∃ u, p.node = wrapFrom mix p.id u
  | [] => by simp [wrapAllFrom]
  | t :: cs => by
    intro c hc p hp
    rw [wrapAllFrom, List.map_cons, List.mem_cons] at hc
    rcases hc with rfl | hc
    · exact exists_wrapFrom mix next above t p hp
    · exact exists_wrapAllFrom mix (next + t.size) above cs c hc p hp
end

mutual
theorem ast_wrapFrom (mix : Mix) (next : Nat) : (t : Rose Tag) → (wrapFrom mix next t).ast = t
  | node tag cs => by
    rw [wrapFrom, ast, map, mapAll_ast_wrapAllFrom mix (next + 1) cs]

theorem mapAll_ast_wrapAllFrom (mix : Mix) (next : Nat) :
    (cs : List (Rose Tag)) → mapAll Label.tag (wrapAllFrom mix next cs) = cs
  | [] => rfl
  | c :: cs => by
    rw [wrapAllFrom, mapAll, mapAll_ast_wrapAllFrom mix (next + c.size) cs]
    exact congrArg (· :: cs) (ast_wrapFrom mix next c)
end

theorem ast_wrap (mix : Mix) (t : Ast) : (wrap mix t).ast = t := ast_wrapFrom mix 0 t

end Rose

def nodes (T : Wrapped) : List Place := (Place.root T).preOrder

def Place.Covers (p : Place) (id : Nat) : Prop := p.id ≤ id ∧ id < p.id + p.size

section Nodes

variable {mix : Mix} {t : Ast} {p q r : Place}

theorem root_mem_nodes (T : Wrapped) : Place.root T ∈ nodes T := Place.mem_preOrder_self _

theorem mem_nodes_of_mem_preOrder {T : Wrapped} (hp : p ∈ nodes T) (hq : q ∈ p.preOrder) :
    q ∈ nodes T :=
  Place.mem_preOrder_trans hp hq

theorem mem_nodes_of_mem_descendants {T : Wrapped} (hp : p ∈ nodes T) (hq : q ∈ p.descendants) :
    q ∈ nodes T :=
  mem_nodes_of_mem_preOrder hp (Place.mem_preOrder_of_mem_descendants hq)

theorem mem_nodes_of_mem_children {T : Wrapped} (hp : p ∈ nodes T) (hq : q ∈ p.children) :
    q ∈ nodes T :=
  mem_nodes_of_mem_preOrder hp (Place.mem_preOrder_of_mem_children hq (Place.mem_preOrder_self q))

theorem mem_nodes_of_mem_ancestors {T : Wrapped} (hp : p ∈ nodes T) (hr : r ∈ p.ancestors) :
    r ∈ nodes T ∧ p ∈ r.descendants := by
  rcases Place.mem_ancestors_cases hp hr with habove | h
  · cases habove
  · exact h

theorem isRoot_iff {T : Wrapped} (hp : p ∈ nodes T) : p.isRoot = true ↔ p = Place.root T := by
  rw [Place.isRoot, List.isEmpty_iff]
  constructor
  · exact fun h => (Place.eq_or_above_ne_nil hp).resolve_right (not_not_intro h)
  · rintro rfl
    rfl

theorem map_id_nodes (mix : Mix) (t : Ast) :
    (nodes (Rose.wrap mix t)).map Place.id = List.range' 0 t.size :=
  Rose.map_id_wrapFrom mix 0 [] t

theorem length_nodes (mix : Mix) (t : Ast) : (nodes (Rose.wrap mix t)).length = t.size := by
  rw [← List.length_map Place.id, map_id_nodes, List.length_range']

theorem id_lt_size (hp : p ∈ nodes (Rose.wrap mix t)) : p.id < t.size := by
  have h := List.mem_map_of_mem (f := Place.id) hp
  rw [map_id_nodes, List.mem_range'_1] at h
  omega

theorem eq_of_id_eq (hp : p ∈ nodes (Rose.wrap mix t)) (hq : q ∈ nodes (Rose.wrap mix t))
    (h : p.id = q.id) : p = q := by
  have hnodup : ((nodes (Rose.wrap mix t)).map Place.id).Nodup := by
    rw [map_id_nodes]
    exact List.nodup_range'
  exact List.inj_on_of_nodup_map hnodup hp hq h

theorem map_id_preOrder (hp : p ∈ nodes (Rose.wrap mix t)) :
    p.preOrder.map Place.id = List.range' p.id p.size := by
  obtain ⟨u, hu⟩ := Rose.exists_wrapFrom mix 0 [] t p hp
  have h := Rose.map_id_wrapFrom mix p.id p.above u
  rw [← hu] at h
  rw [h, Place.size, hu, Rose.size_wrapFrom]

theorem map_id_descendants (hp : p ∈ nodes (Rose.wrap mix t)) :
    p.descendants.map Place.id = List.range' (p.id + 1) (p.size - 1) := by
  have h := map_id_preOrder hp
  rw [Place.preOrder_eq_cons_descendants, List.map_cons,
    show p.size = p.size - 1 + 1 by have := p.node.size_pos; simp only [Place.size]; omega,
    List.range'_succ, List.cons.injEq] at h
  exact h.2

theorem nodup_preOrder (hp : p ∈ nodes (Rose.wrap mix t)) : p.preOrder.Nodup := by
  apply List.Nodup.of_map Place.id
  rw [map_id_preOrder hp]
  exact List.nodup_range'

theorem covers_of_mem_preOrder (hp : p ∈ nodes (Rose.wrap mix t)) (hq : q ∈ p.preOrder) :
    p.Covers q.id := by
  have h := List.mem_map_of_mem (f := Place.id) hq
  rwa [map_id_preOrder hp, List.mem_range'_1] at h

theorem mem_preOrder_iff_covers (hp : p ∈ nodes (Rose.wrap mix t))
    (hq : q ∈ nodes (Rose.wrap mix t)) : q ∈ p.preOrder ↔ p.Covers q.id := by
  refine ⟨covers_of_mem_preOrder hp, ?_⟩
  intro h
  have hid : q.id ∈ p.preOrder.map Place.id := by
    rw [map_id_preOrder hp]
    exact List.mem_range'_1.2 h
  obtain ⟨r, hr, hrq⟩ := List.mem_map.1 hid
  rwa [← eq_of_id_eq (mem_nodes_of_mem_preOrder hp hr) hq hrq]

end Nodes

end Relocate
