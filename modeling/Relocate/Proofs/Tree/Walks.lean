import Relocate.Proofs.Matching.Pruning
import Relocate.Proofs.Matching.Unique

/-!
# Walks below a node, and the way up

The walks keep a stack, yet they pass the same subtrees in the same order as the recursion over the
tree. Their numbers make an interval that starts at the node's own number, so the nodes met on the
way up are those whose intervals hold that number behind their own, the nearest one first.
-/

set_option autoImplicit false

namespace Relocate

namespace Place

def up? (p : Place) : Nat → Option Place
  | 0 => some p
  | i + 1 => p.parent?.bind fun q => q.up? i

variable {mix : Mix} {t : Ast} {p a : Place}

theorem map_node_children (p : Place) : p.children.map node = p.node.children := by
  rw [children, List.map_map]
  exact List.map_id _

/-- What walks over the children in turn do, if each of them passes the subtrees that it should. -/
theorem map_node_flatMap {walk : Place → List Place} {order : Wrapped → List Wrapped}
    (h : ∀ c ∈ p.children, (walk c).map node = order c.node) :
    (p.children.flatMap walk).map node = p.node.children.flatMap order := by
  rw [List.map_flatMap, List.flatMap_congr h, ← map_node_children, List.flatMap_map]

theorem map_node_preOrder (p : Place) : p.preOrder.map node = p.node.preOrder := by
  induction p using childInduction with
  | h p ih => rw [preOrder_eq, List.map_cons, map_node_flatMap ih, Rose.preOrder_eq]

theorem map_node_postOrder (p : Place) : p.postOrder.map node = p.node.postOrder := by
  induction p using childInduction with
  | h p ih =>
    rw [postOrder_eq, List.map_append, map_node_flatMap ih, Rose.postOrder_eq, List.map_singleton]

theorem getElem?_upward (p : Place) (i : Nat) : p.upward[i]? = p.up? i := by
  induction i generalizing p with
  | zero => rfl
  | succ i ih =>
    obtain ⟨n, above⟩ := p
    cases above with
    | nil => rfl
    | cons a above => exact ih ⟨a, above⟩

theorem getElem?_ancestors (p : Place) (i : Nat) : p.ancestors[i]? = p.up? (i + 1) := by
  rw [← getElem?_upward, upward, List.getElem?_cons_succ]

theorem pairwise_ancestors {T : Wrapped} (hp : p ∈ nodes T) :
    p.ancestors.Pairwise fun a b => a ∈ b.descendants := by
  obtain ⟨n, above⟩ := p
  induction above generalizing n with
  | nil => exact List.Pairwise.nil
  | cons a above ih =>
    have ha : (⟨a, above⟩ : Place) ∈ nodes T :=
      (mem_nodes_of_mem_ancestors hp List.mem_cons_self).1
    exact List.pairwise_cons.2 ⟨fun b hb => (mem_nodes_of_mem_ancestors ha hb).2, ih a ha⟩

theorem mem_ancestors_iff_encloses (hp : p ∈ nodes (Rose.wrap mix t)) :
    a ∈ p.ancestors ↔ a ∈ nodes (Rose.wrap mix t) ∧ Matching.encloses a p = true := by
  constructor
  · intro h
    obtain ⟨ha, hbelow⟩ := mem_nodes_of_mem_ancestors hp h
    exact ⟨ha, (Matching.mem_descendants_iff_encloses ha hp).1 hbelow⟩
  · rintro ⟨ha, hencloses⟩
    exact (mem_ancestors_iff hp).2 ((Matching.mem_descendants_iff_encloses ha hp).2 hencloses)

/-- The walks below a node of a tree and the way up from it, told by the numbers of the nodes. -/
structure Walks (T : Wrapped) (p : Place) : Prop where
  ids : p.preOrder.map id = List.range' p.id p.size
  counted : p.size = 1 + p.descendants.length
  preOrder : p.preOrder.map node = p.node.preOrder
  postOrder : p.postOrder.map node = p.node.postOrder
  /-- Both walks pass the same nodes. -/
  perm : p.postOrder.Perm p.preOrder
  ancestors : ∀ a, a ∈ p.ancestors ↔ a ∈ nodes T ∧ a.id < p.id ∧ p.id < a.id + a.size
  nearestFirst : p.ancestors.Pairwise fun a b => a ∈ b.descendants
  parents : ∀ i, p.ancestors[i]? = p.up? (i + 1)

theorem walks_wrap (mix : Mix) (t : Ast) (p : Place) (hp : p ∈ nodes (Rose.wrap mix t)) :
    p.Walks (Rose.wrap mix t) where
  ids := map_id_preOrder hp
  counted := by rw [← length_descendants, Nat.add_comm]
  preOrder := map_node_preOrder p
  postOrder := map_node_postOrder p
  perm := postOrder_perm p
  ancestors := by
    intro a
    rw [mem_ancestors_iff_encloses hp, Matching.encloses, Bool.and_eq_true, decide_eq_true_eq,
      decide_eq_true_eq]
  nearestFirst := pairwise_ancestors hp
  parents := getElem?_ancestors p

/-- In the sample block the call has number 1, with a name below it and the block above it. -/
theorem walks_wrap_call :
    let block := Rose.wrap Mix.standard Matching.Moved.before
    Matching.Moved.callBefore ∈ nodes block ∧
      Matching.Moved.callBefore.preOrder.map id = [1, 2] ∧
      Matching.Moved.callBefore.postOrder.map id = [2, 1] ∧
      Place.root block ∈ Matching.Moved.callBefore.ancestors := by
  intro block
  have hcall : Matching.Moved.callBefore ∈ nodes block := Matching.Moved.twins.src
  have hwalks := walks_wrap Mix.standard Matching.Moved.before _ hcall
  refine ⟨hcall, hwalks.ids, ?_, ?_⟩
  · have hpost := congrArg (List.map Rose.id) hwalks.postOrder
    rw [List.map_map] at hpost
    exact hpost
  · exact (hwalks.ancestors _).2 ⟨root_mem_nodes _, by decide, by decide⟩

end Place

end Relocate
