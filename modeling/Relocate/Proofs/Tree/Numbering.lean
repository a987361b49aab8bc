import Relocate.Proofs.Tree.PostOrder

/-!
# Subtrees of a numbered tree

Every subtree of a tree numbered in post-order is itself numbered in post-order, only from a later
number on. So its numbers are an interval: the first one is that of its leftmost leaf, the last one
that of its root, and there are as many of them as the subtree has nodes.
-/

set_option autoImplicit false

namespace Relocate.Rose

variable {α : Type}

mutual
def leftmostLeaf : Rose α → Rose α
  | node a cs => leftmostLeafOf (node a cs) cs

def leftmostLeafOf (own : Rose α) : List (Rose α) → Rose α
  | [] => own
  | c :: _ => c.leftmostLeaf
end

theorem order_leftmostLeaf_numberPost (next : Nat) :
    (t : Rose α) → (numberPost next t).leftmostLeaf.label.order = next + 1
  | node _ [] => rfl
  | node a (c :: cs) => by
    rw [numberPost, numberPostAll, leftmostLeaf, leftmostLeafOf]
    exact order_leftmostLeaf_numberPost next c

mutual
theorem exists_numberPost (next : Nat) : (t : Rose α) → ∀ u ∈ (numberPost next t).postOrder,
    ∃ first s, u = numberPost first s
  | node a cs => by
    intro u hu
    rw [numberPost, postOrder, List.mem_append, List.mem_singleton] at hu
    rcases hu with hu | rfl
    · exact exists_numberPostAll next cs u hu
    · exact ⟨next, node a cs, by rw [numberPost]⟩

theorem exists_numberPostAll (next : Nat) : (cs : List (Rose α)) →
    ∀ u ∈ postOrderAll (numberPostAll next cs), ∃ first s, u = numberPost first s
  | [] => by simp [numberPostAll, postOrderAll]
  | c :: cs => by
    intro u hu
    rw [numberPostAll, postOrderAll, List.mem_append] at hu
    rcases hu with hu | hu
    · exact exists_numberPost next c u hu
    · exact exists_numberPostAll (next + c.size) cs u hu
end

theorem map_order_numberPost (next : Nat) (t : Rose α) :
    (numberPost next t).postOrder.map (fun u => u.label.order) = List.range' (next + 1) t.size := by
  have horders := (spread_numberPost next t).orders
  rw [length_spots, size_numberPost] at horders
  rw [← horders, ← Function.comp_def Item.order label, ← List.map_map, ← map_snd_spots,
    List.map_map]
  rfl

/-- Post-order numbers from 1 on, each subtree the interval from its leftmost leaf to its root. -/
structure Intervals (t : Rose (Item α)) : Prop where
  orders : t.postOrder.map (fun u => u.label.order) = List.range' 1 t.size
  interval : ∀ u ∈ t.postOrder, u.label.leftmost ≤ u.label.order ∧
    u.postOrder.map (fun v => v.label.order) =
      List.range' u.label.leftmost (u.label.order + 1 - u.label.leftmost)
  leftmost : ∀ u ∈ t.postOrder, u.label.leftmost = u.leftmostLeaf.label.order
  size : ∀ u ∈ t.postOrder, u.label.size = u.size

theorem intervals_numberPost (t : Rose α) : (numberPost 0 t).Intervals := by
  constructor
  · rw [map_order_numberPost, size_numberPost]
  all_goals
    intro u hu
    obtain ⟨first, s, rfl⟩ := exists_numberPost 0 t u hu
    have hpos := s.size_pos
  · rw [leftmost_numberPost, order_numberPost, map_order_numberPost,
      show first + s.size + 1 - (first + 1) = s.size by omega]
    exact ⟨by omega, rfl⟩
  · rw [leftmost_numberPost, order_leftmostLeaf_numberPost]
  · rw [Item.size, leftmost_numberPost, order_numberPost, size_numberPost]
    omega

end Relocate.Rose
