import Relocate.Tree.Place

/-!
# Reduced trees

A copy of a subtree without the child subtrees whose root is taken; its own root always stays. The
copy is numbered in post-order from 1. Each node also knows the number of its leftmost leaf: its
subtree is the interval from there to its own number.
-/

set_option autoImplicit false

namespace Relocate

structure Item (α : Type) where
  label : α
  /-- Post-order number, from 1. -/
  order : Nat
  /-- Number of the leftmost leaf below, or of the node itself if it is a leaf. -/
  leftmost : Nat
  deriving Inhabited

namespace Item

variable {α : Type}

def size (i : Item α) : Nat := i.order - i.leftmost + 1

end Item

namespace Rose

variable {α : Type}

def leftmostOf (own : Nat) : List (Rose (Item α)) → Nat
  | [] => own
  | c :: _ => c.label.leftmost

mutual
/-- Numbers the nodes in post-order from `next + 1` on. -/
def numberPost (next : Nat) : Rose α → Rose (Item α)
  | node a cs =>
    let below := numberPostAll next cs
    let own := next + totalSize cs + 1
    node ⟨a, own, leftmostOf own below⟩ below

def numberPostAll (next : Nat) : List (Rose α) → List (Rose (Item α))
  | [] => []
  | c :: cs => numberPost next c :: numberPostAll (next + c.size) cs
end

end Rose

namespace Place

mutual
/-- The subtree below a place without the child subtrees that `taken` names. -/
def prune (taken : Nat → Bool) (above : List Wrapped) : Wrapped → Rose Place
  | .node l cs => .node ⟨.node l cs, above⟩ (pruneAll taken (.node l cs :: above) cs)

def pruneAll (taken : Nat → Bool) (above : List Wrapped) : List Wrapped → List (Rose Place)
  | [] => []
  | c :: cs =>
    if taken c.id then pruneAll taken above cs
    else prune taken above c :: pruneAll taken above cs
end

end Place

abbrev Reduced := Rose (Item Place)

namespace Reduced

def ofPlace (taken : Nat → Bool) (p : Place) : Reduced :=
  Rose.numberPost 0 (Place.prune taken p.above p.node)

end Reduced

end Relocate
