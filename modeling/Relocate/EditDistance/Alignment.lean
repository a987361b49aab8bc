import Relocate.EditDistance.Script

/-!
# Aligning reduced trees

The edit problem of two reduced trees, in which nodes count as equal when kind and value agree, and
its operations on places instead of numbers.
-/

set_option autoImplicit false

namespace Relocate

namespace Reduced

def items (r : Reduced) : List (Item Place) := r.postOrder.map Rose.label

def count (r : Reduced) : Nat := r.label.size

end Reduced

namespace EditDistance

inductive PlaceOp where
  | delete (s : Place)
  | insert (d : Place)
  | change (s d : Place) (cost : Nat)
  deriving Inhabited

namespace PlaceOp

def freePair? : PlaceOp → Option (Place × Place)
  | change s d 0 => some (s, d)
  | _ => none

def display : PlaceOp → String
  | delete s => s!"delete {s.display}"
  | insert d => s!"insert {d.display}"
  | change s d cost => s!"change {s.display} -> {d.display} ({cost})"

end PlaceOp

def alignment (src dst : Reduced) : Problem Place where
  src := src.items.toArray
  dst := dst.items.toArray
  same a b := a.node.sameContent b.node

def placeOp? (p : Problem Place) : EditOp → Option PlaceOp
  | .delete i => (p.src[i - 1]?).map (fun s => .delete s.label)
  | .insert j => (p.dst[j - 1]?).map (fun d => .insert d.label)
  | .change i j cost =>
    match p.src[i - 1]?, p.dst[j - 1]? with
    | some s, some d => some (.change s.label d.label cost)
    | _, _ => none

def placeScript (p : Problem Place) : List PlaceOp := p.script.filterMap (placeOp? p)

end EditDistance

end Relocate
