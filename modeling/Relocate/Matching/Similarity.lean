import Relocate.Matching.Config
import Relocate.Matching.Store

/-!
# Similarity of two places

The Dice coefficient over mapped descendants: twice the number of descendants of the one that are
mapped to descendants of the other, over the number of descendants of both. It is 0 when one of the
two has no descendants.
-/

set_option autoImplicit false

namespace Relocate.Matching

/-- Whether `q` lies strictly below `p`: descendants are numbered right after their ancestor. -/
def encloses (p q : Place) : Bool := p.id < q.id && q.id < p.id + p.size

namespace Store

def leadsInto (st : Store) (b : Place) (p : Place) : Bool :=
  match st.destinationOf? p with
  | some q => encloses b q
  | none => false

def common (st : Store) (a b : Place) : Nat := a.descendants.countP (st.leadsInto b)

def dice (st : Store) (a b : Place) : Score :=
  if a.size = 1 ∨ b.size = 1 then .zero
  else ⟨2 * st.common a b, (a.size - 1) + (b.size - 1)⟩

def parentDice (st : Store) (a b : Place) : Score :=
  match a.parent?, b.parent? with
  | some p, some q => st.dice p q
  | _, _ => .zero

end Store

end Relocate.Matching
