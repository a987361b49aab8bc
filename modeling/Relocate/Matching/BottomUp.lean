import Relocate.EditDistance.Alignment
import Relocate.Matching.Similarity

/-!
# The bottom-up phase

Goes through the source tree in post-order and gives each unmapped inner node with matched
descendants the most similar unmapped destination node of its kind, if their similarity passes the
threshold. The two roots are paired whatever they are. After every pair, what is still unmapped
below its two places is aligned by an edit script, unless the two reduced trees are too large.
-/

set_option autoImplicit false

namespace Relocate.Matching.BottomUp

/-- Adds the nodes of an upward chain, up to the first that is in already. -/
def climb (seen : List Nat) : List Wrapped → List Nat
  | [] => seen
  | n :: above => if seen.contains n.id then seen else climb (n.id :: seen) above

def seeds (st : Store) (a : Place) : List Nat :=
  (a.descendants.filterMap st.destinationOf?).foldl (fun seen d => climb seen d.above) []

def candidates (st : Store) (dsts : List Place) (a : Place) : List Place :=
  let seen := seeds st a
  dsts.filter fun d => !st.isMappedDst d && d.kind == a.kind && seen.contains d.id

/-- Keeps the better of two scored places, the earlier one on a tie. -/
def better (st : Store) (a : Place) (best : Option (Score × Place)) (d : Place) :
    Option (Score × Place) :=
  let score := st.dice a d
  match best with
  | none => some (score, d)
  | some (top, kept) => if top.below score then some (score, d) else some (top, kept)

def bestCandidate? (st : Store) (dsts : List Place) (a : Place) : Option (Score × Place) :=
  (candidates st dsts a).foldl (better st a) none

def reducedSrc (st : Store) (s : Place) : Reduced :=
  .ofPlace (fun id => (st.src.lookup id).isMapped) s

def reducedDst (st : Store) (d : Place) : Reduced :=
  .ofPlace (fun id => (st.dst.lookup id).isMapped) d

/-- Links the pairs that an edit script of the two reduced trees aligns for nothing. -/
def refine (maxSize : Nat) (st : Store) (s d : Place) : Store :=
  let src := reducedSrc st s
  let dst := reducedDst st d
  if src.count + dst.count < maxSize then
    st.linkAll ((EditDistance.placeScript (EditDistance.alignment src dst)).filterMap
      EditDistance.PlaceOp.freePair?)
  else st

/-- Commits a container pair and refines it, unless one of its places is taken. -/
def pair (config : Config) (st : Store) (s d : Place) : Store :=
  if st.admits s d then refine config.maxSize (st.commit s d) s d else st

def visit (config : Config) (dst : Place) (dsts : List Place) (st : Store) (s : Place) : Store :=
  if st.isMappedSrc s then st
  else if s.isRoot then pair config st s dst
  else if (st.src.lookup s.id).matchedBelow then
    match bestCandidate? st dsts s with
    | some (score, d) => if config.minDice.passes score then pair config st s d else st
    | none => st
  else st

def run (config : Config) (src dst : Place) (st : Store) : Store :=
  let dsts := dst.postOrder
  src.postOrder.foldl (visit config dst dsts) st

end Relocate.Matching.BottomUp
