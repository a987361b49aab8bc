import Relocate.Tree.Place

/-!
# The mapping store

Committed pairs of source and destination places, in the order in which they were committed, beside
one mark per node of either tree: whether it is mapped and where to, whether something below it was
matched, and how often it took part in a top-down candidate. Nothing is ever taken back, and a node
has at most one partner.
-/

set_option autoImplicit false

namespace Relocate.Matching

structure Mark where
  isMapped : Bool := false
  /-- The entry in the table of partners, asked for only once the node is mapped. -/
  partner : Option Place := none
  matchedBelow : Bool := false
  times : Nat := 0
  deriving Inhabited

namespace Mark

def partner? (m : Mark) : Option Place := if m.isMapped then m.partner else none

def withPartner (m : Mark) (p : Place) : Mark := { m with isMapped := true, partner := some p }

def flagged (m : Mark) : Mark := { m with matchedBelow := true }

def bumped (m : Mark) : Mark := { m with times := m.times + 1 }

end Mark

abbrev Marks := Array Mark

namespace Marks

def blank (t : Wrapped) : Marks := Array.replicate t.size {}

def lookup (m : Marks) (id : Nat) : Mark := m[id]?.getD {}

def adjust (m : Marks) (id : Nat) (f : Mark → Mark) : Marks := Array.modify m id f

@[simp] theorem size_adjust (m : Marks) (id : Nat) (f : Mark → Mark) :
    Array.size (m.adjust id f) = Array.size m := by
  simp [adjust]

theorem lookup_adjust (m : Marks) (id other : Nat) (f : Mark → Mark) (h : other < Array.size m) :
    (m.adjust id f).lookup other = if id = other then f (m.lookup other) else m.lookup other := by
  simp only [adjust, lookup, Array.getElem?_modify]
  split
  · simp [Array.getElem?_eq_getElem h]
  · rfl

theorem lookup_adjust_of_ne (m : Marks) {id other : Nat} (f : Mark → Mark) (h : id ≠ other) :
    (m.adjust id f).lookup other = m.lookup other := by
  simp only [adjust, lookup, Array.getElem?_modify, if_neg h]

/-- Flags nodes one above the other, from the lowest up to the first that is flagged already. -/
def flagUpward (m : Marks) : List Wrapped → Marks
  | [] => m
  | n :: above =>
    if (m.lookup n.id).matchedBelow then m
    else flagUpward (m.adjust n.id Mark.flagged) above

@[simp] theorem size_flagUpward (m : Marks) (ns : List Wrapped) :
    Array.size (m.flagUpward ns) = Array.size m := by
  induction ns generalizing m with
  | nil => rfl
  | cons n ns ih => simp only [flagUpward]; split <;> simp [ih]

end Marks

structure Store where
  pairs : Array (Place × Place)
  src : Marks
  dst : Marks
  deriving Inhabited

namespace Store

def empty (src dst : Wrapped) : Store := ⟨#[], .blank src, .blank dst⟩

def isMappedSrc (st : Store) (s : Place) : Bool := (st.src.lookup s.id).isMapped

def isMappedDst (st : Store) (d : Place) : Bool := (st.dst.lookup d.id).isMapped

def destinationOf? (st : Store) (s : Place) : Option Place := (st.src.lookup s.id).partner?

def sourceOf? (st : Store) (d : Place) : Option Place := (st.dst.lookup d.id).partner?

def has (st : Store) (s d : Place) : Bool :=
  match st.destinationOf? s with
  | some p => p.id == d.id && st.isMappedDst p
  | none => false

def admits (st : Store) (s d : Place) : Bool := !st.isMappedSrc s && !st.isMappedDst d

def commit (st : Store) (s d : Place) : Store where
  pairs := st.pairs.push (s, d)
  src := (st.src.adjust s.id (·.withPartner d)).flagUpward s.above
  dst := (st.dst.adjust d.id (·.withPartner s)).flagUpward d.above

/-- Commits a pair and flags everything above its two places, unless one of them is taken. -/
def link (st : Store) (s d : Place) : Store :=
  if st.admits s d then st.commit s d else st

def linkAll (st : Store) (pairs : List (Place × Place)) : Store :=
  pairs.foldl (fun st p => st.link p.1 p.2) st

/-- Links two subtrees node by node, both in pre-order, as far as the shorter one goes. -/
def linkSubtrees (st : Store) (s d : Place) : Store :=
  st.linkAll (s.preOrder.zip d.preOrder)

def markSrc (st : Store) (s : Place) : Store :=
  { st with src := st.src.flagUpward (s.node :: s.above) }

def markDst (st : Store) (d : Place) : Store :=
  { st with dst := st.dst.flagUpward (d.node :: d.above) }

def bump (st : Store) (s d : Place) : Store :=
  { st with src := st.src.adjust s.id Mark.bumped, dst := st.dst.adjust d.id Mark.bumped }

def size (st : Store) : Nat := st.pairs.size

theorem link_of_not_admits {st : Store} {s d : Place} (h : st.admits s d = false) :
    st.link s d = st := by
  simp [link, h]

theorem pairs_link (st : Store) (s d : Place) :
    (st.link s d).pairs = if st.admits s d then st.pairs.push (s, d) else st.pairs := by
  simp only [link]; split <;> rfl

end Store

end Relocate.Matching
