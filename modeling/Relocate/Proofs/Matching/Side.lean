import Relocate.Proofs.Matching.Agreement

/-!
# The two sides of a matching

What happens to the source tree happens to the destination tree as well. A side takes its part of
whatever has one for either tree, so that such a fact is stated once. Only the order in which pairs
are listed tells the two sides apart.
-/

set_option autoImplicit false

namespace Relocate.Matching

inductive Side where
  | src
  | dst

namespace Side

def other : Side → Side
  | src => dst
  | dst => src

def of {α : Type} : Side → α × α → α
  | src => Prod.fst
  | dst => Prod.snd

def marks : Side → Store → Marks
  | src => Store.src
  | dst => Store.dst

def isMapped (side : Side) (st : Store) (p : Place) : Bool := ((side.marks st).lookup p.id).isMapped

def pool : Side → TopDown.State → TopDown.Pool
  | src => TopDown.State.src
  | dst => TopDown.State.dst

theorem forall_iff {P : Side → Prop} : (∀ side, P side) ↔ P .src ∧ P .dst := by
  constructor
  · exact fun h => ⟨h .src, h .dst⟩
  · rintro ⟨hsrc, hdst⟩ side
    cases side
    · exact hsrc
    · exact hdst

variable {side : Side} {pair u : Place × Place}

theorem eq_of_both (h : side.of u = side.of pair) (h' : side.other.of u = side.other.of pair) :
    u = pair := by
  cases side
  · exact Prod.ext h h'
  · exact Prod.ext h' h

theorem map_of_zip {l l' : List Place} (h : l.length = l'.length) :
    (l.zip l').map side.of = side.of (l, l') := by
  cases side
  · exact List.map_fst_zip (Nat.le_of_eq h)
  · exact List.map_snd_zip (Nat.le_of_eq h.symm)

theorem map_of_zip_preOrder (h : pair.1.size = pair.2.size) :
    (pair.1.preOrder.zip pair.2.preOrder).map side.of = (side.of pair).preOrder := by
  rw [map_of_zip (by rw [Place.length_preOrder, Place.length_preOrder, h])]
  cases side <;> rfl

theorem of_mem_preOrder (h : u ∈ pair.1.preOrder.zip pair.2.preOrder) :
    side.of u ∈ (side.of pair).preOrder := by
  cases side
  · exact (List.of_mem_zip h).1
  · exact (List.of_mem_zip h).2

end Side

theorem Store.admits_iff_free (st : Store) (pair : Place × Place) :
    st.admits pair.1 pair.2 = true ↔ ∀ side : Side, side.isMapped st (side.of pair) = false := by
  rw [admits, Bool.and_eq_true, Bool.not_eq_true', Bool.not_eq_true', Side.forall_iff]
  rfl

theorem TopDown.isUnique_iff (st : Store) (pair : Place × Place) :
    isUnique st pair = true ↔
      ∀ side : Side, ((side.marks st).lookup (side.of pair).id).times = 1 := by
  rw [isUnique, Bool.and_eq_true, beq_iff_eq, beq_iff_eq, Side.forall_iff]
  rfl

namespace Store

section Agrees

variable {mix : Mix} {a b : Ast} {st : Store} {pair u : Place × Place}
  (h : st.Agrees (Rose.wrap mix a) (Rose.wrap mix b))

include h

theorem Agrees.of_inside (hpair : pair ∈ st.pairs.toList) (side : Side) :
    side.of pair ∈ nodes (Rose.wrap mix (side.of (a, b))) := by
  cases side
  · exact h.src.inside pair hpair
  · exact h.dst.inside pair.swap (List.mem_map_of_mem hpair)

theorem Agrees.isMapped_iff (side : Side) {p : Place}
    (hp : p ∈ nodes (Rose.wrap mix (side.of (a, b)))) :
    side.isMapped st p = true ↔ ∃ pair ∈ st.pairs.toList, side.of pair = p := by
  cases side
  · refine (h.isMappedSrc_iff hp).trans ⟨fun ⟨d, hd⟩ => ⟨_, hd, rfl⟩, ?_⟩
    rintro ⟨pair, hpair, rfl⟩
    exact ⟨pair.2, hpair⟩
  · refine (h.isMappedDst_iff hp).trans ⟨fun ⟨s, hs⟩ => ⟨_, hs, rfl⟩, ?_⟩
    rintro ⟨pair, hpair, rfl⟩
    exact ⟨pair.1, hpair⟩

theorem Agrees.isMapped_of_mem (hpair : pair ∈ st.pairs.toList) (side : Side) :
    side.isMapped st (side.of pair) = true :=
  (h.isMapped_iff side (h.of_inside hpair side)).2 ⟨pair, hpair, rfl⟩

theorem Agrees.eq_of_mem_pairs (side : Side) (hpair : pair ∈ st.pairs.toList)
    (hu : u ∈ st.pairs.toList) (hid : (side.of pair).id = (side.of u).id) : pair = u := by
  cases side
  · exact List.inj_on_of_nodup_map h.src.distinct hpair hu hid
  · have hdistinct := h.dst.distinct
    rw [List.map_map] at hdistinct
    exact List.inj_on_of_nodup_map hdistinct hpair hu hid

end Agrees

end Store

end Relocate.Matching
