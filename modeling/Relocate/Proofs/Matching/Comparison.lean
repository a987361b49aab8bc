import Mathlib.Data.List.Nodup
import Relocate.Proofs.Matching.Pools

/-!
# Comparing the tallest subtrees

The parts of one comparison by name: its candidates, the store with these counted, the unique ones
among them and the store with those linked. A candidate that shares neither of its places with
another one is unique, and linking the unique ones commits it node by node.
-/

set_option autoImplicit false

namespace Relocate.Matching

namespace Store

variable {mix : Mix} {a b : Ast} {st : Store} {pair : Place × Place} {l : List (Place × Place)}

theorem accepts_subtrees
    (hinside : ∀ side : Side, side.of pair ∈ nodes (Rose.wrap mix (side.of (a, b))))
    (hsize : pair.1.size = pair.2.size)
    (hfree : ∀ side : Side, ∀ q ∈ (side.of pair).preOrder, side.isMapped st q = false) :
    st.Accepts (pair.1.preOrder.zip pair.2.preOrder) := by
  apply accepts_of_distinct
  · intro side
    rw [← Function.comp_def Place.id side.of, ← List.map_map, Side.map_of_zip_preOrder hsize,
      map_id_preOrder (hinside side)]
    exact List.nodup_range'
  · intro u hu
    exact (admits_iff_free st u).2 fun side => hfree side (side.of u) (Side.of_mem_preOrder hu)

theorem pairs_linkSubtrees
    (hinside : ∀ side : Side, side.of pair ∈ nodes (Rose.wrap mix (side.of (a, b))))
    (hsize : pair.1.size = pair.2.size)
    (hfree : ∀ side : Side, ∀ q ∈ (side.of pair).preOrder, side.isMapped st q = false) :
    (st.linkSubtrees pair.1 pair.2).pairs.toList =
      st.pairs.toList ++ pair.1.preOrder.zip pair.2.preOrder :=
  (accepts_subtrees hinside hsize hfree).pairs_linkAll

theorem not_below_singleton {t : Ast} {p q : Place} (hp : p ∈ nodes (Rose.wrap mix t))
    (hq : q ∈ nodes (Rose.wrap mix t)) (hout : q ∉ p.preOrder) : ¬ Marks.Below [p] q.id := by
  rintro ⟨r, hr, e, he, hid⟩
  rw [List.mem_singleton.1 hr] at he
  have heq := eq_of_id_eq (mem_nodes_of_mem_preOrder hp he) hq hid
  exact hout (by rwa [← heq])

theorem isMapped_linkSubtrees {side : Side} {t : Ast} {q : Place}
    (hp : side.of pair ∈ nodes (Rose.wrap mix t)) (hq : q ∈ nodes (Rose.wrap mix t))
    (hout : q ∉ (side.of pair).preOrder) :
    side.isMapped (st.linkSubtrees pair.1 pair.2) q = side.isMapped st q :=
  (grows_linkSubtrees (List.mem_singleton_self (side.of pair)) st).frame q.id
    (not_below_singleton hp hq hout)

/-- Of several pairs of subtrees, one that overlaps with no other is linked node by node. -/
theorem mem_pairs_foldl_linkSubtrees
    (hinside : ∀ pair ∈ l, ∀ side : Side, side.of pair ∈ nodes (Rose.wrap mix (side.of (a, b))))
    (hsize : pair.1.size = pair.2.size)
    (hapart : ∀ other ∈ l, other ≠ pair → ∀ side : Side,
      ∀ q ∈ (side.of pair).preOrder, q ∉ (side.of other).preOrder)
    (hfree : ∀ side : Side, ∀ q ∈ (side.of pair).preOrder, side.isMapped st q = false)
    (hmem : pair ∈ l) {u : Place × Place} (hu : u ∈ pair.1.preOrder.zip pair.2.preOrder) :
    u ∈ (l.foldl (fun st p => st.linkSubtrees p.1 p.2) st).pairs.toList := by
  have hpair := hinside pair hmem
  induction l generalizing st with
  | nil => cases hmem
  | cons first l ih =>
    have hrest := fun other hother => hinside other (List.mem_cons_of_mem first hother)
    rw [List.foldl_cons]
    by_cases heq : first = pair
    · have hreach := advances_foldl (f := fun st p => st.linkSubtrees p.1 p.2)
        (fun other hother st => advances_linkSubtrees st (hrest other hother .src)
          (hrest other hother .dst)) (st.linkSubtrees first.1 first.2)
      apply hreach.reaches.prefix_pairs.subset
      rw [heq, pairs_linkSubtrees hpair hsize hfree]
      exact List.mem_append_right _ hu
    · refine ih hrest (fun other hother => hapart other (List.mem_cons_of_mem first hother)) ?_
        (List.mem_of_ne_of_mem (Ne.symm heq) hmem)
      intro side q hq
      rw [isMapped_linkSubtrees (hinside first List.mem_cons_self side)
        (mem_nodes_of_mem_preOrder (hpair side) hq)
        (hapart first List.mem_cons_self heq side q hq)]
      exact hfree side q hq

end Store

theorem count_map_eq_one {α : Type} {f : α → Nat} {l : List α} {x : α} (hl : l.Nodup) (hx : x ∈ l)
    (honly : ∀ y ∈ l, f y = f x → y = x) : (l.map f).count (f x) = 1 := by
  induction l with
  | nil => cases hx
  | cons y l ih =>
    rw [List.nodup_cons] at hl
    have htail : ∀ z ∈ l, f z = f x → z = x := fun z hz => honly z (List.mem_cons_of_mem y hz)
    rw [List.map_cons, List.count_cons]
    by_cases hyx : y = x
    · subst hyx
      have hnone : f y ∉ l.map f := by
        intro hmem
        obtain ⟨z, hz, hfz⟩ := List.mem_map.1 hmem
        exact hl.1 (by rwa [← htail z hz hfz])
      rw [List.count_eq_zero.2 hnone, if_pos (beq_self_eq_true (f y))]
    · have hne : ¬ (f y == f x) = true := fun h => hyx (honly y List.mem_cons_self (beq_iff_eq.1 h))
      rw [if_neg hne, ih hl.2 (List.mem_of_ne_of_mem (Ne.symm hyx) hx) htail]

namespace TopDown

open Store

def candidates (σ : State) (h : Nat) : List (Place × Place) :=
  equalPairs (σ.src.ofHeight h) (σ.dst.ofHeight h)

def counted (σ : State) (h : Nat) : Store :=
  (candidates σ h).foldl (fun st p => st.bump p.1 p.2) σ.store

def unique (σ : State) (h : Nat) : List (Place × Place) :=
  (candidates σ h).filter (isUnique (counted σ h))

def linked (σ : State) (h : Nat) : Store :=
  (unique σ h).foldl (fun st p => st.linkSubtrees p.1 p.2) (counted σ h)

variable {mix : Mix} {a b : Ast} {S D : Wrapped} {σ : State} {h : Nat} {s d : Place}

theorem mem_candidates {pair : Place × Place} (hpair : pair ∈ candidates σ h) :
    pair.1 ∈ σ.src.ofHeight h ∧ pair.2 ∈ σ.dst.ofHeight h ∧
      pair.1.node.isomorphic pair.2.node = true :=
  mem_equalPairs.1 hpair

theorem of_mem_ofHeight (side : Side) {pair : Place × Place} (hpair : pair ∈ candidates σ h) :
    side.of pair ∈ (side.pool σ).ofHeight h := by
  cases side
  · exact (mem_candidates hpair).1
  · exact (mem_candidates hpair).2.1

theorem of_mem_pool (side : Side) {pair : Place × Place} (hpair : pair ∈ candidates σ h) :
    side.of pair ∈ side.pool σ :=
  (mem_ofHeight.1 (of_mem_ofHeight side hpair)).1

theorem mem_ofHeight_of_mem_map (side : Side) {p : Place}
    (hp : p ∈ (candidates σ h).map side.of) : p ∈ (side.pool σ).ofHeight h := by
  obtain ⟨pair, hpair, rfl⟩ := List.mem_map.1 hp
  exact of_mem_ofHeight side hpair

theorem counts_counted (side : Side) (σ : State) (h : Nat) :
    Marks.Counts ((candidates σ h).map side.of) (side.marks σ.store)
      (side.marks (counted σ h)) := by
  rw [counted, marks_foldl_bump]
  exact Marks.Counts.foldl_bumped (side.marks σ.store) _

theorem isMapped_counted (side : Side) (σ : State) (h id : Nat) :
    ((side.marks (counted σ h)).lookup id).isMapped =
      ((side.marks σ.store).lookup id).isMapped := by
  rw [counted, marks_foldl_bump]
  exact Marks.isMapped_foldl_bumped _ (side.marks σ.store) id

theorem counts_linked (side : Side) (σ : State) (h : Nat) :
    Marks.Counts ((candidates σ h).map side.of) (side.marks σ.store)
      (side.marks (linked σ h)) := by
  apply (counts_counted side σ h).grows
  apply foldl_rel (R := fun st st' => Marks.Grows _ (side.marks st) (side.marks st'))
    (fun st => Marks.Grows.refl _ (side.marks st)) Marks.Grows.trans
  intro pair hpair st
  exact grows_linkSubtrees (List.mem_map_of_mem (List.mem_filter.1 hpair).1) st

theorem nodup_equalPairs {srcs dsts : List Place} (hs : srcs.Nodup) (hd : dsts.Nodup) :
    (equalPairs srcs dsts).Nodup := by
  apply List.Nodup.sublist _ (hs.product hd)
  apply List.Sublist.flatMap_right
  intro s _
  exact List.filter_sublist.map (Prod.mk s)

structure State.Fresh (S D : Wrapped) (σ : State) : Prop where
  src : σ.src.Fresh S σ.store.src
  dst : σ.dst.Fresh D σ.store.dst

theorem State.Fresh.on (hσ : σ.Fresh (Rose.wrap mix a) (Rose.wrap mix b)) (side : Side) :
    (side.pool σ).Fresh (Rose.wrap mix (side.of (a, b))) (side.marks σ.store) := by
  cases side
  · exact hσ.src
  · exact hσ.dst

theorem State.Fresh.pairUp (hσ : σ.Fresh (Rose.wrap mix a) (Rose.wrap mix b)) (h : Nat) :
    (pairUp σ h).Fresh (Rose.wrap mix a) (Rose.wrap mix b) where
  src := hσ.src.reopened (counts_linked .src σ h) fun _ he => mem_ofHeight_of_mem_map .src he
  dst := hσ.dst.reopened (counts_linked .dst σ h) fun _ he => mem_ofHeight_of_mem_map .dst he

theorem State.Fresh.nodup_candidates (hσ : σ.Fresh S D) (h : Nat) : (candidates σ h).Nodup :=
  nodup_equalPairs ((nodup_of_nodup_flatMap hσ.src.nodup).filter _)
    ((nodup_of_nodup_flatMap hσ.dst.nodup).filter _)

section Unique

variable (hσ : σ.Fresh (Rose.wrap mix a) (Rose.wrap mix b)) {pair : Place × Place}
  (hpair : pair ∈ candidates σ h)
  (honly : ∀ side : Side, ∀ e ∈ candidates σ h, side.of e = side.of pair → e = pair)

include hσ hpair honly

theorem mem_unique : pair ∈ unique σ h := by
  rw [unique, List.mem_filter, isUnique_iff]
  refine ⟨hpair, fun side => ?_⟩
  rw [(hσ.on side).times_eq_count (counts_counted side σ h) (of_mem_pool side hpair), List.map_map]
  apply count_map_eq_one (f := Place.id ∘ side.of) (hσ.nodup_candidates h) hpair
  intro e he hid
  exact honly side e he (eq_of_id_eq ((hσ.on side).inside _ (of_mem_pool side he))
    ((hσ.on side).inside _ (of_mem_pool side hpair)) hid)

theorem mem_pairs_linked {u : Place × Place} (hsize : pair.1.size = pair.2.size)
    (hu : u ∈ pair.1.preOrder.zip pair.2.preOrder) : u ∈ (linked σ h).pairs.toList := by
  have hcand : ∀ e ∈ unique σ h, e ∈ candidates σ h := fun _ he => (List.mem_filter.1 he).1
  have hinside : ∀ e ∈ unique σ h, ∀ side : Side,
      side.of e ∈ nodes (Rose.wrap mix (side.of (a, b))) := fun e he side =>
    (hσ.on side).inside _ (of_mem_pool side (hcand e he))
  refine mem_pairs_foldl_linkSubtrees hinside hsize ?_ ?_ (mem_unique hσ hpair honly) hu
  · intro e he hne side q hq hq'
    exact hne (honly side e (hcand e he) (eq_of_mem_preOrder (hσ.on side).nodup
      (of_mem_pool side (hcand e he)) (of_mem_pool side hpair) hq' hq))
  · intro side q hq
    exact (isMapped_counted side σ h q.id).trans
      ((hσ.on side).idle q (mem_flatMap_preOrder (of_mem_pool side hpair) hq)).1

end Unique

end TopDown

end Relocate.Matching
