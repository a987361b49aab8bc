import Mathlib.Algebra.BigOperators.Group.Finset.Piecewise
import Relocate.EditDistance.Alignment
import Relocate.Proofs.EditDistance.Window
import Relocate.Proofs.Tree.PostOrder

/-!
# Edit mappings

An edit mapping relates nodes of two trees one to one and keeps what is above what and what is left
of what. It costs 1 for each node that it leaves out, on either side, and 1 for each pair of nodes
with unequal content. All of this is said of addresses; between trees numbered in post-order the
edit mappings are exactly the aligned sets of numbers.
-/

set_option autoImplicit false

namespace Relocate

open Address

namespace Reduced

def content? (A : Reduced) (x : Address) : Option Content :=
  (A.subtree? x).map fun t => t.label.label.node.content

end Reduced

namespace EditDistance

variable {α β : Type}

structure EditMapping (A : Rose α) (B : Rose β) (M : Finset (Address × Address)) : Prop where
  within : ∀ u ∈ M, u.1 ∈ A.addresses ∧ u.2 ∈ B.addresses
  oneToOne : ∀ u ∈ M, ∀ v ∈ M, u.1 = v.1 ↔ u.2 = v.2
  above : ∀ u ∈ M, ∀ v ∈ M, Above u.1 v.1 ↔ Above u.2 v.2
  before : ∀ u ∈ M, ∀ v ∈ M, Before u.1 v.1 ↔ Before u.2 v.2

/-- Nodes left out on either side, and pairs with unequal content. -/
def mappingCost (A B : Reduced) (M : Finset (Address × Address)) : Nat :=
  (A.addresses.filter fun x => x ∉ M.image Prod.fst).length +
  (B.addresses.filter fun y => y ∉ M.image Prod.snd).length +
  (M.filter fun u => A.content? u.1 ≠ B.content? u.2).card

variable {A B : Reduced} {N : Finset (Nat × Nat)} {k : Nat}

theorem srcLeftmost_alignment (A B : Reduced) (k : Nat) :
    (alignment A B).srcLeftmost k = A.leftmost k := by
  simp [Problem.srcLeftmost, alignment, Rose.leftmost, Reduced.items]

theorem dstLeftmost_alignment (A B : Reduced) (k : Nat) :
    (alignment A B).dstLeftmost k = B.leftmost k := by
  simp [Problem.dstLeftmost, alignment, Rose.leftmost, Reduced.items]

@[simp] theorem size_src_alignment (A B : Reduced) : (alignment A B).src.size = A.size := by
  simp [alignment, Reduced.items, Rose.length_postOrder]

@[simp] theorem size_dst_alignment (A B : Reduced) : (alignment A B).dst.size = B.size := by
  simp [alignment, Reduced.items, Rose.length_postOrder]

theorem nested_leftmost {t : Rose (Item α)} (h : t.Numbered) : Nested t.size t.leftmost where
  pos := fun _ => h.leftmost_pos
  le := fun _ => h.leftmost_le
  nested := fun _ _ => h.leftmost_le_leftmost

theorem ordered_alignment (hA : A.Numbered) (hB : B.Numbered) : (alignment A B).Ordered where
  src := by
    rw [size_src_alignment, show (alignment A B).srcLeftmost = A.leftmost from
      funext (srcLeftmost_alignment A B)]
    exact nested_leftmost hA
  dst := by
    rw [size_dst_alignment, show (alignment A B).dstLeftmost = B.leftmost from
      funext (dstLeftmost_alignment A B)]
    exact nested_leftmost hB

def addressed (A B : Reduced) (u : Nat × Nat) : Address × Address := (A.address u.1, B.address u.2)

theorem lt_iff_above_or_before {t : Rose (Item α)} {i j : Nat} (h : t.Numbered) (hi : 1 ≤ i)
    (hin : i ≤ t.size) (hj : 1 ≤ j) (hjn : j ≤ t.size) :
    i < j ↔ Above (t.address j) (t.address i) ∨ Before (t.address i) (t.address j) := by
  rw [h.above_iff hi hin hj hjn, h.before_iff hi hin hj hjn]
  have := h.leftmost_le hj hjn
  omega

theorem leftmost_le_iff_above {t : Rose (Item α)} {i j : Nat} (h : t.Numbered) (hi : 1 ≤ i)
    (hin : i ≤ t.size) (hj : 1 ≤ j) (hjn : j ≤ t.size) (hij : i < j) :
    t.leftmost j ≤ i ↔ Above (t.address j) (t.address i) := by
  rw [h.above_iff hi hin hj hjn]
  omega

theorem aligned_of_editMapping (hA : A.Numbered) (hB : B.Numbered)
    (hN : Problem.Within 1 A.size 1 B.size N) (h : EditMapping A B (N.image (addressed A B))) :
    (alignment A B).Aligned N where
  order := by
    intro u hu v hv
    obtain ⟨⟨hu1, hu2⟩, hu3, hu4⟩ := hN u hu
    obtain ⟨⟨hv1, hv2⟩, hv3, hv4⟩ := hN v hv
    have mu := Finset.mem_image_of_mem (addressed A B) hu
    have mv := Finset.mem_image_of_mem (addressed A B) hv
    rw [lt_iff_above_or_before hA hu1 hu2 hv1 hv2, lt_iff_above_or_before hB hu3 hu4 hv3 hv4]
    exact or_congr (h.above _ mv _ mu) (h.before _ mu _ mv)
  nested := by
    intro u hu v hv huv
    obtain ⟨⟨hu1, hu2⟩, hu3, hu4⟩ := hN u hu
    obtain ⟨⟨hv1, hv2⟩, hv3, hv4⟩ := hN v hv
    have mu := Finset.mem_image_of_mem (addressed A B) hu
    have mv := Finset.mem_image_of_mem (addressed A B) hv
    have hlt : u.2 < v.2 := by
      rw [lt_iff_above_or_before hB hu3 hu4 hv3 hv4]
      rw [lt_iff_above_or_before hA hu1 hu2 hv1 hv2] at huv
      exact huv.imp (h.above _ mv _ mu).1 (h.before _ mu _ mv).1
    rw [srcLeftmost_alignment, dstLeftmost_alignment,
      leftmost_le_iff_above hA hu1 hu2 hv1 hv2 huv, leftmost_le_iff_above hB hu3 hu4 hv3 hv4 hlt]
    exact h.above _ mv _ mu

theorem editMapping_of_aligned (hA : A.Numbered) (hB : B.Numbered)
    (hN : Problem.Within 1 A.size 1 B.size N) (h : (alignment A B).Aligned N) :
    EditMapping A B (N.image (addressed A B)) := by
  have key : ∀ u ∈ N, ∀ v ∈ N, (u.1 < v.1 ↔ u.2 < v.2) ∧
      (u.1 < v.1 → (A.leftmost v.1 ≤ u.1 ↔ B.leftmost v.2 ≤ u.2)) := by
    intro u hu v hv
    have hnested := h.nested u hu v hv
    rw [srcLeftmost_alignment, dstLeftmost_alignment] at hnested
    exact ⟨h.order u hu v hv, hnested⟩
  constructor
  · intro w hw
    obtain ⟨u, hu, rfl⟩ := Finset.mem_image.1 hw
    obtain ⟨⟨hu1, hu2⟩, hu3, hu4⟩ := hN u hu
    exact ⟨hA.mem_addresses_iff.2 ⟨_, hu1, hu2, rfl⟩, hB.mem_addresses_iff.2 ⟨_, hu3, hu4, rfl⟩⟩
  all_goals
    intro w hw z hz
    obtain ⟨u, hu, rfl⟩ := Finset.mem_image.1 hw
    obtain ⟨v, hv, rfl⟩ := Finset.mem_image.1 hz
    obtain ⟨⟨hu1, hu2⟩, hu3, hu4⟩ := hN u hu
    obtain ⟨⟨hv1, hv2⟩, hv3, hv4⟩ := hN v hv
    have forth := key u hu v hv
    have back := key v hv u hu
    simp only [addressed]
  · rw [hA.address_inj hu1 hu2 hv1 hv2, hB.address_inj hu3 hu4 hv3 hv4]
    omega
  · rw [hA.above_iff hv1 hv2 hu1 hu2, hB.above_iff hv3 hv4 hu3 hu4]
    omega
  · have := hA.leftmost_le hv1 hv2
    have := hB.leftmost_le hv3 hv4
    rw [hA.before_iff hu1 hu2 hv1 hv2, hB.before_iff hu3 hu4 hv3 hv4]
    omega

/-- Between numbered trees, the edit mappings are the aligned sets of numbers. -/
theorem editMapping_image_iff (hA : A.Numbered) (hB : B.Numbered)
    (hN : Problem.Within 1 A.size 1 B.size N) :
    EditMapping A B (N.image (addressed A B)) ↔ (alignment A B).Aligned N :=
  ⟨aligned_of_editMapping hA hB hN, editMapping_of_aligned hA hB hN⟩

theorem EditMapping.exists_numbers {M : Finset (Address × Address)} (hA : A.Numbered)
    (hB : B.Numbered) (h : EditMapping A B M) :
    ∃ N, Problem.Within 1 A.size 1 B.size N ∧ M = N.image (addressed A B) := by
  refine ⟨((Finset.Icc 1 A.size) ×ˢ (Finset.Icc 1 B.size)).filter
    (fun u => addressed A B u ∈ M), ?_, ?_⟩
  · intro u hu
    simpa [and_assoc] using (Finset.mem_filter.1 hu).1
  · ext w
    simp only [Finset.mem_image, Finset.mem_filter, Finset.mem_product, Finset.mem_Icc]
    constructor
    · intro hw
      obtain ⟨i, hi, hin, hix⟩ := hA.mem_addresses_iff.1 (h.within w hw).1
      obtain ⟨j, hj, hjn, hjx⟩ := hB.mem_addresses_iff.1 (h.within w hw).2
      have heq : addressed A B (i, j) = w := Prod.ext hix hjx
      exact ⟨(i, j), ⟨⟨⟨hi, hin⟩, hj, hjn⟩, by rwa [heq]⟩, heq⟩
    · rintro ⟨u, ⟨-, hu⟩, rfl⟩
      exact hu

theorem length_filter_notMem {L : List Address} {S : Finset Address} (hL : L.Nodup)
    (hS : ∀ x ∈ S, x ∈ L) : (L.filter fun x => x ∉ S).length + S.card = L.length := by
  have hin : (L.filter fun x => x ∈ S).toFinset = S := by
    ext x
    simpa using hS x
  rw [← hin, List.toFinset_card_of_nodup (hL.filter _), hin, Nat.add_comm,
    List.length_eq_length_filter_add (l := L) (fun x => x ∈ S)]
  simp

theorem addressed_injOn (hA : A.Numbered) (hB : B.Numbered)
    (hN : Problem.Within 1 A.size 1 B.size N) :
    Set.InjOn (addressed A B) (N : Set (Nat × Nat)) := by
  intro u hu v hv huv
  obtain ⟨⟨hu1, hu2⟩, hu3, hu4⟩ := hN u hu
  obtain ⟨⟨hv1, hv2⟩, hv3, hv4⟩ := hN v hv
  exact Prod.ext ((hA.address_inj hu1 hu2 hv1 hv2).1 (congrArg Prod.fst huv))
    ((hB.address_inj hu3 hu4 hv3 hv4).1 (congrArg Prod.snd huv))

theorem content?_address (hA : A.Numbered) (hk : 1 ≤ k) (hn : k ≤ A.size) :
    A.content? (A.address k) = (A.items[k - 1]?).map fun u => u.label.node.content := by
  obtain ⟨u, hu, -, hua, -, hitem⟩ := hA.exists_spot hk hn
  obtain ⟨⟨x, s⟩, hs, rfl⟩ := List.mem_map.1 hu
  rw [Reduced.content?, ← hua, (Rose.subtree?_eq_some_iff A s x).2 hs, Reduced.items, hitem]
  rfl

theorem changeCost_alignment (hA : A.Numbered) (hB : B.Numbered) {u : Nat × Nat}
    (hu : (1 ≤ u.1 ∧ u.1 ≤ A.size) ∧ 1 ≤ u.2 ∧ u.2 ≤ B.size) :
    (alignment A B).changeCost u.1 u.2 =
      if A.content? (A.address u.1) ≠ B.content? (B.address u.2) then 1 else 0 := by
  obtain ⟨v, -, -, -, -, hv⟩ := hA.exists_spot hu.1.1 hu.1.2
  obtain ⟨w, -, -, -, -, hw⟩ := hB.exists_spot hu.2.1 hu.2.2
  rw [content?_address hA hu.1.1 hu.1.2, content?_address hB hu.2.1 hu.2.2, Problem.changeCost]
  simp only [alignment, List.getElem?_toArray, Reduced.items, hv, hw, Option.map_some, ne_eq,
    Option.some.injEq, Rose.sameContent, beq_iff_eq, ite_not]

section Cost

variable {M : Finset (Address × Address)}

theorem EditMapping.card_sources (h : EditMapping A B M) : (M.image Prod.fst).card = M.card := by
  apply Finset.card_image_of_injOn
  intro u hu v hv huv
  exact Prod.ext huv ((h.oneToOne u hu v hv).1 huv)

theorem EditMapping.card_targets (h : EditMapping A B M) : (M.image Prod.snd).card = M.card := by
  apply Finset.card_image_of_injOn
  intro u hu v hv huv
  exact Prod.ext ((h.oneToOne u hu v hv).2 huv) huv

theorem EditMapping.mappingCost_add_card (hA : A.Numbered) (hB : B.Numbered)
    (h : EditMapping A B M) : mappingCost A B M + 2 * M.card =
      A.size + B.size + (M.filter fun u => A.content? u.1 ≠ B.content? u.2).card := by
  have hrows := length_filter_notMem (S := M.image Prod.fst) hA.nodup_addresses (by
    intro x hx
    obtain ⟨u, hu, rfl⟩ := Finset.mem_image.1 hx
    exact (h.within u hu).1)
  have hcols := length_filter_notMem (S := M.image Prod.snd) hB.nodup_addresses (by
    intro x hx
    obtain ⟨u, hu, rfl⟩ := Finset.mem_image.1 hx
    exact (h.within u hu).2)
  rw [h.card_sources, Rose.length_addresses] at hrows
  rw [h.card_targets, Rose.length_addresses] at hcols
  rw [mappingCost]
  omega

end Cost

/-- The cost of an edit mapping is what its pairs leave of deleting and inserting everything. -/
theorem mappingCost_add_gain (hA : A.Numbered) (hB : B.Numbered)
    (hN : Problem.Within 1 A.size 1 B.size N) (h : (alignment A B).Aligned N) :
    mappingCost A B (N.image (addressed A B)) + (alignment A B).gain N = A.size + B.size := by
  have hmap := (editMapping_image_iff hA hB hN).2 h
  have hinj := addressed_injOn hA hB hN
  have hcost := hmap.mappingCost_add_card hA hB
  have hrelabel : ((N.image (addressed A B)).filter
      fun u => A.content? u.1 ≠ B.content? u.2).card =
        ∑ u ∈ N, (alignment A B).changeCost u.1 u.2 := by
    rw [Finset.card_filter, Finset.sum_image hinj]
    exact Finset.sum_congr rfl fun u hu => (changeCost_alignment hA hB (hN u hu)).symm
  have hpair : (alignment A B).gain N + ∑ u ∈ N, (alignment A B).changeCost u.1 u.2 =
      2 * N.card := by
    rw [Problem.gain, ← Finset.sum_add_distrib, Nat.mul_comm]
    apply Finset.sum_const_nat
    intro u _
    have := Problem.changeCost_le (alignment A B) u.1 u.2
    omega
  rw [hrelabel, Finset.card_image_of_injOn hinj] at hcost
  omega

theorem isLeast_least (hA : A.Numbered) (hB : B.Numbered) :
    IsLeast {c | ∃ M, EditMapping A B M ∧ mappingCost A B M = c}
      ((alignment A B).least 1 A.size 1 B.size) := by
  constructor
  · obtain ⟨N, hN, hw, hg⟩ := (alignment A B).exists_gain_eq 1 A.size 1 B.size
    have := mappingCost_add_gain hA hB hw hN
    exact ⟨_, (editMapping_image_iff hA hB hw).2 hN, by omega⟩
  · rintro c ⟨M, hM, rfl⟩
    obtain ⟨N, hw, rfl⟩ := hM.exists_numbers hA hB
    have hN := (editMapping_image_iff hA hB hw).1 hM
    have := mappingCost_add_gain hA hB hw hN
    have := Problem.least_add_gain_le hN hw
    omega

end EditDistance

end Relocate
