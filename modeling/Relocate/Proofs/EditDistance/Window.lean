import Mathlib.Algebra.BigOperators.Group.Finset.Basic
import Mathlib.Algebra.Order.BigOperators.Group.Finset
import Mathlib.Order.Interval.Finset.Nat
import Mathlib.Order.Lattice.Nat
import Relocate.EditDistance.Tables

/-!
# Least costs of windows

A window is an interval of source numbers beside an interval of destination numbers, both of them
whole forests. What is left of an edit mapping inside a window is a set of pairs that keeps the
post-order and the nesting of intervals. The least cost of such sets obeys the recurrences by which
the forest tables are filled: the last two nodes of a window are deleted, inserted, or aligned with
each other, and in the last case the set falls into the part below them and the part before them.
-/

set_option autoImplicit false

namespace Relocate.EditDistance

variable {α : Type}

/-- Each number from 1 to `n` begins an interval at its leftmost leaf, and these intervals nest. -/
structure Nested (n : Nat) (l : Nat → Nat) : Prop where
  pos : ∀ k, 1 ≤ k → k ≤ n → 1 ≤ l k
  le : ∀ k, 1 ≤ k → k ≤ n → l k ≤ k
  nested : ∀ j k, 1 ≤ j → j ≤ k → k ≤ n → l k ≤ j → l k ≤ l j

namespace Problem

variable {p : Problem α} {a i b j : Nat} {M N : Finset (Nat × Nat)}

structure Ordered (p : Problem α) : Prop where
  src : Nested p.src.size p.srcLeftmost
  dst : Nested p.dst.size p.dstLeftmost

/-- The pairs keep the post-order, and which of two nodes lies in the interval of the other. -/
structure Aligned (p : Problem α) (M : Finset (Nat × Nat)) : Prop where
  order : ∀ u ∈ M, ∀ v ∈ M, u.1 < v.1 ↔ u.2 < v.2
  nested : ∀ u ∈ M, ∀ v ∈ M, u.1 < v.1 → (p.srcLeftmost v.1 ≤ u.1 ↔ p.dstLeftmost v.2 ≤ u.2)

def Within (a i b j : Nat) (M : Finset (Nat × Nat)) : Prop :=
  ∀ u ∈ M, (a ≤ u.1 ∧ u.1 ≤ i) ∧ b ≤ u.2 ∧ u.2 ≤ j

/-- What the pairs save over deleting and inserting all their nodes. -/
def gain (p : Problem α) (M : Finset (Nat × Nat)) : Nat :=
  ∑ u ∈ M, (2 - p.changeCost u.1 u.2)

noncomputable def least (p : Problem α) (a i b j : Nat) : Nat :=
  sInf {c | ∃ M, p.Aligned M ∧ Within a i b j M ∧ c + p.gain M = (i + 1 - a) + (j + 1 - b)}

theorem changeCost_le (p : Problem α) (i j : Nat) : p.changeCost i j ≤ 1 := by
  unfold changeCost
  split
  · split <;> decide
  · exact Nat.le_refl 1

theorem Aligned.fst_injOn (h : p.Aligned M) : Set.InjOn Prod.fst (M : Set (Nat × Nat)) := by
  intro u hu v hv huv
  have forth := h.order u hu v hv
  have back := h.order v hv u hu
  exact Prod.ext huv (by omega)

theorem Aligned.snd_injOn (h : p.Aligned M) : Set.InjOn Prod.snd (M : Set (Nat × Nat)) := by
  intro u hu v hv huv
  have forth := h.order u hu v hv
  have back := h.order v hv u hu
  exact Prod.ext (by omega) huv

theorem Aligned.subset (h : p.Aligned M) (hN : N ⊆ M) : p.Aligned N where
  order := fun u hu v hv => h.order u (hN hu) v (hN hv)
  nested := fun u hu v hv => h.nested u (hN hu) v (hN hv)

theorem gain_le_card (p : Problem α) (M : Finset (Nat × Nat)) : p.gain M ≤ 2 * M.card := by
  rw [gain, Nat.mul_comm]
  exact Finset.sum_le_card_nsmul M _ 2 (fun u _ => Nat.sub_le 2 _)

theorem card_le_rows (h : p.Aligned M) (hw : Within a i b j M) : M.card ≤ i + 1 - a := by
  rw [← Finset.card_image_of_injOn h.fst_injOn, ← Nat.card_Icc]
  apply Finset.card_le_card
  intro x hx
  obtain ⟨u, hu, rfl⟩ := Finset.mem_image.1 hx
  exact Finset.mem_Icc.2 (hw u hu).1

theorem card_le_cols (h : p.Aligned M) (hw : Within a i b j M) : M.card ≤ j + 1 - b := by
  rw [← Finset.card_image_of_injOn h.snd_injOn, ← Nat.card_Icc]
  apply Finset.card_le_card
  intro x hx
  obtain ⟨u, hu, rfl⟩ := Finset.mem_image.1 hx
  exact Finset.mem_Icc.2 (hw u hu).2

theorem least_add_gain_le (h : p.Aligned M) (hw : Within a i b j M) :
    p.least a i b j + p.gain M ≤ (i + 1 - a) + (j + 1 - b) := by
  have hg := gain_le_card p M
  have hr := card_le_rows h hw
  have hc := card_le_cols h hw
  have hmem : (i + 1 - a) + (j + 1 - b) - p.gain M ∈
      {c | ∃ M, p.Aligned M ∧ Within a i b j M ∧ c + p.gain M = (i + 1 - a) + (j + 1 - b)} :=
    ⟨M, h, hw, by omega⟩
  have hle := Nat.sInf_le hmem
  rw [least]
  omega

theorem exists_gain_eq (p : Problem α) (a i b j : Nat) :
    ∃ M, p.Aligned M ∧ Within a i b j M ∧
      p.least a i b j + p.gain M = (i + 1 - a) + (j + 1 - b) := by
  apply Nat.sInf_mem (s := {c | ∃ M, p.Aligned M ∧ Within a i b j M ∧
    c + p.gain M = (i + 1 - a) + (j + 1 - b)})
  refine ⟨(i + 1 - a) + (j + 1 - b), ∅, ⟨by simp, by simp⟩, by simp [Within], by simp [gain]⟩

theorem least_no_rows (p : Problem α) (b j : Nat) (h : i < a) : p.least a i b j = j + 1 - b := by
  obtain ⟨M, -, hw, hM⟩ := exists_gain_eq p a i b j
  have hempty : M = ∅ := by
    apply Finset.eq_empty_of_forall_notMem
    intro u hu
    have := hw u hu
    omega
  rw [hempty] at hM
  simp only [gain, Finset.sum_empty] at hM
  omega

theorem least_no_cols (p : Problem α) (a i : Nat) (h : j < b) : p.least a i b j = i + 1 - a := by
  obtain ⟨M, -, hw, hM⟩ := exists_gain_eq p a i b j
  have hempty : M = ∅ := by
    apply Finset.eq_empty_of_forall_notMem
    intro u hu
    have := hw u hu
    omega
  rw [hempty] at hM
  simp only [gain, Finset.sum_empty] at hM
  omega

theorem Within.mono {a' i' b' j' : Nat} (h : Within a i b j M) (ha : a' ≤ a) (hi : i ≤ i')
    (hb : b' ≤ b) (hj : j ≤ j') : Within a' i' b' j' M := by
  intro u hu
  have := h u hu
  omega

theorem least_le_delete (p : Problem α) (b j : Nat) (hi : a ≤ i) (hi' : 1 ≤ i) :
    p.least a i b j ≤ p.least a (i - 1) b j + 1 := by
  obtain ⟨M, hM, hw, hg⟩ := exists_gain_eq p a (i - 1) b j
  have := least_add_gain_le hM (hw.mono (Nat.le_refl a) (Nat.sub_le i 1) (Nat.le_refl b)
    (Nat.le_refl j))
  omega

theorem least_le_insert (p : Problem α) (a i : Nat) (hj : b ≤ j) (hj' : 1 ≤ j) :
    p.least a i b j ≤ p.least a i b (j - 1) + 1 := by
  obtain ⟨M, hM, hw, hg⟩ := exists_gain_eq p a i b (j - 1)
  have := least_add_gain_le hM (hw.mono (Nat.le_refl a) (Nat.le_refl i) (Nat.le_refl b)
    (Nat.sub_le j 1))
  omega

theorem Aligned.insert_roots (h : p.Aligned M) (hw : Within a (i - 1) b (j - 1) M)
    (hi : p.srcLeftmost i = a) (hj : p.dstLeftmost j = b) (ha : 1 ≤ a) (hb : 1 ≤ b)
    (hai : a ≤ i) (hbj : b ≤ j) : p.Aligned (insert (i, j) M) := by
  constructor
  · intro u hu v hv
    rcases Finset.mem_insert.1 hu with rfl | hu <;> rcases Finset.mem_insert.1 hv with rfl | hv
    · simp
    · have := hw v hv
      simp only
      omega
    · have := hw u hu
      simp only
      omega
    · exact h.order u hu v hv
  · intro u hu v hv huv
    rcases Finset.mem_insert.1 hu with rfl | hu <;> rcases Finset.mem_insert.1 hv with rfl | hv
    · simp at huv
    · have := hw v hv
      simp only at huv
      omega
    · have := hw u hu
      simp only [hi, hj]
      omega
    · exact h.nested u hu v hv huv

theorem least_le_change (p : Problem α) (hi : p.srcLeftmost i = a) (hj : p.dstLeftmost j = b)
    (hai : a ≤ i) (hbj : b ≤ j) (ha : 1 ≤ a) (hb : 1 ≤ b) :
    p.least a i b j ≤ p.least a (i - 1) b (j - 1) + p.changeCost i j := by
  obtain ⟨M, hM, hw, hg⟩ := exists_gain_eq p a (i - 1) b (j - 1)
  have hnew : (i, j) ∉ M := by
    intro h
    have := hw _ h
    omega
  have hin : Within a i b j (insert (i, j) M) := by
    intro u hu
    rcases Finset.mem_insert.1 hu with rfl | hu
    · simp only
      omega
    · have := hw u hu
      omega
  have hle := least_add_gain_le (hM.insert_roots hw hi hj ha hb hai hbj) hin
  have hc := changeCost_le p i j
  have hsum : p.gain (insert (i, j) M) = (2 - p.changeCost i j) + p.gain M :=
    Finset.sum_insert hnew
  omega

/-- The last two trees can be aligned with each other beside what is aligned before them. -/
theorem Aligned.union_block (hM : p.Aligned M) (hp : p.Ordered)
    (hi : i ≤ p.src.size) (hj : j ≤ p.dst.size) (ha : 1 ≤ a) (hb : 1 ≤ b)
    (hai : a ≤ p.srcLeftmost i) (hbj : b ≤ p.dstLeftmost j)
    (hw : Within a (p.srcLeftmost i - 1) b (p.dstLeftmost j - 1) M)
    (hN : p.Aligned N) (hx : Within (p.srcLeftmost i) i (p.dstLeftmost j) j N) :
    p.Aligned (M ∪ N) := by
  constructor
  · intro u hu v hv
    rcases Finset.mem_union.1 hu with hu | hu <;> rcases Finset.mem_union.1 hv with hv | hv
    · exact hM.order u hu v hv
    · have := hw u hu
      have := hx v hv
      omega
    · have := hx u hu
      have := hw v hv
      omega
    · exact hN.order u hu v hv
  · intro u hu v hv huv
    rcases Finset.mem_union.1 hu with hu | hu <;> rcases Finset.mem_union.1 hv with hv | hv
    · exact hM.nested u hu v hv huv
    -- the interval of a later node stays within the later trees
    · have := hw u hu
      have hv' := hx v hv
      have := hp.src.nested v.1 i (by omega) (by omega) hi (by omega)
      have := hp.dst.nested v.2 j (by omega) (by omega) hj (by omega)
      omega
    · have := hx u hu
      have := hw v hv
      omega
    · exact hN.nested u hu v hv huv

theorem least_le_block (hp : p.Ordered) (hi : i ≤ p.src.size) (hj : j ≤ p.dst.size)
    (ha : 1 ≤ a) (hb : 1 ≤ b) (hai : a ≤ p.srcLeftmost i) (hbj : b ≤ p.dstLeftmost j)
    (hli : p.srcLeftmost i ≤ i) (hlj : p.dstLeftmost j ≤ j) :
    p.least a i b j ≤ p.least a (p.srcLeftmost i - 1) b (p.dstLeftmost j - 1) +
      p.least (p.srcLeftmost i) i (p.dstLeftmost j) j := by
  obtain ⟨M, hM, hw, hg⟩ := exists_gain_eq p a (p.srcLeftmost i - 1) b (p.dstLeftmost j - 1)
  obtain ⟨N, hN, hx, hh⟩ := exists_gain_eq p (p.srcLeftmost i) i (p.dstLeftmost j) j
  have hdis : Disjoint M N := by
    rw [Finset.disjoint_left]
    intro u hu hv
    have := hw u hu
    have := hx u hv
    omega
  have hin : Within a i b j (M ∪ N) := by
    intro u hu
    rcases Finset.mem_union.1 hu with hu | hu
    · have := hw u hu
      omega
    · have := hx u hu
      omega
  have hle := least_add_gain_le (hM.union_block hp hi hj ha hb hai hbj hw hN hx) hin
  have hsum : p.gain (M ∪ N) = p.gain M + p.gain N := Finset.sum_union hdis
  omega

theorem Aligned.last_mem (h : p.Aligned M) (hw : Within a i b j M) (hi : i ∈ M.image Prod.fst)
    (hj : j ∈ M.image Prod.snd) : (i, j) ∈ M := by
  obtain ⟨u, hu, rfl⟩ := Finset.mem_image.1 hi
  obtain ⟨v, hv, rfl⟩ := Finset.mem_image.1 hj
  have := h.order u hu v hv
  have := hw u hu
  have := hw v hv
  have heq : u.2 = v.2 := by omega
  rw [← heq]
  exact hu

/-- What can happen to the last two nodes of a window in a cheapest aligned set. -/
theorem least_cases (p : Problem α) (hai : a ≤ i) (hbj : b ≤ j) (ha : 1 ≤ a) (hb : 1 ≤ b) :
    p.least a (i - 1) b j + 1 ≤ p.least a i b j ∨
    p.least a i b (j - 1) + 1 ≤ p.least a i b j ∨
    ∃ M, p.Aligned M ∧ Within a i b j M ∧ (i, j) ∈ M ∧
      p.least a i b j + p.gain M = (i + 1 - a) + (j + 1 - b) := by
  obtain ⟨M, hM, hw, hg⟩ := exists_gain_eq p a i b j
  by_cases hi : i ∈ M.image Prod.fst
  · by_cases hj : j ∈ M.image Prod.snd
    · exact Or.inr (Or.inr ⟨M, hM, hw, hM.last_mem hw hi hj, hg⟩)
    · have hin : Within a i b (j - 1) M := by
        intro u hu
        have := hw u hu
        have hne : u.2 ≠ j := fun h => hj (Finset.mem_image.2 ⟨u, hu, h⟩)
        omega
      have := least_add_gain_le hM hin
      exact Or.inr (Or.inl (by omega))
  · have hin : Within a (i - 1) b j M := by
      intro u hu
      have := hw u hu
      have hne : u.1 ≠ i := fun h => hi (Finset.mem_image.2 ⟨u, hu, h⟩)
      omega
    have := least_add_gain_le hM hin
    exact Or.inl (by omega)

theorem Aligned.lt_of_mem (h : p.Aligned M) (hw : Within a i b j M) (hij : (i, j) ∈ M)
    {u : Nat × Nat} (hu : u ∈ M) (hne : u ≠ (i, j)) : u.1 < i ∧ u.2 < j := by
  have hb := hw u hu
  have hlt : u.1 < i := by
    have : u.1 ≠ i := fun e => hne (h.fst_injOn hu hij e)
    omega
  exact ⟨hlt, (h.order u hu _ hij).1 hlt⟩

theorem least_whole (p : Problem α) (hi : p.srcLeftmost i = a) (hj : p.dstLeftmost j = b)
    (hai : a ≤ i) (hbj : b ≤ j) (ha : 1 ≤ a) (hb : 1 ≤ b) :
    p.least a i b j = min (p.least a (i - 1) b (j - 1) + p.changeCost i j)
      (min (p.least a (i - 1) b j + 1) (p.least a i b (j - 1) + 1)) := by
  have hd := least_le_delete p b j hai (by omega)
  have hn := least_le_insert p a i hbj (by omega)
  have hc := least_le_change p hi hj hai hbj ha hb
  rcases least_cases p hai hbj ha hb with h | h | ⟨M, hM, hw, hij, hg⟩
  · omega
  · omega
  · have hin : Within a (i - 1) b (j - 1) (M.erase (i, j)) := by
      intro u hu
      obtain ⟨hne, hu⟩ := Finset.mem_erase.1 hu
      have := hM.lt_of_mem hw hij hu hne
      have := hw u hu
      omega
    have hle := least_add_gain_le (hM.subset (Finset.erase_subset _ M)) hin
    have hsum : (2 - p.changeCost i j) + p.gain (M.erase (i, j)) = p.gain M :=
      Finset.add_sum_erase M (fun u => 2 - p.changeCost u.1 u.2) hij
    have := changeCost_le p i j
    omega

theorem least_block (hp : p.Ordered) (hi : i ≤ p.src.size) (hj : j ≤ p.dst.size)
    (ha : 1 ≤ a) (hb : 1 ≤ b) (hai : a ≤ p.srcLeftmost i) (hbj : b ≤ p.dstLeftmost j)
    (hli : p.srcLeftmost i ≤ i) (hlj : p.dstLeftmost j ≤ j) :
    p.least a i b j =
      min (p.least a (p.srcLeftmost i - 1) b (p.dstLeftmost j - 1) +
        p.least (p.srcLeftmost i) i (p.dstLeftmost j) j)
      (min (p.least a (i - 1) b j + 1) (p.least a i b (j - 1) + 1)) := by
  have hd := least_le_delete p b j (hai.trans hli) (by omega)
  have hn := least_le_insert p a i (hbj.trans hlj) (by omega)
  have hc := least_le_block hp hi hj ha hb hai hbj hli hlj
  rcases least_cases p (hai.trans hli) (hbj.trans hlj) ha hb with h | h | ⟨M, hM, hw, hij, hg⟩
  · omega
  · omega
  -- the pairs below the last one and the pairs before it
  · have hbefore : Within a (p.srcLeftmost i - 1) b (p.dstLeftmost j - 1)
        (M.filter fun u => u.1 < p.srcLeftmost i) := by
      intro u hu
      obtain ⟨hu, hlt⟩ := Finset.mem_filter.1 hu
      have hne : u ≠ (i, j) := by
        rintro rfl
        exact absurd hli (Nat.not_le.2 hlt)
      have hlast := hM.lt_of_mem hw hij hu hne
      have hnest := hM.nested u hu _ hij hlast.1
      have := hw u hu
      simp only at hnest
      omega
    have hbelow : Within (p.srcLeftmost i) i (p.dstLeftmost j) j
        (M.filter fun u => ¬ u.1 < p.srcLeftmost i) := by
      intro u hu
      obtain ⟨hu, hge⟩ := Finset.mem_filter.1 hu
      have hb := hw u hu
      by_cases hne : u = (i, j)
      · rw [hne]
        simp only
        omega
      · have hlast := hM.lt_of_mem hw hij hu hne
        have hnest := hM.nested u hu _ hij hlast.1
        simp only at hnest
        omega
    have h₁ := least_add_gain_le (hM.subset (Finset.filter_subset _ M)) hbefore
    have h₂ := least_add_gain_le (hM.subset (Finset.filter_subset _ M)) hbelow
    have hsum : p.gain (M.filter fun u => u.1 < p.srcLeftmost i) +
        p.gain (M.filter fun u => ¬ u.1 < p.srcLeftmost i) = p.gain M :=
      Finset.sum_filter_add_sum_filter_not M _ _
    omega

end Problem

end Relocate.EditDistance
