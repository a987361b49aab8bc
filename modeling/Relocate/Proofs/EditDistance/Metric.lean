import Relocate.Proofs.EditDistance.Distance
import Relocate.Proofs.EditDistance.Diagonal

/-!
# The edit distance as a metric

Edit mappings can be turned around, and two of them that meet in a middle tree can be joined: what
is left out or relabelled on the way from the first tree to the last is left out or relabelled on
one of the two stretches. A mapping that costs nothing pairs every number with itself. So the
distance is symmetric, obeys the triangle inequality, and vanishes only between trees with the same
shape and the same contents.
-/

set_option autoImplicit false

namespace Relocate

namespace Reduced

def shape (A : Reduced) : Rose Content := A.map fun u => u.label.node.content

end Reduced

namespace EditDistance

open Address

variable {α β γ : Type} {M N : Finset (Address × Address)}

theorem EditMapping.swap {A : Rose α} {B : Rose β} (h : EditMapping A B M) :
    EditMapping B A (M.image Prod.swap) where
  within := by
    intro u hu
    obtain ⟨v, hv, rfl⟩ := Finset.mem_image.1 hu
    exact (h.within v hv).symm
  oneToOne := by
    intro u hu v hv
    obtain ⟨x, hx, rfl⟩ := Finset.mem_image.1 hu
    obtain ⟨y, hy, rfl⟩ := Finset.mem_image.1 hv
    exact (h.oneToOne x hx y hy).symm
  above := by
    intro u hu v hv
    obtain ⟨x, hx, rfl⟩ := Finset.mem_image.1 hu
    obtain ⟨y, hy, rfl⟩ := Finset.mem_image.1 hv
    exact (h.above x hx y hy).symm
  before := by
    intro u hu v hv
    obtain ⟨x, hx, rfl⟩ := Finset.mem_image.1 hu
    obtain ⟨y, hy, rfl⟩ := Finset.mem_image.1 hv
    exact (h.before x hx y hy).symm

theorem mappingCost_swap (A B : Reduced) (M : Finset (Address × Address)) :
    mappingCost B A (M.image Prod.swap) = mappingCost A B M := by
  have hsources : (M.image Prod.swap).image Prod.fst = M.image Prod.snd := by
    rw [Finset.image_image]
    rfl
  have htargets : (M.image Prod.swap).image Prod.snd = M.image Prod.fst := by
    rw [Finset.image_image]
    rfl
  have hrelabel : ((M.image Prod.swap).filter fun u => B.content? u.1 ≠ A.content? u.2).card =
      (M.filter fun u => A.content? u.1 ≠ B.content? u.2).card := by
    rw [Finset.filter_image, Finset.card_image_of_injective _ Prod.swap_injective]
    congr 1
    apply Finset.filter_congr
    intro u _
    exact ne_comm
  rw [mappingCost, mappingCost, hsources, htargets, hrelabel]
  omega

/-- Pairs of the two mappings that meet in a node between them. -/
def meetings (M N : Finset (Address × Address)) :
    Finset ((Address × Address) × (Address × Address)) :=
  (M ×ˢ N).filter fun w => w.1.2 = w.2.1

def joined (M N : Finset (Address × Address)) : Finset (Address × Address) :=
  (meetings M N).image fun w => (w.1.1, w.2.2)

theorem mem_meetings {w : (Address × Address) × (Address × Address)} :
    w ∈ meetings M N ↔ w.1 ∈ M ∧ w.2 ∈ N ∧ w.1.2 = w.2.1 := by
  rw [meetings, Finset.mem_filter, Finset.mem_product, and_assoc]

theorem mem_joined {u : Address × Address} :
    u ∈ joined M N ↔ ∃ y, (u.1, y) ∈ M ∧ (y, u.2) ∈ N := by
  rw [joined, Finset.mem_image]
  constructor
  · rintro ⟨⟨⟨x, y⟩, y', z⟩, hw, rfl⟩
    obtain ⟨hM, hN, hmeet⟩ := mem_meetings.1 hw
    obtain rfl : y = y' := hmeet
    exact ⟨y, hM, hN⟩
  · rintro ⟨y, hM, hN⟩
    exact ⟨((u.1, y), (y, u.2)), mem_meetings.2 ⟨hM, hN, rfl⟩, rfl⟩

theorem EditMapping.joined {A : Rose α} {B : Rose β} {C : Rose γ} (h : EditMapping A B M)
    (k : EditMapping B C N) : EditMapping A C (joined M N) where
  within := by
    intro u hu
    obtain ⟨y, hM, hN⟩ := mem_joined.1 hu
    exact ⟨(h.within _ hM).1, (k.within _ hN).2⟩
  oneToOne := by
    intro u hu v hv
    obtain ⟨y, hM, hN⟩ := mem_joined.1 hu
    obtain ⟨z, hM', hN'⟩ := mem_joined.1 hv
    exact (h.oneToOne _ hM _ hM').trans (k.oneToOne _ hN _ hN')
  above := by
    intro u hu v hv
    obtain ⟨y, hM, hN⟩ := mem_joined.1 hu
    obtain ⟨z, hM', hN'⟩ := mem_joined.1 hv
    exact (h.above _ hM _ hM').trans (k.above _ hN _ hN')
  before := by
    intro u hu v hv
    obtain ⟨y, hM, hN⟩ := mem_joined.1 hu
    obtain ⟨z, hM', hN'⟩ := mem_joined.1 hv
    exact (h.before _ hM _ hM').trans (k.before _ hN _ hN')

section Meetings

variable {A B C : Reduced}

theorem fst_injOn_meetings (k : EditMapping B C N) :
    Set.InjOn Prod.fst (meetings M N : Set ((Address × Address) × (Address × Address))) := by
  intro w hw v hv hwv
  obtain ⟨-, hwN, hwy⟩ := mem_meetings.1 hw
  obtain ⟨-, hvN, hvy⟩ := mem_meetings.1 hv
  have hsource : w.2.1 = v.2.1 := by rw [← hwy, ← hvy, hwv]
  exact Prod.ext hwv (Prod.ext hsource ((k.oneToOne _ hwN _ hvN).1 hsource))

theorem snd_injOn_meetings (h : EditMapping A B M) :
    Set.InjOn Prod.snd (meetings M N : Set ((Address × Address) × (Address × Address))) := by
  intro w hw v hv hwv
  obtain ⟨hwM, -, hwy⟩ := mem_meetings.1 hw
  obtain ⟨hvM, -, hvy⟩ := mem_meetings.1 hv
  have htarget : w.1.2 = v.1.2 := by rw [hwy, hvy, hwv]
  exact Prod.ext (Prod.ext ((h.oneToOne _ hwM _ hvM).2 htarget) htarget) hwv

theorem card_joined (h : EditMapping A B M) (k : EditMapping B C N) :
    (joined M N).card = (meetings M N).card := by
  apply Finset.card_image_of_injOn
  intro w hw v hv hwv
  obtain ⟨hwM, -, -⟩ := mem_meetings.1 hw
  obtain ⟨hvM, -, -⟩ := mem_meetings.1 hv
  obtain ⟨hsource, -⟩ := Prod.ext_iff.1 hwv
  exact fst_injOn_meetings k hw hv (Prod.ext hsource ((h.oneToOne _ hwM _ hvM).1 hsource))

/-- A middle node that both mappings use is where two pairs meet. -/
theorem card_add_card_le (h : EditMapping A B M) (k : EditMapping B C N) :
    M.card + N.card ≤ (joined M N).card + B.size := by
  have hboth : (M.image Prod.snd ∩ N.image Prod.fst).card ≤ (joined M N).card := by
    rw [card_joined h k]
    refine le_trans (Finset.card_le_card ?_) (Finset.card_image_le (f := fun w => w.1.2))
    intro y hy
    obtain ⟨hyM, hyN⟩ := Finset.mem_inter.1 hy
    obtain ⟨u, hu, rfl⟩ := Finset.mem_image.1 hyM
    obtain ⟨v, hv, hvu⟩ := Finset.mem_image.1 hyN
    exact Finset.mem_image.2 ⟨(u, v), mem_meetings.2 ⟨hu, hv, hvu.symm⟩, rfl⟩
  have heither : (M.image Prod.snd ∪ N.image Prod.fst).card ≤ B.size := by
    rw [← Rose.length_addresses]
    refine le_trans (Finset.card_le_card ?_) (List.toFinset_card_le B.addresses)
    intro y hy
    rcases Finset.mem_union.1 hy with hy | hy
    · obtain ⟨u, hu, rfl⟩ := Finset.mem_image.1 hy
      exact List.mem_toFinset.2 (h.within u hu).2
    · obtain ⟨v, hv, rfl⟩ := Finset.mem_image.1 hy
      exact List.mem_toFinset.2 (k.within v hv).1
  have hcount := Finset.card_union_add_card_inter (M.image Prod.snd) (N.image Prod.fst)
  rw [h.card_targets, k.card_sources] at hcount
  omega

/-- Contents that differ at the ends differ on one of the two stretches. -/
theorem card_relabelled_joined_le (h : EditMapping A B M) (k : EditMapping B C N) :
    ((joined M N).filter fun u => A.content? u.1 ≠ C.content? u.2).card ≤
      (M.filter fun u => A.content? u.1 ≠ B.content? u.2).card +
      (N.filter fun u => B.content? u.1 ≠ C.content? u.2).card := by
  let first := (meetings M N).filter fun w => A.content? w.1.1 ≠ B.content? w.1.2
  let second := (meetings M N).filter fun w => B.content? w.2.1 ≠ C.content? w.2.2
  have hsplit : ((joined M N).filter fun u => A.content? u.1 ≠ C.content? u.2).card ≤
      (first ∪ second).card := by
    rw [joined, Finset.filter_image]
    refine le_trans Finset.card_image_le (Finset.card_le_card ?_)
    intro w hw
    obtain ⟨hmeet, hne⟩ := Finset.mem_filter.1 hw
    by_cases hfirst : A.content? w.1.1 = B.content? w.1.2
    · apply Finset.mem_union_right
      refine Finset.mem_filter.2 ⟨hmeet, ?_⟩
      rwa [← (mem_meetings.1 hmeet).2.2, ← hfirst]
    · exact Finset.mem_union_left _ (Finset.mem_filter.2 ⟨hmeet, hfirst⟩)
  have hfirst : first.card ≤ (M.filter fun u => A.content? u.1 ≠ B.content? u.2).card := by
    apply Finset.card_le_card_of_injOn Prod.fst
    · intro w hw
      obtain ⟨hmeet, hne⟩ := Finset.mem_filter.1 hw
      exact Finset.mem_filter.2 ⟨(mem_meetings.1 hmeet).1, hne⟩
    · exact (fst_injOn_meetings k).mono (Finset.filter_subset _ _)
  have hsecond : second.card ≤ (N.filter fun u => B.content? u.1 ≠ C.content? u.2).card := by
    apply Finset.card_le_card_of_injOn Prod.snd
    · intro w hw
      obtain ⟨hmeet, hne⟩ := Finset.mem_filter.1 hw
      exact Finset.mem_filter.2 ⟨(mem_meetings.1 hmeet).2.1, hne⟩
    · exact (snd_injOn_meetings h).mono (Finset.filter_subset _ _)
  have hunion := Finset.card_union_le first second
  omega

theorem least_swap_le (hA : A.Numbered) (hB : B.Numbered) :
    (alignment B A).least 1 B.size 1 A.size ≤ (alignment A B).least 1 A.size 1 B.size := by
  obtain ⟨⟨M, hM, hcost⟩, -⟩ := isLeast_least hA hB
  exact (isLeast_least hB hA).2 ⟨M.image Prod.swap, hM.swap, by rw [mappingCost_swap, hcost]⟩

theorem mappingCost_joined_le (hA : A.Numbered) (hB : B.Numbered) (hC : C.Numbered)
    (h : EditMapping A B M) (k : EditMapping B C N) :
    mappingCost A C (joined M N) ≤ mappingCost A B M + mappingCost B C N := by
  have hM := h.mappingCost_add_card hA hB
  have hN := k.mappingCost_add_card hB hC
  have hjoined := (h.joined k).mappingCost_add_card hA hC
  have hcount := card_add_card_le h k
  have hrelabel := card_relabelled_joined_le h k
  omega

theorem least_le_add (hA : A.Numbered) (hB : B.Numbered) (hC : C.Numbered) :
    (alignment A C).least 1 A.size 1 C.size ≤
      (alignment A B).least 1 A.size 1 B.size + (alignment B C).least 1 B.size 1 C.size := by
  obtain ⟨⟨M, hM, hMcost⟩, -⟩ := isLeast_least hA hB
  obtain ⟨⟨N, hN, hNcost⟩, -⟩ := isLeast_least hB hC
  rw [← hMcost, ← hNcost]
  exact le_trans ((isLeast_least hA hC).2 ⟨joined M N, hM.joined hN, rfl⟩)
    (mappingCost_joined_le hA hB hC hM hN)

end Meetings

section Free

variable {A B : Reduced}

theorem agree_of_least_eq_zero (hA : A.Numbered) (hB : B.Numbered)
    (h : (alignment A B).least 1 A.size 1 B.size = 0) :
    A.size = B.size ∧ ∀ k, 1 ≤ k → k ≤ A.size →
      A.leftmost k = B.leftmost k ∧ (alignment A B).changeCost k k = 0 := by
  obtain ⟨N, hN, hw, hgain⟩ := (alignment A B).exists_gain_eq 1 A.size 1 B.size
  have hle := (alignment A B).gain_le_card N
  have hrows := Problem.card_le_rows hN hw
  have hcols := Problem.card_le_cols hN hw
  have hsize : A.size = B.size := by omega
  rw [← hsize] at hw
  have hfree : ∀ u ∈ N, (alignment A B).changeCost u.1 u.2 = 0 := by
    have hsum : (alignment A B).gain N = ∑ _u ∈ N, 2 := by
      rw [Finset.sum_const_nat fun _ _ => rfl]
      omega
    intro u hu
    have := (Finset.sum_eq_sum_iff_of_le fun v _ => Nat.sub_le 2 _).1 hsum u hu
    omega
  have hsources : N.image Prod.fst = Finset.Icc 1 A.size := by
    apply Finset.eq_of_subset_of_card_le
    · intro k hk
      obtain ⟨u, hu, rfl⟩ := Finset.mem_image.1 hk
      exact Finset.mem_Icc.2 (hw u hu).1
    · rw [Finset.card_image_of_injOn hN.fst_injOn, Nat.card_Icc]
      omega
  have htargets : N.image Prod.snd = Finset.Icc 1 A.size := by
    apply Finset.eq_of_subset_of_card_le
    · intro k hk
      obtain ⟨u, hu, rfl⟩ := Finset.mem_image.1 hk
      exact Finset.mem_Icc.2 (hw u hu).2
    · rw [Finset.card_image_of_injOn hN.snd_injOn, Nat.card_Icc]
      omega
  have hpair : ∀ k, 1 ≤ k → k ≤ A.size → (k, k) ∈ N := by
    intro k hk hkn
    obtain ⟨⟨i, j⟩, hij, rfl⟩ := Finset.mem_image.1 (hsources ▸ Finset.mem_Icc.2 ⟨hk, hkn⟩)
    have hself : i = j := by
      apply hN.eq_of_mem hw _ _ i j hij
      · intro l hl hln
        obtain ⟨u, hu, rfl⟩ := Finset.mem_image.1 (hsources ▸ Finset.mem_Icc.2 ⟨hl, hln⟩)
        exact ⟨u.2, hu⟩
      · intro l hl hln
        obtain ⟨u, hu, rfl⟩ := Finset.mem_image.1 (htargets ▸ Finset.mem_Icc.2 ⟨hl, hln⟩)
        exact ⟨u.1, hu⟩
    rwa [← hself] at hij
  refine ⟨hsize, fun k hk hkn => ⟨?_, hfree _ (hpair k hk hkn)⟩⟩
  -- an interval that began earlier on one side only would hold a number that the other one does not
  have hnested : ∀ i, 1 ≤ i → i < k → (A.leftmost k ≤ i ↔ B.leftmost k ≤ i) := by
    intro i hi hik
    have := hN.nested (i, i) (hpair i hi (by omega)) (k, k) (hpair k hk hkn) hik
    rwa [srcLeftmost_alignment, dstLeftmost_alignment] at this
  have hApos := hA.leftmost_pos hk hkn
  have hBpos := hB.leftmost_pos hk (hsize ▸ hkn)
  have hAle := hA.leftmost_le hk hkn
  have hBle := hB.leftmost_le hk (hsize ▸ hkn)
  have hAB := hnested (A.leftmost k) hApos
  have hBA := hnested (B.leftmost k) hBpos
  omega

theorem map_items_eq_iff (takenA takenB : Nat → Bool) (a b : Place) :
    (Reduced.ofPlace takenA a).items.map (Item.map fun p => p.node.content) =
        (Reduced.ofPlace takenB b).items.map (Item.map fun p => p.node.content) ↔
      (Reduced.ofPlace takenA a).shape = (Reduced.ofPlace takenB b).shape := by
  have hitems : ∀ t : Rose Place, (Reduced.items (Rose.numberPost 0 t)).map
      (Item.map fun p => p.node.content) =
        (Rose.numberPost 0 (t.map fun p => p.node.content)).postOrder.map Rose.label := by
    intro t
    rw [Rose.numberPost_map, Rose.map_label_postOrder, Reduced.items]
  have hshape : ∀ t : Rose Place,
      Reduced.shape (Rose.numberPost 0 t) = t.map fun p => p.node.content := by
    intro t
    rw [Reduced.shape, ← Rose.map_map Item.label fun p : Place => p.node.content,
      Rose.map_label_numberPost]
  rw [Reduced.ofPlace, Reduced.ofPlace, hitems, hitems, hshape, hshape]
  exact ⟨Rose.eq_of_items_eq, fun h => by rw [h]⟩

theorem map_items_eq_of_least_eq_zero (hA : A.Numbered) (hB : B.Numbered)
    (h : (alignment A B).least 1 A.size 1 B.size = 0) :
    A.items.map (Item.map fun p => p.node.content) =
      B.items.map (Item.map fun p => p.node.content) := by
  obtain ⟨hsize, hagree⟩ := agree_of_least_eq_zero hA hB h
  apply List.ext_getElem?
  intro i
  rw [List.getElem?_map, List.getElem?_map]
  by_cases hi : i < A.size
  · obtain ⟨hleft, hfree⟩ := hagree (i + 1) (by omega) (by omega)
    obtain ⟨u, -, hu, -, hul, hui⟩ := hA.exists_spot (k := i + 1) (by omega) (by omega)
    obtain ⟨v, -, hv, -, hvl, hvi⟩ := hB.exists_spot (k := i + 1) (by omega) (by omega)
    rw [Nat.add_sub_cancel] at hui hvi
    have hcontent : u.2.label.node.content = v.2.label.node.content := by
      rw [Problem.changeCost] at hfree
      simpa [alignment, Reduced.items, hui, hvi, Rose.sameContent] using hfree
    rw [Reduced.items, Reduced.items, hui, hvi]
    simp only [Option.map_some, Item.map, hcontent, hu, hv, hul, hvl, hleft]
  · have hnone : ∀ C : Reduced, C.size = A.size → C.items[i]? = none := by
      intro C hC
      rw [List.getElem?_eq_none_iff, Reduced.items, List.length_map, Rose.length_postOrder]
      omega
    rw [hnone A rfl, hnone B hsize.symm]

theorem distance_eq_zero_iff (takenA takenB : Nat → Bool) (a b : Place) :
    (alignment (.ofPlace takenA a) (.ofPlace takenB b)).distance = 0 ↔
      (Reduced.ofPlace takenA a).shape = (Reduced.ofPlace takenB b).shape := by
  rw [distance_alignment, ← map_items_eq_iff]
  constructor
  · exact map_items_eq_of_least_eq_zero (numbered_ofPlace takenA a) (numbered_ofPlace takenB b)
  · intro h
    have hdiagonal := diagonal_alignment h fun _ _ => id
    rw [← size_eq_of_map_eq h]
    exact hdiagonal.least_eq_zero

end Free

/-- Between reduced trees, the edit distance is 0 exactly for trees that agree in shape and
contents, does not depend on the direction, and is never longer than a detour. -/
theorem distance_metric (takenA takenB takenC : Nat → Bool) (a b c : Place) :
    ((alignment (.ofPlace takenA a) (.ofPlace takenB b)).distance = 0 ↔
      (Reduced.ofPlace takenA a).shape = (Reduced.ofPlace takenB b).shape) ∧
    (alignment (.ofPlace takenA a) (.ofPlace takenB b)).distance =
      (alignment (.ofPlace takenB b) (.ofPlace takenA a)).distance ∧
    (alignment (.ofPlace takenA a) (.ofPlace takenC c)).distance ≤
      (alignment (.ofPlace takenA a) (.ofPlace takenB b)).distance +
        (alignment (.ofPlace takenB b) (.ofPlace takenC c)).distance := by
  have hA := numbered_ofPlace takenA a
  have hB := numbered_ofPlace takenB b
  have hC := numbered_ofPlace takenC c
  refine ⟨distance_eq_zero_iff takenA takenB a b, ?_, ?_⟩
  · rw [distance_alignment, distance_alignment]
    exact le_antisymm (least_swap_le hB hA) (least_swap_le hA hB)
  · rw [distance_alignment, distance_alignment, distance_alignment]
    exact least_le_add hA hB hC

end EditDistance

end Relocate
