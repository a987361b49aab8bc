import Relocate.Proofs.EditDistance.Reading
import Relocate.Proofs.Tree.Relabel

/-!
# Scripts between copies

Two reduced trees that agree node by node are aligned for nothing, and a script that costs nothing
consists of free changes. They keep the order of all numbers, so each number is aligned with itself,
however many equal subtrees there are to choose from.
-/

set_option autoImplicit false

namespace Relocate

namespace EditDistance

variable {α : Type} {p : Problem α} {n : Nat} {M : Finset (Nat × Nat)} {ops : List EditOp}

theorem exists_change_of_scriptCost {op : EditOp} (h : scriptCost ops = 0) (hop : op ∈ ops) :
    ∃ i j, op = .change i j 0 := by
  have hcost : op.cost = 0 := by
    rw [scriptCost_eq_sum] at h
    exact List.sum_eq_zero_iff_forall_eq_nat.1 h op.cost (List.mem_map_of_mem hop)
  cases op with
  | delete i => cases hcost
  | insert j => cases hcost
  | change i j cost => exact ⟨i, j, by rw [show cost = 0 from hcost]⟩

/-- Pairs that keep the order and leave no number out pair each number with itself. -/
theorem Problem.Aligned.eq_of_mem (h : p.Aligned M) (hw : Problem.Within 1 n 1 n M)
    (hrows : ∀ k, 1 ≤ k → k ≤ n → ∃ j, (k, j) ∈ M) (hcols : ∀ k, 1 ≤ k → k ≤ n → ∃ i, (i, k) ∈ M)
    (i j : Nat) (hij : (i, j) ∈ M) : i = j := by
  induction i using Nat.strongRecOn generalizing j with
  | ind i ih =>
    obtain ⟨⟨hi1, hin⟩, hj1, hjn⟩ := hw (i, j) hij
    rcases Nat.lt_trichotomy i j with hlt | heq | hgt
    -- what is paired with `i` would come before `i`, and be `i` itself
    · obtain ⟨k, hk⟩ := hcols i hi1 hin
      have hki : k < i := (h.order (k, i) hk (i, j) hij).2 hlt
      have := ih k hki i hk
      omega
    · exact heq
    · obtain ⟨k, hk⟩ := hrows j hj1 hjn
      have hjk : j = k := ih j hgt k hk
      have := (h.order (j, k) hk (i, j) hij).1 hgt
      simp only at this
      omega

theorem Aligns.diagonal (h : Aligns p 1 n 1 n ops) (hleast : p.least 1 n 1 n = 0) :
    (∀ op ∈ ops, ∃ k, op = .change k k 0) ∧ ∀ k, 1 ≤ k → k ≤ n → .change k k 0 ∈ ops := by
  -- a script for nothing neither deletes nor inserts, so it changes every number
  have hfree : ∀ op ∈ ops, ∃ i j, op = .change i j 0 :=
    fun op hop => exists_change_of_scriptCost (h.cost.trans hleast) hop
  have hrows : ∀ k, 1 ≤ k → k ≤ n → ∃ j, .change k j 0 ∈ ops := by
    intro k hk hkn
    obtain ⟨op, hop, hsource⟩ := List.mem_filterMap.1 (h.sources.symm.subset (mem_span.2 ⟨hk, hkn⟩))
    obtain ⟨i, j, rfl⟩ := hfree op hop
    cases hsource
    exact ⟨j, hop⟩
  have hcols : ∀ k, 1 ≤ k → k ≤ n → ∃ i, .change i k 0 ∈ ops := by
    intro k hk hkn
    obtain ⟨op, hop, htarget⟩ := List.mem_filterMap.1 (h.targets.symm.subset (mem_span.2 ⟨hk, hkn⟩))
    obtain ⟨i, j, rfl⟩ := hfree op hop
    cases htarget
    exact ⟨i, hop⟩
  have heq : ∀ i j, .change i j 0 ∈ ops → i = j := by
    intro i j hop
    apply h.aligned.eq_of_mem h.within _ _ i j (mem_changed.2 ⟨0, hop⟩)
    · intro k hk hkn
      obtain ⟨l, hl⟩ := hrows k hk hkn
      exact ⟨l, mem_changed.2 ⟨0, hl⟩⟩
    · intro k hk hkn
      obtain ⟨l, hl⟩ := hcols k hk hkn
      exact ⟨l, mem_changed.2 ⟨0, hl⟩⟩
  constructor
  · intro op hop
    obtain ⟨i, j, rfl⟩ := hfree op hop
    exact ⟨i, by rw [← heq i j hop]⟩
  · intro k hk hkn
    obtain ⟨j, hj⟩ := hrows k hk hkn
    rwa [← heq k j hj] at hj

structure Problem.Diagonal (p : Problem α) (n : Nat) : Prop where
  leftmost : ∀ k, p.srcLeftmost k = p.dstLeftmost k
  free : ∀ k, 1 ≤ k → k ≤ n → p.changeCost k k = 0

theorem Problem.Diagonal.least_eq_zero (h : p.Diagonal n) : p.least 1 n 1 n = 0 := by
  let pairs := (Finset.Icc 1 n).image fun k => (k, k)
  have hmem : ∀ u ∈ pairs, u.1 = u.2 ∧ 1 ≤ u.1 ∧ u.1 ≤ n := by
    intro u hu
    obtain ⟨k, hk, rfl⟩ := Finset.mem_image.1 hu
    exact ⟨rfl, Finset.mem_Icc.1 hk⟩
  have haligned : p.Aligned pairs := by
    constructor
    · intro u hu v hv
      rw [(hmem u hu).1, (hmem v hv).1]
    · intro u hu v hv _
      rw [(hmem u hu).1, (hmem v hv).1, h.leftmost]
  have hwithin : Problem.Within 1 n 1 n pairs := by
    intro u hu
    have := hmem u hu
    omega
  have hgain : p.gain pairs = 2 * n := by
    have hinj : Function.Injective fun k : Nat => (k, k) := fun _ _ heq => congrArg Prod.fst heq
    rw [Problem.gain, Finset.sum_image hinj.injOn, Finset.sum_congr rfl fun k hk => by
      rw [h.free k (Finset.mem_Icc.1 hk).1 (Finset.mem_Icc.1 hk).2]]
    simp [Nat.mul_comm]
  have hle := Problem.least_add_gain_le haligned hwithin
  omega

section Copies

variable {β : Type} {A B : Reduced} {f : Place → β} {s d : Place}

theorem exists_item_of_map_eq (h : A.items.map (Item.map f) = B.items.map (Item.map f)) {k : Nat}
    {x : Item Place} (hx : A.items[k]? = some x) :
    ∃ y, B.items[k]? = some y ∧ f x.label = f y.label ∧ x.leftmost = y.leftmost := by
  have hk := congrArg (fun l => l[k]?) h
  simp only [List.getElem?_map, hx, Option.map_some] at hk
  obtain ⟨y, hy, hxy⟩ := Option.map_eq_some_iff.1 hk.symm
  exact ⟨y, hy, (congrArg Item.label hxy).symm, (congrArg Item.leftmost hxy).symm⟩

theorem size_eq_of_map_eq (h : A.items.map (Item.map f) = B.items.map (Item.map f)) :
    A.size = B.size := by
  have hlength := congrArg List.length h
  simpa [Reduced.items, Rose.length_postOrder] using hlength

theorem diagonal_alignment (h : A.items.map (Item.map f) = B.items.map (Item.map f))
    (hf : ∀ p q : Place, f p = f q → p.node.content = q.node.content) :
    (alignment A B).Diagonal A.size where
  leftmost := by
    intro k
    have hleftmost : ∀ C : Reduced, ((C.items.map (Item.map f))[k - 1]?).elim 0 Item.leftmost =
        C.leftmost k := by
      intro C
      rw [List.getElem?_map, Rose.leftmost, Reduced.items]
      cases (C.postOrder.map Rose.label)[k - 1]? <;> rfl
    rw [srcLeftmost_alignment, dstLeftmost_alignment, ← hleftmost, ← hleftmost, h]
  free := by
    intro k hk hkn
    have hlt : k - 1 < A.items.length := by
      rw [Reduced.items, List.length_map, Rose.length_postOrder]
      omega
    have hx := List.getElem?_eq_getElem hlt
    obtain ⟨y, hy, hxy, -⟩ := exists_item_of_map_eq h hx
    simp [Problem.changeCost, alignment, hx, hy, Rose.sameContent, hf _ _ hxy]

theorem mem_freePairs_iff (hA : A.Numbered) (hB : B.Numbered) (hla : A.leftmost A.size = 1)
    (hlb : B.leftmost B.size = 1) (h : A.items.map (Item.map f) = B.items.map (Item.map f))
    (hf : ∀ p q : Place, f p = f q → p.node.content = q.node.content) :
    (s, d) ∈ (placeScript (alignment A B)).filterMap PlaceOp.freePair? ↔
      ∃ (k : Nat) (x y : Item Place), A.items[k]? = some x ∧ B.items[k]? = some y ∧ x.label = s ∧
        y.label = d := by
  have hsize := size_eq_of_map_eq h
  obtain ⟨-, haligns⟩ := aligns_script hA hB hla hlb
  rw [← hsize] at haligns
  obtain ⟨hall, hevery⟩ := haligns.diagonal (diagonal_alignment h hf).least_eq_zero
  have hplaced : ∀ (k : Nat) (x y : Item Place), A.items[k]? = some x → B.items[k]? = some y →
      placeOp? (alignment A B) (.change (k + 1) (k + 1) 0) = some (.change x.label y.label 0) := by
    intro k x y hx hy
    simp [placeOp?, alignment, hx, hy]
  rw [placeScript, List.filterMap_filterMap, List.mem_filterMap]
  constructor
  · rintro ⟨op, hop, hpair⟩
    obtain ⟨k, rfl⟩ := hall op hop
    obtain ⟨⟨hk, hkn⟩, -⟩ := haligns.within (k, k) (mem_changed.2 ⟨0, hop⟩)
    have hlt : k - 1 < A.items.length := by
      rw [Reduced.items, List.length_map, Rose.length_postOrder]
      omega
    have hx := List.getElem?_eq_getElem hlt
    obtain ⟨y, hy, -, -⟩ := exists_item_of_map_eq h hx
    have hop' := hplaced (k - 1) _ y hx hy
    rw [Nat.sub_add_cancel hk] at hop'
    rw [hop'] at hpair
    cases hpair
    exact ⟨k - 1, _, y, hx, hy, rfl, rfl⟩
  · rintro ⟨k, x, y, hx, hy, rfl, rfl⟩
    obtain ⟨hlt, -⟩ := List.getElem?_eq_some_iff.1 hx
    rw [Reduced.items, List.length_map, Rose.length_postOrder] at hlt
    refine ⟨_, hevery (k + 1) (by omega) (by omega), ?_⟩
    rw [hplaced k x y hx hy]
    rfl

end Copies

end EditDistance

end Relocate
