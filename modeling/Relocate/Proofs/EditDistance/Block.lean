import Relocate.Proofs.EditDistance.Window

/-!
# Filling a block

Filling the block of two subtrees writes the least cost of every window that begins at their
leftmost leaves, and the step that the ties allow. It reads settled distances of whole trees only
where one of the two trees does not begin there, and settles those of the others, so a block can be
filled again at any time without losing anything.
-/

set_option autoImplicit false

namespace Relocate.EditDistance

variable {α : Type}

theorem foldl_span {β : Type} {f : β → Nat → β} {P : Nat → β → Prop} {first last : Nat} {s : β}
    (h : first ≤ last + 1) (h₀ : P first s)
    (step : ∀ k s, first ≤ k → k ≤ last → P k s → P (k + 1) (f s k)) :
    P (last + 1) ((span first last).foldl f s) := by
  have main : ∀ n k s, k + n = last + 1 → first ≤ k → P k s →
      P (last + 1) ((List.range' k n).foldl f s) := by
    intro n
    induction n with
    | zero =>
      intro k s hk _ hs
      rwa [← hk]
    | succ n ih =>
      intro k s hk hf hs
      rw [List.range'_succ, List.foldl_cons]
      exact ih (k + 1) (f s k) (by omega) (by omega) (step k s hf (by omega) hs)
  exact main (last + 1 - first) first s (by omega) (Nat.le_refl first) h₀

namespace Problem

noncomputable def treeCost (p : Problem α) (i j : Nat) : Nat :=
  p.least (p.srcLeftmost i) i (p.dstLeftmost j) j

noncomputable def choice (p : Problem α) (a b r c : Nat) : Nat × Step :=
  Tables.cheapest
    (if p.srcLeftmost r = a ∧ p.dstLeftmost c = b then
      (p.least a (r - 1) b (c - 1) + p.changeCost r c, .change)
    else (p.least a (p.srcLeftmost r - 1) b (p.dstLeftmost c - 1) + p.treeCost r c, .block))
    (p.least a (r - 1) b c + 1) (p.least a r b (c - 1) + 1)

noncomputable def cell (p : Problem α) (a b r c : Nat) : Nat × Step :=
  (p.least a r b c,
    if c < b then if r < a then .start else .delete
    else if r < a then .insert else (p.choice a b r c).2)

end Problem

namespace Tables

variable {p : Problem α} {t : Tables} {r c : Nat}

def cell (t : Tables) (r c : Nat) : Nat × Step := (t.forests.get r c, t.steps.get r c)

def Sized (p : Problem α) (t : Tables) : Prop :=
  ∀ r c, r ≤ p.src.size → c ≤ p.dst.size →
    t.forests.Has r c ∧ t.steps.Has r c ∧ t.trees.Has r c

theorem sized_blank (p : Problem α) : (blank p).Sized p := by
  intro r c hr hc
  simp only [blank, Grid.has_blank]
  omega

theorem Sized.setCell (h : t.Sized p) (i j cost : Nat) (step : Step) :
    (t.setCell i j cost step).Sized p := by
  intro r c hr hc
  have := h r c hr hc
  simpa only [Tables.setCell, Grid.has_set] using this

theorem Sized.setTree (h : t.Sized p) (i j cost : Nat) : (t.setTree i j cost).Sized p := by
  intro r c hr hc
  have := h r c hr hc
  simpa only [Tables.setTree, Grid.has_set] using this

theorem cell_setCell_self (h : t.Sized p) (hr : r ≤ p.src.size) (hc : c ≤ p.dst.size)
    (cost : Nat) (step : Step) : (t.setCell r c cost step).cell r c = (cost, step) := by
  obtain ⟨hf, hs, -⟩ := h r c hr hc
  simp only [cell, setCell, Grid.get_set_self _ hf, Grid.get_set_self _ hs]

theorem cell_setCell_of_ne {i j : Nat} (h : (i, j) ≠ (r, c)) (cost : Nat) (step : Step) :
    (t.setCell i j cost step).cell r c = t.cell r c := by
  simp only [cell, setCell, Grid.get_set_of_ne _ h]

@[simp] theorem trees_setCell (t : Tables) (i j cost : Nat) (step : Step) :
    (t.setCell i j cost step).trees = t.trees := rfl

theorem trees_setTree_self (h : t.Sized p) (hr : r ≤ p.src.size) (hc : c ≤ p.dst.size)
    (cost : Nat) : (t.setTree r c cost).trees.get r c = some cost :=
  Grid.get_set_self _ (h r c hr hc).2.2

theorem trees_setTree_of_ne {i j : Nat} (h : (i, j) ≠ (r, c)) (cost : Nat) :
    (t.setTree i j cost).trees.get r c = t.trees.get r c :=
  Grid.get_set_of_ne _ h

theorem cheapest_fst (align : Nat × Step) (delete insert : Nat) :
    (cheapest align delete insert).1 = min align.1 (min delete insert) := by
  simp only [cheapest]
  split <;> split <;> simp_all <;> omega

end Tables

namespace Problem

variable {p : Problem α} {a b r c : Nat}

theorem choice_fst (hp : p.Ordered) (hr : r ≤ p.src.size) (hc : c ≤ p.dst.size) (ha : 1 ≤ a)
    (hb : 1 ≤ b) (har : a ≤ p.srcLeftmost r) (hbc : b ≤ p.dstLeftmost c) (hr' : 1 ≤ r)
    (hc' : 1 ≤ c) : (p.choice a b r c).1 = p.least a r b c := by
  have hlr := hp.src.le r hr' hr
  have hlc := hp.dst.le c hc' hc
  rw [choice, Tables.cheapest_fst]
  split
  · rename_i h
    exact (least_whole p h.1 h.2 (by omega) (by omega) ha hb).symm
  · exact (least_block hp hr hc ha hb har hbc hlr hlc).symm

theorem cell_of_lt {r c : Nat} (p : Problem α) (hr : a ≤ r) (hc : c < b) :
    p.cell a b r c = (r + 1 - a, .delete) := by
  rw [cell, least_no_cols p a r hc, if_pos hc, if_neg (Nat.not_lt.2 hr)]

theorem cell_of_row_lt {r c : Nat} (p : Problem α) (hr : r < a) (hc : b ≤ c) :
    p.cell a b r c = (c + 1 - b, .insert) := by
  rw [cell, least_no_rows p b c hr, if_neg (Nat.not_lt.2 hc), if_pos hr]

theorem cell_corner (p : Problem α) (ha : 1 ≤ a) (hb : 1 ≤ b) :
    p.cell a b (a - 1) (b - 1) = (0, .start) := by
  have hr : a - 1 < a := by omega
  have hc : b - 1 < b := by omega
  rw [cell, least_no_cols p a (a - 1) hc, if_pos hc, if_pos hr]
  congr 1
  omega

theorem cell_inner (hp : p.Ordered) (hr : r ≤ p.src.size) (hc : c ≤ p.dst.size) (ha : 1 ≤ a)
    (hb : 1 ≤ b) (har : a ≤ p.srcLeftmost r) (hbc : b ≤ p.dstLeftmost c) (hr' : a ≤ r)
    (hc' : b ≤ c) : p.cell a b r c = p.choice a b r c := by
  have h := choice_fst hp hr hc ha hb har hbc (by omega) (by omega)
  rw [cell, ← h, if_neg (Nat.not_lt.2 hc'), if_neg (Nat.not_lt.2 hr')]

end Problem

namespace Tables

variable {p : Problem α} {t t₀ : Tables} {i j r c : Nat}

/-- The given cells of the block with the corner before `a` and `b` hold what they should. -/
structure Settled (p : Problem α) (a b : Nat) (S : Nat → Nat → Prop) (t : Tables) : Prop where
  sized : t.Sized p
  cells : ∀ x y, S x y → t.cell x y = p.cell a b x y

theorem Settled.setCell {a b cost : Nat} {step : Step} {S T : Nat → Nat → Prop}
    (h : Settled p a b S t) (hr : r ≤ p.src.size) (hc : c ≤ p.dst.size)
    (he : p.cell a b r c = (cost, step)) (hS : ∀ x y, T x y → S x y ∨ x = r ∧ y = c) :
    Settled p a b T (t.setCell r c cost step) where
  sized := h.sized.setCell r c cost step
  cells := by
    intro x y hxy
    by_cases hnew : x = r ∧ y = c
    · rw [hnew.1, hnew.2, cell_setCell_self h.sized hr hc, he]
    · rw [cell_setCell_of_ne (by simp only [ne_eq, Prod.mk.injEq]; omega)]
      exact h.cells x y ((hS x y hxy).resolve_right hnew)

structure InRange (p : Problem α) (i j : Nat) : Prop where
  src_pos : 1 ≤ i
  src_le : i ≤ p.src.size
  dst_pos : 1 ≤ j
  dst_le : j ≤ p.dst.size

theorem settled_corner {a b : Nat} (ht : t.Sized p) (ha : 1 ≤ a) (hb : 1 ≤ b)
    (han : a ≤ p.src.size) (hbm : b ≤ p.dst.size) :
    Settled p a b (fun x y => x = a - 1 ∧ y = b - 1)
      (t.setCell (a - 1) (b - 1) 0 .start) := by
  have hnone : Settled p a b (fun _ _ => False) t := ⟨ht, fun _ _ h => h.elim⟩
  exact hnone.setCell (by omega) (by omega) (Problem.cell_corner p ha hb) (fun _ _ h => Or.inr h)

theorem settled_column {a b k : Nat} (ha : 1 ≤ a) (hb : 1 ≤ b) (hk : a ≤ k)
    (hkn : k ≤ p.src.size) (hbm : b ≤ p.dst.size)
    (h : Settled p a b (fun x y => a - 1 ≤ x ∧ x < k ∧ y = b - 1) t) :
    Settled p a b (fun x y => a - 1 ≤ x ∧ x < k + 1 ∧ y = b - 1)
      (t.setCell k (b - 1) (t.forests.get (k - 1) (b - 1) + 1) .delete) := by
  have hprev := congrArg Prod.fst (h.cells (k - 1) (b - 1) (by omega))
  rw [Problem.cell, Problem.least_no_cols p a (k - 1) (by omega)] at hprev
  apply h.setCell hkn (by omega)
  · rw [Problem.cell_of_lt p hk (by omega)]
    simp only [cell] at hprev
    rw [hprev]
    congr 1
    omega
  · intro x y hxy
    omega

theorem settled_row {a b k i : Nat} (ha : 1 ≤ a) (hb : 1 ≤ b) (hk : b ≤ k)
    (han : a ≤ p.src.size) (hkm : k ≤ p.dst.size)
    (h : Settled p a b (fun x y => a - 1 ≤ x ∧ x ≤ i ∧ y = b - 1 ∨
      x = a - 1 ∧ b - 1 ≤ y ∧ y < k) t) :
    Settled p a b (fun x y => a - 1 ≤ x ∧ x ≤ i ∧ y = b - 1 ∨ x = a - 1 ∧ b - 1 ≤ y ∧ y < k + 1)
      (t.setCell (a - 1) k (t.forests.get (a - 1) (k - 1) + 1) .insert) := by
  have hprev := congrArg Prod.fst (h.cells (a - 1) (k - 1) (by omega))
  rw [Problem.cell, Problem.least_no_rows p b (k - 1) (by omega)] at hprev
  apply h.setCell (by omega) hkm
  · rw [Problem.cell_of_row_lt p (by omega) hk]
    simp only [cell] at hprev
    rw [hprev]
    congr 1
    omega
  · intro x y hxy
    omega

theorem settled_fillBorder {a b : Nat} (ht : t.Sized p) (ha : 1 ≤ a) (hb : 1 ≤ b) (hai : a ≤ i)
    (hbj : b ≤ j) (hi : i ≤ p.src.size) (hj : j ≤ p.dst.size) :
    Settled p a b (fun x y => a - 1 ≤ x ∧ x ≤ i ∧ y = b - 1 ∨ x = a - 1 ∧ b - 1 ≤ y ∧ y ≤ j)
        (fillBorder a b i j t) ∧
      (fillBorder a b i j t).trees = t.trees := by
  let corner := t.setCell (a - 1) (b - 1) 0 .start
  let down := fun (t : Tables) di =>
    t.setCell di (b - 1) (t.forests.get (di - 1) (b - 1) + 1) .delete
  let right := fun (t : Tables) dj =>
    t.setCell (a - 1) dj (t.forests.get (a - 1) (dj - 1) + 1) .insert
  have hcorner := settled_corner ht ha hb (by omega) (by omega)
  have column := foldl_span (f := down) (s := corner) (show a ≤ i + 1 by omega)
    (P := fun k s => Settled p a b (fun x y => a - 1 ≤ x ∧ x < k ∧ y = b - 1) s ∧
      s.trees = t.trees)
    ⟨⟨hcorner.sized, fun x y h => hcorner.cells x y (by omega)⟩, rfl⟩
    (fun k s hk hki h =>
      ⟨settled_column ha hb hk (by omega) (by omega) h.1, h.2⟩)
  have row := foldl_span (f := right) (s := (span a i).foldl down corner)
    (show b ≤ j + 1 by omega)
    (P := fun k s => Settled p a b (fun x y => a - 1 ≤ x ∧ x ≤ i ∧ y = b - 1 ∨
      x = a - 1 ∧ b - 1 ≤ y ∧ y < k) s ∧ s.trees = t.trees)
    ⟨⟨column.1.sized, fun x y h => column.1.cells x y (by omega)⟩, column.2⟩
    (fun k s hk hkj h =>
      ⟨settled_row ha hb hk (by omega) (by omega) h.1, h.2⟩)
  exact ⟨⟨row.1.sized, fun x y h => row.1.cells x y (by omega)⟩, row.2⟩

/-- How far the block of `i` and `j` has been filled from `t₀`: its border, all rows before `r`,
and row `r` before column `c`. -/
structure Progress (p : Problem α) (i j : Nat) (t₀ : Tables) (r c : Nat) (t : Tables) : Prop where
  settled : Settled p (p.srcLeftmost i) (p.dstLeftmost j) (fun x y =>
    (p.srcLeftmost i - 1 ≤ x ∧ x ≤ i) ∧ (p.dstLeftmost j - 1 ≤ y ∧ y ≤ j) ∧
      (x < p.srcLeftmost i ∨ y < p.dstLeftmost j ∨ x < r ∨ x = r ∧ y < c)) t
  trees : ∀ x y, x ≤ i → y ≤ j → p.srcLeftmost x = p.srcLeftmost i →
    p.dstLeftmost y = p.dstLeftmost j → p.srcLeftmost i ≤ x → p.dstLeftmost j ≤ y →
    (x < r ∨ x = r ∧ y < c) → t.trees.get x y = some (p.treeCost x y)
  frame : ∀ x y, ¬ (x ≤ i ∧ y ≤ j ∧ p.srcLeftmost x = p.srcLeftmost i ∧
    p.dstLeftmost y = p.dstLeftmost j) → t.trees.get x y = t₀.trees.get x y

def Provided (p : Problem α) (i j : Nat) (t : Tables) : Prop :=
  ∀ x y, p.srcLeftmost i ≤ x → x ≤ i → p.dstLeftmost j ≤ y → y ≤ j →
    ¬ (p.srcLeftmost x = p.srcLeftmost i ∧ p.dstLeftmost y = p.dstLeftmost j) →
    t.trees.get x y = some (p.treeCost x y)

theorem progress_fillBorder (hp : p.Ordered) (hr : InRange p i j) (ht : t₀.Sized p) :
    Progress p i j t₀ (p.srcLeftmost i) (p.dstLeftmost j)
      (fillBorder (p.srcLeftmost i) (p.dstLeftmost j) i j t₀) := by
  obtain ⟨hborder, htrees⟩ := settled_fillBorder ht (hp.src.pos i hr.src_pos hr.src_le)
    (hp.dst.pos j hr.dst_pos hr.dst_le) (hp.src.le i hr.src_pos hr.src_le)
    (hp.dst.le j hr.dst_pos hr.dst_le) hr.src_le hr.dst_le
  refine ⟨⟨hborder.sized, fun x y h => hborder.cells x y (by omega)⟩, ?_, ?_⟩
  · intro x y _ _ _ _ hx hy h
    omega
  · intro x y _
    rw [htrees]

theorem fillCell_eq (hp : p.Ordered) (hij : InRange p i j) (hprov : Provided p i j t₀)
    (h : Progress p i j t₀ r c t) (hr : p.srcLeftmost i ≤ r) (hri : r ≤ i)
    (hc : p.dstLeftmost j ≤ c) (hcj : c ≤ j) :
    fillCell p (p.srcLeftmost i) (p.dstLeftmost j) r c t =
      if p.srcLeftmost r = p.srcLeftmost i ∧ p.dstLeftmost c = p.dstLeftmost j then
        (t.setCell r c (p.cell (p.srcLeftmost i) (p.dstLeftmost j) r c).1
          (p.cell (p.srcLeftmost i) (p.dstLeftmost j) r c).2).setTree r c
          (p.cell (p.srcLeftmost i) (p.dstLeftmost j) r c).1
      else t.setCell r c (p.cell (p.srcLeftmost i) (p.dstLeftmost j) r c).1
        (p.cell (p.srcLeftmost i) (p.dstLeftmost j) r c).2 := by
  obtain ⟨hi1, hin, hj1, hjm⟩ := hij
  have ha := hp.src.pos i hi1 hin
  have hb := hp.dst.pos j hj1 hjm
  have har := hp.src.nested r i (by omega) hri hin hr
  have hbc := hp.dst.nested c j (by omega) hcj hjm hc
  have hlr := hp.src.le r (by omega) (by omega)
  have hlc := hp.dst.le c (by omega) (by omega)
  have known : ∀ x y, p.srcLeftmost i - 1 ≤ x → x ≤ i → p.dstLeftmost j - 1 ≤ y → y ≤ j →
      (x < p.srcLeftmost i ∨ y < p.dstLeftmost j ∨ x < r ∨ x = r ∧ y < c) →
      t.forests.get x y = p.least (p.srcLeftmost i) x (p.dstLeftmost j) y := by
    intro x y hx hxi hy hyj hxy
    exact congrArg Prod.fst (h.settled.cells x y ⟨⟨hx, hxi⟩, ⟨hy, hyj⟩, hxy⟩)
  rw [Problem.cell_inner hp (by omega) (by omega) ha hb har hbc hr hc, Problem.choice, fillCell,
    known (r - 1) c (by omega) (by omega) (by omega) (by omega) (by omega),
    known r (c - 1) (by omega) (by omega) (by omega) (by omega) (by omega)]
  by_cases hw : p.srcLeftmost r = p.srcLeftmost i ∧ p.dstLeftmost c = p.dstLeftmost j
  · simp only [if_pos hw]
    rw [known (r - 1) (c - 1) (by omega) (by omega) (by omega) (by omega) (by omega)]
  · have htree : t.treeDistance r c = p.treeCost r c := by
      rw [treeDistance, h.frame r c (by omega), hprov r c hr hri hc hcj hw]
      rfl
    simp only [if_neg hw]
    rw [htree, known (p.srcLeftmost r - 1) (p.dstLeftmost c - 1) (by omega) (by omega)
      (by omega) (by omega) (by omega)]

theorem progress_fillCell (hp : p.Ordered) (hij : InRange p i j) (hprov : Provided p i j t₀)
    (h : Progress p i j t₀ r c t) (hr : p.srcLeftmost i ≤ r) (hri : r ≤ i)
    (hc : p.dstLeftmost j ≤ c) (hcj : c ≤ j) :
    Progress p i j t₀ r (c + 1) (fillCell p (p.srcLeftmost i) (p.dstLeftmost j) r c t) := by
  have hrn := hri.trans hij.src_le
  have hcm := hcj.trans hij.dst_le
  have hset := h.settled.setCell hrn hcm Prod.mk.eta.symm (T := fun x y =>
    (p.srcLeftmost i - 1 ≤ x ∧ x ≤ i) ∧ (p.dstLeftmost j - 1 ≤ y ∧ y ≤ j) ∧
      (x < p.srcLeftmost i ∨ y < p.dstLeftmost j ∨ x < r ∨ x = r ∧ y < c + 1))
    (by intro x y hxy; omega)
  rw [fillCell_eq hp hij hprov h hr hri hc hcj]
  by_cases hw : p.srcLeftmost r = p.srcLeftmost i ∧ p.dstLeftmost c = p.dstLeftmost j
  · rw [if_pos hw]
    refine ⟨⟨hset.sized.setTree r c _, hset.cells⟩, ?_, ?_⟩
    · intro x y hx hy hxl hyl hax hby hxy
      by_cases hnew : x = r ∧ y = c
      · rw [hnew.1, hnew.2, trees_setTree_self hset.sized hrn hcm, Problem.treeCost, hw.1, hw.2]
        rfl
      · rw [trees_setTree_of_ne (by simp only [ne_eq, Prod.mk.injEq]; omega)]
        exact h.trees x y hx hy hxl hyl hax hby (by omega)
    · intro x y hxy
      rw [trees_setTree_of_ne]
      · exact h.frame x y hxy
      · rintro ⟨⟩
        exact hxy ⟨hri, hcj, hw⟩
  · rw [if_neg hw]
    refine ⟨hset, ?_, ?_⟩
    · intro x y hx hy hxl hyl hax hby hxy
      have hold : ¬ (x = r ∧ y = c) := by
        rintro ⟨rfl, rfl⟩
        exact hw ⟨hxl, hyl⟩
      exact h.trees x y hx hy hxl hyl hax hby (by omega)
    · exact h.frame

theorem Progress.next_row (h : Progress p i j t₀ r (j + 1) t) :
    Progress p i j t₀ (r + 1) (p.dstLeftmost j) t := by
  refine ⟨⟨h.settled.sized, fun x y h' => h.settled.cells x y (by omega)⟩, ?_, h.frame⟩
  intro x y hx hy hxl hyl hax hby hxy
  exact h.trees x y hx hy hxl hyl hax hby (by omega)

/-- A block whose distances are provided is filled with least costs and the steps to them, settles
the trees that begin at its leftmost leaves, and leaves all other trees as they were. -/
theorem progress_fillBlock (hp : p.Ordered) (hij : InRange p i j) (ht : t.Sized p)
    (hprov : Provided p i j t) :
    Progress p i j t (i + 1) (p.dstLeftmost j) (fillBlock p i j t) := by
  have hai := hp.src.le i hij.src_pos hij.src_le
  have hbj := hp.dst.le j hij.dst_pos hij.dst_le
  apply foldl_span (P := fun r s => Progress p i j t r (p.dstLeftmost j) s) (by omega)
    (progress_fillBorder hp hij ht)
  intro r s hr hri hs
  have row := foldl_span (P := fun c s => Progress p i j t r c s)
    (f := fun s c => fillCell p (p.srcLeftmost i) (p.dstLeftmost j) r c s)
    (show p.dstLeftmost j ≤ j + 1 by omega) hs
    (fun c s hc hcj hs => progress_fillCell hp hij hprov hs hr hri hc hcj)
  exact row.next_row

end Tables

end Relocate.EditDistance
