import Mathlib.Logic.Function.Iterate
import Relocate.Proofs.EditDistance.Reading

/-!
# Reading a script again

Reading a script fills blocks again, also those of nodes that are no keyroots, and settles their
trees once more. Every distance that is written this way is the one that stands there already, so
the settled trees stay as they were completed; and since a block holds the same cells whatever was
in the tables before it was filled, the script can be read as often as one likes.
-/

set_option autoImplicit false

namespace Relocate

theorem Grid.set_of_get_eq {β : Type} [Inhabited β] {g : Grid β} {i j : Nat} {b : β}
    (hroom : g.Has i j) (h : g.get i j = b) : g.set i j b = g := by
  obtain ⟨row, hrow, hj⟩ := hroom
  have hcell : row[j] = b := by
    rw [← h]
    simp [get, hrow, hj]
  have hsame : row.setIfInBounds j b = row := by
    rw [Array.setIfInBounds, dif_pos hj, ← hcell, Array.set_getElem_self]
  obtain ⟨rows⟩ := g
  simp only [set, mk.injEq]
  apply Array.ext_getElem?
  intro k
  rw [Array.getElem?_modify]
  by_cases hk : i = k
  · subst hk
    rw [if_pos rfl, hrow, Option.map_some, hsame]
  · rw [if_neg hk]

namespace EditDistance

variable {α : Type} {p : Problem α}

namespace Tables

variable {t t' t₀ : Tables} {i j r c : Nat}

theorem AllSettled.trees_fillCell (h₀ : AllSettled p t₀) (hp : p.Ordered) (hij : InRange p i j)
    (h : Progress p i j t₀ r c t) (htrees : t.trees = t₀.trees) (hr : p.srcLeftmost i ≤ r)
    (hri : r ≤ i) (hc : p.dstLeftmost j ≤ c) (hcj : c ≤ j) :
    (fillCell p (p.srcLeftmost i) (p.dstLeftmost j) r c t).trees = t₀.trees := by
  rw [fillCell_eq hp hij (h₀.provided hp hij) h hr hri hc hcj]
  split
  · rename_i hwhole
    have hi := hp.src.pos i hij.src_pos hij.src_le
    have hj := hp.dst.pos j hij.dst_pos hij.dst_le
    have hrc : InRange p r c :=
      ⟨by omega, hri.trans hij.src_le, by omega, hcj.trans hij.dst_le⟩
    have hstands : t.trees.get r c =
        some (p.cell (p.srcLeftmost i) (p.dstLeftmost j) r c).1 := by
      rw [htrees, h₀.trees r c hrc, Problem.treeCost, hwhole.1, hwhole.2]
      rfl
    rw [setTree, trees_setCell, ← htrees]
    exact Grid.set_of_get_eq (h.settled.sized r c hrc.src_le hrc.dst_le).2.2 hstands
  · rw [trees_setCell, htrees]

theorem AllSettled.trees_fillBlock (h₀ : AllSettled p t₀) (hp : p.Ordered)
    (hij : InRange p i j) : (Tables.fillBlock p i j t₀).trees = t₀.trees := by
  have hai := hp.src.le i hij.src_pos hij.src_le
  have hbj := hp.dst.le j hij.dst_pos hij.dst_le
  have hprov := h₀.provided hp hij
  have hborder := settled_fillBorder h₀.sized (hp.src.pos i hij.src_pos hij.src_le)
    (hp.dst.pos j hij.dst_pos hij.dst_le) hai hbj hij.src_le hij.dst_le
  have hrows := foldl_span
    (P := fun r s => Progress p i j t₀ r (p.dstLeftmost j) s ∧ s.trees = t₀.trees)
    (f := fun s r => (span (p.dstLeftmost j) j).foldl
      (fun s c => fillCell p (p.srcLeftmost i) (p.dstLeftmost j) r c s) s)
    (show p.srcLeftmost i ≤ i + 1 by omega)
    ⟨progress_fillBorder hp hij h₀.sized, hborder.2⟩ ?_
  · exact hrows.2
  intro r s hr hri hs
  have hcells := foldl_span (P := fun c s => Progress p i j t₀ r c s ∧ s.trees = t₀.trees)
    (f := fun s c => fillCell p (p.srcLeftmost i) (p.dstLeftmost j) r c s)
    (show p.dstLeftmost j ≤ j + 1 by omega) hs
    (fun c s hc hcj hs => ⟨progress_fillCell hp hij hprov hs.1 hr hri hc hcj,
      h₀.trees_fillCell hp hij hs.1 hs.2 hr hri hc hcj⟩)
  exact ⟨hcells.1.next_row, hcells.2⟩

/-- The cells of the block of `i` and `j`, its corner and its border with it. -/
structure InBlock (p : Problem α) (i j row col : Nat) : Prop where
  row_ge : p.srcLeftmost i - 1 ≤ row
  row_le : row ≤ i
  col_ge : p.dstLeftmost j - 1 ≤ col
  col_le : col ≤ j

theorem Filled.cell_eq (h : Filled p i j t) {row col : Nat} (hb : InBlock p i j row col) :
    t.cell row col = p.cell (p.srcLeftmost i) (p.dstLeftmost j) row col :=
  h.cells row col ⟨⟨hb.row_ge, hb.row_le⟩, hb.col_ge, hb.col_le⟩

theorem Filled.steps_eq (h : Filled p i j t) (h' : Filled p i j t') {row col : Nat}
    (hb : InBlock p i j row col) : t.steps.get row col = t'.steps.get row col :=
  congrArg Prod.snd ((h.cell_eq hb).trans (h'.cell_eq hb).symm)

/-- Going back in a filled block: a statement about its cells holds if it goes over to each cell
from the one that its step leads to. Each step stays in the block and lowers the row or the column.
-/
theorem Filled.backward (h : Filled p i j t) (hp : p.Ordered) (hij : InRange p i j)
    {motive : Nat → Nat → Prop}
    (corner : ∀ row col, ¬ (p.srcLeftmost i - 1 < row ∨ p.dstLeftmost j - 1 < col) →
      motive row col)
    (delete : ∀ row col, InBlock p i j row col → p.srcLeftmost i ≤ row →
      t.steps.get row col = .delete → motive (row - 1) col → motive row col)
    (insert : ∀ row col, InBlock p i j row col → p.dstLeftmost j ≤ col →
      t.steps.get row col = .insert → motive row (col - 1) → motive row col)
    (change : ∀ row col, InBlock p i j row col → p.srcLeftmost i ≤ row → p.dstLeftmost j ≤ col →
      t.steps.get row col = .change → motive (row - 1) (col - 1) → motive row col)
    (block : ∀ row col, InBlock p i j row col → p.srcLeftmost i ≤ row → p.dstLeftmost j ≤ col →
      t.steps.get row col = .block → motive (p.srcLeftmost row - 1) (p.dstLeftmost col - 1) →
      motive row col)
    (row col : Nat) (hb : InBlock p i j row col) : motive row col := by
  -- whatever the step, the sum of row and column gets smaller
  generalize hn : row + col = n
  induction n using Nat.strongRecOn generalizing row col with
  | ind n ih =>
    subst hn
    have ⟨hi1, hin, hj1, hjm⟩ := hij
    have ⟨hrow, hrowi, hcol, hcolj⟩ := hb
    have ha := hp.src.pos i hi1 hin
    have hb1 := hp.dst.pos j hj1 hjm
    by_cases hguard : p.srcLeftmost i - 1 < row ∨ p.dstLeftmost j - 1 < col
    · have hway := Problem.cellWay hp (hrowi.trans hin) (hcolj.trans hjm) ha hb1
        (fun hle => hp.src.nested row i (by omega) hrowi hin hle)
        (fun hle => hp.dst.nested col j (by omega) hcolj hjm hle) (by omega)
      have hstep : t.steps.get row col =
          (p.cell (p.srcLeftmost i) (p.dstLeftmost j) row col).2 :=
        congrArg Prod.snd (h.cell_eq hb)
      rw [← hstep] at hway
      generalize hs : t.steps.get row col = step at hway
      cases hway with
      | delete hr _ =>
        exact delete row col hb hr hs (ih _ (by omega) (row - 1) col
          ⟨by omega, by omega, hcol, hcolj⟩ rfl)
      | insert hc _ =>
        exact insert row col hb hc hs (ih _ (by omega) row (col - 1)
          ⟨hrow, hrowi, by omega, by omega⟩ rfl)
      | change hr hc _ _ _ =>
        exact change row col hb hr hc hs (ih _ (by omega) (row - 1) (col - 1)
          ⟨by omega, by omega, by omega, by omega⟩ rfl)
      | block hr hc _ _ =>
        have hlr := hp.src.le row (by omega) (by omega)
        have hlc := hp.dst.le col (by omega) (by omega)
        have har := hp.src.nested row i (by omega) hrowi hin hr
        have hbc := hp.dst.nested col j (by omega) hcolj hjm hc
        exact block row col hb hr hc hs (ih _ (by omega) (p.srcLeftmost row - 1)
          (p.dstLeftmost col - 1) ⟨by omega, by omega, by omega, by omega⟩ rfl)
    · exact corner row col hguard

theorem Filled.traceBack_eq (h : Filled p i j t) (h' : Filled p i j t') (hp : p.Ordered)
    (hij : InRange p i j) (row col : Nat) (hb : InBlock p i j row col) :
    ∀ fuel, traceBack p t (p.srcLeftmost i - 1) (p.dstLeftmost j - 1) fuel row col =
      traceBack p t' (p.srcLeftmost i - 1) (p.dstLeftmost j - 1) fuel row col := by
  have same : ∀ {row col}, InBlock p i j row col → t'.steps.get row col = t.steps.get row col :=
    fun hb => h'.steps_eq h hb
  refine h.backward hp hij (motive := fun row col => ∀ fuel,
    traceBack p t (p.srcLeftmost i - 1) (p.dstLeftmost j - 1) fuel row col =
      traceBack p t' (p.srcLeftmost i - 1) (p.dstLeftmost j - 1) fuel row col)
    ?corner ?delete ?insert ?change ?block row col hb
  case corner =>
    intro row col hcorner fuel
    cases fuel with
    | zero => rfl
    | succ fuel => rw [traceBack, traceBack, if_neg hcorner, if_neg hcorner]
  case delete =>
    intro row col hb _ hs ih fuel
    cases fuel with
    | zero => rfl
    | succ fuel => simp only [traceBack, same hb, hs, ih]
  case insert =>
    intro row col hb _ hs ih fuel
    cases fuel with
    | zero => rfl
    | succ fuel => simp only [traceBack, same hb, hs, ih]
  case change =>
    intro row col hb _ _ hs ih fuel
    cases fuel with
    | zero => rfl
    | succ fuel => simp only [traceBack, same hb, hs, ih]
  case block =>
    intro row col hb _ _ hs ih fuel
    cases fuel with
    | zero => rfl
    | succ fuel => simp only [traceBack, same hb, hs, ih]

theorem inBlock_root (hp : p.Ordered) (hij : InRange p i j) : InBlock p i j i j := by
  have hli := hp.src.le i hij.src_pos hij.src_le
  have hlj := hp.dst.le j hij.dst_pos hij.dst_le
  exact ⟨by omega, Nat.le_refl i, by omega, Nat.le_refl j⟩

theorem AllSettled.filled (h : AllSettled p t) (hp : p.Ordered) (hij : InRange p i j) :
    Filled p i j (Tables.fillBlock p i j t) :=
  filled_fillBlock hp hij h.sized (h.provided hp hij)

theorem AllSettled.route (h : AllSettled p t) (hp : p.Ordered) (hij : InRange p i j) :
    Route p (p.srcLeftmost i) (p.dstLeftmost j) i j
      (readBlock p (Tables.fillBlock p i j t) i j) :=
  have hroot := inBlock_root hp hij
  (walk_traceBack hp hij (h.filled hp hij) (i + j) i j hroot.row_ge hroot.row_le hroot.col_ge
    hroot.col_le (Nat.le_refl _)).2

/-- What is read from a block does not depend on the tables that it was filled in. -/
theorem AllSettled.readBlock_eq (h : AllSettled p t) (h' : AllSettled p t') (hp : p.Ordered)
    (hij : InRange p i j) :
    readBlock p (Tables.fillBlock p i j t) i j = readBlock p (Tables.fillBlock p i j t') i j :=
  (h.filled hp hij).traceBack_eq (h'.filled hp hij) hp hij i j (inBlock_root hp hij) (i + j)

theorem AllSettled.inRange_pending (h : AllSettled p t) (hp : p.Ordered)
    {stack : List (Nat × Nat)} (hstack : ∀ u ∈ (i, j) :: stack, InRange p u.1 u.2) :
    ∀ u ∈ (readBlock p (Tables.fillBlock p i j t) i j).blocks.reverse ++ stack,
      InRange p u.1 u.2 := by
  intro u hu
  rcases List.mem_append.1 hu with hu | hu
  · exact (h.route hp (hstack (i, j) List.mem_cons_self)).inRange (List.mem_reverse.1 hu)
  · exact hstack u (List.mem_cons_of_mem _ hu)

end Tables

open Tables

variable {t t' : Tables}

/-- Working off a stack leaves the settled trees as they are, and gives the same operations from all
settled tables. -/
theorem readPending_settled (hp : p.Ordered) (fuel : Nat) (stack : List (Nat × Nat))
    (ht : AllSettled p t) (ht' : AllSettled p t') (hstack : ∀ u ∈ stack, InRange p u.1 u.2) :
    (readPending p fuel stack t).1 = (readPending p fuel stack t').1 ∧
      AllSettled p (readPending p fuel stack t).2 ∧
      (readPending p fuel stack t).2.trees = t.trees := by
  induction fuel generalizing stack t t' with
  | zero => exact ⟨rfl, ht, rfl⟩
  | succ fuel ih =>
    cases stack with
    | nil => exact ⟨rfl, ht, rfl⟩
    | cons u stack =>
      obtain ⟨i, j⟩ := u
      have hij : InRange p i j := hstack (i, j) List.mem_cons_self
      have hread := ht'.readBlock_eq ht hp hij
      obtain ⟨hops, hsettled, htrees⟩ := ih
        ((readBlock p (fillBlock p i j t) i j).blocks.reverse ++ stack)
        (ht.fillBlock hp hij) (ht'.fillBlock hp hij) (ht.inRange_pending hp hstack)
      refine ⟨?_, hsettled, htrees.trans (ht.trees_fillBlock hp hij)⟩
      simp only [readPending, hread, hops]

def Tables.reread (p : Problem α) (t : Tables) : Tables := (scriptFrom p t).2

section Trees

variable {A B : Reduced}

theorem inRange_roots (A B : Reduced) : InRange (alignment A B) A.size B.size :=
  ⟨A.size_pos, by rw [size_src_alignment], B.size_pos, by rw [size_dst_alignment]⟩

theorem reread_settled (hp : (alignment A B).Ordered) (ht : AllSettled (alignment A B) t)
    (ht' : AllSettled (alignment A B) t') :
    (scriptFrom (alignment A B) t).1 = (scriptFrom (alignment A B) t').1 ∧
      AllSettled (alignment A B) (t.reread (alignment A B)) ∧
      (t.reread (alignment A B)).trees = t.trees := by
  apply readPending_settled hp _ _ ht ht'
  intro u hu
  rw [List.mem_singleton.1 hu, size_src_alignment, size_dst_alignment]
  exact inRange_roots A B

theorem iterate_reread_settled (hp : (alignment A B).Ordered) (ht : AllSettled (alignment A B) t)
    (k : Nat) :
    AllSettled (alignment A B) ((Tables.reread (alignment A B))^[k] t) ∧
      ((Tables.reread (alignment A B))^[k] t).trees = t.trees := by
  induction k with
  | zero => exact ⟨ht, rfl⟩
  | succ k ih =>
    rw [Function.iterate_succ_apply']
    obtain ⟨-, hsettled, htrees⟩ := reread_settled hp ih.1 ih.1
    exact ⟨hsettled, htrees.trans ih.2⟩

end Trees

/-- However often the script of two reduced trees is read, the distances of all pairs of subtrees
stay as they were completed, the distance of the two trees with them, and the next reading gives the
same script. -/
theorem scriptFrom_iterate_reread (takenA takenB : Nat → Bool) (a b : Place) (k : Nat) :
    let p := alignment (.ofPlace takenA a) (.ofPlace takenB b)
    ((Tables.reread p)^[k] (.complete p)).trees = (Tables.complete p).trees ∧
      ((Tables.reread p)^[k] (.complete p)).distance p = p.distance ∧
      (scriptFrom p ((Tables.reread p)^[k] (.complete p))).1 = p.script := by
  intro p
  have hp : Tables.Numbered p :=
    numbered_alignment (numbered_ofPlace takenA a) (numbered_ofPlace takenB b)
  have hcomplete := allSettled_complete hp
  obtain ⟨hsettled, htrees⟩ := iterate_reread_settled hp.toOrdered hcomplete k
  refine ⟨htrees, ?_, (reread_settled hp.toOrdered hsettled hcomplete).1⟩
  rw [Problem.distance, Tables.distance, Tables.distance, treeDistance, treeDistance, htrees]

end EditDistance

end Relocate
