import Relocate.Proofs.EditDistance.Rereading

/-!
# Guarded tables

The tables and the script once more, with every access checked: it is a fault to look outside of a
table or of the list of nodes, to go below zero, to read the distance of two trees that is not
settled, and, while the tables are completed, to settle it twice. What runs without a fault gives
what the unchecked functions give.
-/

set_option autoImplicit false

namespace Relocate

namespace Grid

variable {β : Type}

def get? (g : Grid β) (i j : Nat) : Option β := (g.rows[i]?).bind (·[j]?)

theorem get?_eq_some [Inhabited β] {g : Grid β} {i j : Nat} (h : g.Has i j) :
    g.get? i j = some (g.get i j) := by
  obtain ⟨row, hrow, hj⟩ := h
  simp [get?, get, hrow, hj]

end Grid

namespace EditDistance

inductive Fault where
  /-- No such row, column, node or flag. -/
  | outside
  /-- A number below zero. -/
  | underflow
  /-- The distance of two trees is read before it is settled. -/
  | unsettled
  /-- The distance of two trees is settled for the second time. -/
  | settledTwice
  /-- More rounds than were allowed. -/
  | endless
  deriving DecidableEq

namespace Guarded

variable {α β γ : Type}

def pred (k : Nat) : Except Fault Nat := if 0 < k then .ok (k - 1) else .error .underflow

def read (g : Grid β) (i j : Nat) : Except Fault β :=
  match g.get? i j with
  | some b => .ok b
  | none => .error .outside

def write (g : Grid β) (i j : Nat) (b : β) [Inhabited β] : Except Fault (Grid β) :=
  match g.get? i j with
  | some _ => .ok (g.set i j b)
  | none => .error .outside

def item (items : Array (Item α)) (k : Nat) : Except Fault (Item α) := do
  let i ← pred k
  match items[i]? with
  | some u => .ok u
  | none => .error .outside

def leftmost (items : Array (Item α)) (k : Nat) : Except Fault Nat := do
  let u ← item items k
  .ok u.leftmost

def changeCost (p : Problem α) (i j : Nat) : Except Fault Nat := do
  let a ← item p.src i
  let b ← item p.dst j
  .ok (if p.same a.label b.label then 0 else 1)

def setCell (t : Tables) (i j cost : Nat) (step : Step) : Except Fault Tables := do
  let forests ← write t.forests i j cost
  let steps ← write t.steps i j step
  .ok { t with forests, steps }

/-- Settles the distance of two trees; a second time only if that is allowed. -/
def setTree (once : Bool) (t : Tables) (i j cost : Nat) : Except Fault Tables := do
  let before ← read t.trees i j
  if once && before.isSome then .error .settledTwice
  else do
    let trees ← write t.trees i j (some cost)
    .ok { t with trees }

def treeDistance (t : Tables) (i j : Nat) : Except Fault Nat := do
  match ← read t.trees i j with
  | some cost => .ok cost
  | none => .error .unsettled

def fillCell (once : Bool) (p : Problem α) (li lj di dj : Nat) (t : Tables) :
    Except Fault Tables := do
  let delete ← read t.forests (← pred di) dj
  let insert ← read t.forests di (← pred dj)
  let ri ← leftmost p.src di
  let rj ← leftmost p.dst dj
  if ri = li ∧ rj = lj then do
    let before ← read t.forests (← pred di) (← pred dj)
    let change ← changeCost p di dj
    let (cost, step) := Tables.cheapest (before + change, .change) (delete + 1) (insert + 1)
    setTree once (← setCell t di dj cost step) di dj cost
  else do
    let before ← read t.forests (← pred ri) (← pred rj)
    let tree ← treeDistance t di dj
    let (cost, step) := Tables.cheapest (before + tree, .block) (delete + 1) (insert + 1)
    setCell t di dj cost step

def fillBorder (li lj i j : Nat) (t : Tables) : Except Fault Tables := do
  let row ← pred li
  let col ← pred lj
  let corner ← setCell t row col 0 .start
  let column ← (span li i).foldlM (fun t di => do
    let before ← read t.forests (← pred di) col
    setCell t di col (before + 1) .delete) corner
  (span lj j).foldlM (fun t dj => do
    let before ← read t.forests row (← pred dj)
    setCell t row dj (before + 1) .insert) column

def fillBlock (once : Bool) (p : Problem α) (i j : Nat) (t : Tables) : Except Fault Tables := do
  let li ← leftmost p.src i
  let lj ← leftmost p.dst j
  let border ← fillBorder li lj i j t
  (span li i).foldlM (fun t di =>
    (span lj j).foldlM (fun t dj => fillCell once p li lj di dj t) t) border

/-- The numbers of the keyroots, with one flag for each number that can be a leftmost leaf. -/
def keyrootsFrom (seen : Array Bool) : List (Item α) → Except Fault (List Nat)
  | [] => .ok []
  | u :: rest =>
    match seen[u.leftmost]? with
    | none => .error .outside
    | some true => keyrootsFrom seen rest
    | some false => do
      let roots ← keyrootsFrom (seen.setIfInBounds u.leftmost true) rest
      .ok (u.order :: roots)

def keyroots (items : List (Item α)) : Except Fault (List Nat) := do
  let roots ← keyrootsFrom (.replicate (items.length + 1) false) items.reverse
  .ok roots.reverse

def complete (p : Problem α) : Except Fault Tables := do
  let is ← keyroots p.src.toList
  let js ← keyroots p.dst.toList
  (is.flatMap fun i => js.map fun j => (i, j)).foldlM
    (fun t ij => fillBlock true p ij.1 ij.2 t) (.blank p)

def traceBack (p : Problem α) (t : Tables) (firstRow firstCol : Nat) :
    Nat → Nat → Nat → Except Fault Trace
  | 0, row, col => if firstRow < row ∨ firstCol < col then .error .endless else .ok {}
  | fuel + 1, row, col =>
    if firstRow < row ∨ firstCol < col then do
      match ← read t.steps row col with
      | .start => .ok {}
      | .delete =>
        let _ ← item p.src row
        let trace ← traceBack p t firstRow firstCol fuel (← pred row) col
        .ok (trace.withOp (.delete row))
      | .insert =>
        let _ ← item p.dst col
        let trace ← traceBack p t firstRow firstCol fuel row (← pred col)
        .ok (trace.withOp (.insert col))
      | .change =>
        let cost ← changeCost p row col
        let trace ← traceBack p t firstRow firstCol fuel (← pred row) (← pred col)
        .ok (trace.withOp (.change row col cost))
      | .block =>
        let firstLeaf ← leftmost p.src row
        let firstLeaf' ← leftmost p.dst col
        let trace ← traceBack p t firstRow firstCol fuel (← pred firstLeaf) (← pred firstLeaf')
        .ok (trace.withBlock (row, col))
    else .ok {}

def readBlock (p : Problem α) (t : Tables) (i j : Nat) : Except Fault Trace := do
  let li ← leftmost p.src i
  let lj ← leftmost p.dst j
  traceBack p t (← pred li) (← pred lj) (i + j) i j

def readPending (p : Problem α) :
    Nat → List (Nat × Nat) → Tables → Except Fault (List EditOp × Tables)
  | _, [], t => .ok ([], t)
  | 0, _ :: _, _ => .error .endless
  | fuel + 1, (i, j) :: stack, t => do
    let filled ← fillBlock false p i j t
    let trace ← readBlock p filled i j
    let (ops, last) ← readPending p fuel (trace.blocks.reverse ++ stack) filled
    .ok (trace.ops ++ ops, last)

def scriptFrom (p : Problem α) (t : Tables) : Except Fault (List EditOp × Tables) :=
  readPending p (p.src.size + p.dst.size + 1) [(p.src.size, p.dst.size)] t

theorem ok_bind (b : β) (f : β → Except Fault γ) : (Except.ok b >>= f) = f b := rfl

theorem foldlM_prefix {f : β → γ → β} {g : β → γ → Except Fault β} {P : List γ → β → Prop}
    {L : List γ} {s : β} (h₀ : P [] s)
    (step : ∀ before a after s, L = before ++ a :: after → P before s →
      g s a = .ok (f s a) ∧ P (before ++ [a]) (f s a)) :
    L.foldlM g s = .ok (L.foldl f s) ∧ P L (L.foldl f s) := by
  apply foldl_prefix (f := f) (P := fun before s' => before.foldlM g s = .ok s' ∧ P before s')
    ⟨rfl, h₀⟩
  intro before a after s' hL ⟨hrun, hP⟩
  obtain ⟨hok, hnext⟩ := step before a after s' hL hP
  refine ⟨?_, hnext⟩
  rw [List.foldlM_append, hrun, ok_bind, List.foldlM_cons, hok, ok_bind]
  rfl

theorem foldlM_span {f : β → Nat → β} {g : β → Nat → Except Fault β} {P : Nat → β → Prop}
    {first last : Nat} {s : β} (h1 : 1 ≤ first) (h : first ≤ last + 1) (h₀ : P first s)
    (step : ∀ k s, first ≤ k → k ≤ last → P k s → g s k = .ok (f s k) ∧ P (k + 1) (f s k)) :
    (span first last).foldlM g s = .ok ((span first last).foldl f s) ∧
      P (last + 1) ((span first last).foldl f s) := by
  apply foldl_span (f := f)
    (P := fun k s' => (span first (k - 1)).foldlM g s = .ok s' ∧ P k s') h
    ⟨by rw [span_of_lt (by omega)]; rfl, h₀⟩
  intro k s' hk hkl ⟨hrun, hP⟩
  obtain ⟨hok, hnext⟩ := step k s' hk hkl hP
  refine ⟨?_, hnext⟩
  rw [Nat.add_sub_cancel, span_eq_append hk (Nat.le_refl k) (by omega), span_self,
    List.foldlM_append, hrun, ok_bind, List.foldlM_cons, hok, ok_bind]
  rfl

section Accesses

variable {p : Problem α} {t : Tables} {r c : Nat}

theorem pred_of_pos {k : Nat} (h : 1 ≤ k) : pred k = .ok (k - 1) := if_pos h

theorem read_eq [Inhabited β] {g : Grid β} (h : g.Has r c) : read g r c = .ok (g.get r c) := by
  rw [read, Grid.get?_eq_some h]

theorem write_eq [Inhabited β] {g : Grid β} (h : g.Has r c) (b : β) :
    write g r c b = .ok (g.set r c b) := by
  rw [write, Grid.get?_eq_some h]

theorem read_forests (ht : t.Sized p) (hr : r ≤ p.src.size) (hc : c ≤ p.dst.size) :
    read t.forests r c = .ok (t.forests.get r c) :=
  read_eq (ht r c hr hc).1

theorem setCell_eq (ht : t.Sized p) (hr : r ≤ p.src.size) (hc : c ≤ p.dst.size) (cost : Nat)
    (step : Step) : setCell t r c cost step = .ok (t.setCell r c cost step) := by
  obtain ⟨hf, hs, -⟩ := ht r c hr hc
  rw [setCell, write_eq hf, ok_bind, write_eq hs, ok_bind]
  rfl

theorem setTree_eq {once : Bool} (ht : t.Sized p) (hr : r ≤ p.src.size) (hc : c ≤ p.dst.size)
    (hfree : once = true → t.trees.get r c = none) (cost : Nat) :
    setTree once t r c cost = .ok (t.setTree r c cost) := by
  have hroom := (ht r c hr hc).2.2
  have hguard : ¬ (once && (t.trees.get r c).isSome) = true := by
    rw [Bool.and_eq_true]
    rintro ⟨honce, hsome⟩
    rw [hfree honce] at hsome
    cases hsome
  rw [setTree, read_eq hroom, ok_bind, if_neg hguard, write_eq hroom, ok_bind]
  rfl

theorem treeDistance_eq {cost : Nat} (ht : t.Sized p) (hr : r ≤ p.src.size)
    (hc : c ≤ p.dst.size) (h : t.trees.get r c = some cost) :
    treeDistance t r c = .ok (t.treeDistance r c) := by
  rw [treeDistance, read_eq (ht r c hr hc).2.2, ok_bind, h, Tables.treeDistance, h]
  rfl

theorem item_eq (items : Array (Item α)) {k : Nat} (h1 : 1 ≤ k) (hn : k ≤ items.size) :
    ∃ u, item items k = .ok u ∧ items[k - 1]? = some u := by
  have hlt : k - 1 < items.size := by omega
  have hu : items[k - 1]? = some items[k - 1] := Array.getElem?_eq_getElem hlt
  refine ⟨_, ?_, hu⟩
  rw [item, pred_of_pos h1, ok_bind, hu]

theorem leftmost_src (h1 : 1 ≤ r) (hn : r ≤ p.src.size) :
    leftmost p.src r = .ok (p.srcLeftmost r) := by
  obtain ⟨u, hu, hget⟩ := item_eq p.src h1 hn
  rw [leftmost, hu, ok_bind, Problem.srcLeftmost, hget]
  rfl

theorem leftmost_dst (h1 : 1 ≤ c) (hm : c ≤ p.dst.size) :
    leftmost p.dst c = .ok (p.dstLeftmost c) := by
  obtain ⟨u, hu, hget⟩ := item_eq p.dst h1 hm
  rw [leftmost, hu, ok_bind, Problem.dstLeftmost, hget]
  rfl

theorem changeCost_eq (h : Tables.InRange p r c) : changeCost p r c = .ok (p.changeCost r c) := by
  obtain ⟨u, hu, hget⟩ := item_eq p.src h.src_pos h.src_le
  obtain ⟨v, hv, hget'⟩ := item_eq p.dst h.dst_pos h.dst_le
  rw [changeCost, hu, ok_bind, hv, ok_bind]
  simp only [Problem.changeCost, hget, hget']

theorem fillCell_eq {once : Bool} {i j : Nat} (hp : p.Ordered) (hij : Tables.InRange p i j)
    (ht : t.Sized p) (hr : p.srcLeftmost i ≤ r) (hri : r ≤ i) (hc : p.dstLeftmost j ≤ c)
    (hcj : c ≤ j)
    (hsettled : ¬ (p.srcLeftmost r = p.srcLeftmost i ∧ p.dstLeftmost c = p.dstLeftmost j) →
      ∃ cost, t.trees.get r c = some cost)
    (hfree : p.srcLeftmost r = p.srcLeftmost i ∧ p.dstLeftmost c = p.dstLeftmost j →
      once = true → t.trees.get r c = none) :
    fillCell once p (p.srcLeftmost i) (p.dstLeftmost j) r c t =
      .ok (Tables.fillCell p (p.srcLeftmost i) (p.dstLeftmost j) r c t) := by
  obtain ⟨hi1, hin, hj1, hjm⟩ := hij
  have ha := hp.src.pos i hi1 hin
  have hb := hp.dst.pos j hj1 hjm
  have hlr := hp.src.pos r (by omega) (by omega)
  have hlc := hp.dst.pos c (by omega) (by omega)
  have hlr' := hp.src.le r (by omega) (by omega)
  have hlc' := hp.dst.le c (by omega) (by omega)
  have hrc : Tables.InRange p r c := ⟨by omega, by omega, by omega, by omega⟩
  have known : ∀ x y, x ≤ i → y ≤ j → read t.forests x y = .ok (t.forests.get x y) :=
    fun x y hx hy => read_forests ht (by omega) (by omega)
  simp only [fillCell, pred_of_pos hrc.src_pos, pred_of_pos hrc.dst_pos,
    leftmost_src hrc.src_pos hrc.src_le, leftmost_dst hrc.dst_pos hrc.dst_le, ok_bind,
    known (r - 1) c (by omega) hcj, known r (c - 1) hri (by omega), Tables.fillCell]
  by_cases hwhole : p.srcLeftmost r = p.srcLeftmost i ∧ p.dstLeftmost c = p.dstLeftmost j
  · simp only [if_pos hwhole, known (r - 1) (c - 1) (by omega) (by omega), ok_bind,
      changeCost_eq hrc]
    generalize Tables.cheapest _ _ _ = best
    rw [setCell_eq ht hrc.src_le hrc.dst_le, ok_bind]
    exact setTree_eq (ht.setCell _ _ _ _) hrc.src_le hrc.dst_le (hfree hwhole) _
  · obtain ⟨cost, hcost⟩ := hsettled hwhole
    simp only [if_neg hwhole, pred_of_pos hlr, pred_of_pos hlc, ok_bind,
      known (p.srcLeftmost r - 1) (p.dstLeftmost c - 1) (by omega) (by omega),
      treeDistance_eq ht hrc.src_le hrc.dst_le hcost]
    exact setCell_eq ht hrc.src_le hrc.dst_le _ _

theorem border_eq (before : Nat × Nat) (ht : t.Sized p) (hr' : before.1 ≤ p.src.size)
    (hc' : before.2 ≤ p.dst.size) (hr : r ≤ p.src.size) (hc : c ≤ p.dst.size) (step : Step) :
    (do
      let cost ← read t.forests before.1 before.2
      setCell t r c (cost + 1) step) =
        .ok (t.setCell r c (t.forests.get before.1 before.2 + 1) step) := by
  rw [read_forests ht hr' hc', ok_bind, setCell_eq ht hr hc]

theorem fillBorder_eq {a b i j : Nat} (ht : t.Sized p) (ha : 1 ≤ a) (hb : 1 ≤ b) (hai : a ≤ i)
    (hbj : b ≤ j) (hi : i ≤ p.src.size) (hj : j ≤ p.dst.size) :
    fillBorder a b i j t = .ok (Tables.fillBorder a b i j t) := by
  have hcolumn := foldlM_span (P := fun _ s => s.Sized p)
    (f := fun s di => s.setCell di (b - 1) (s.forests.get (di - 1) (b - 1) + 1) .delete)
    (g := fun s di => do
      let before ← read s.forests (← pred di) (b - 1)
      setCell s di (b - 1) (before + 1) .delete)
    ha (show a ≤ i + 1 by omega) (ht.setCell (a - 1) (b - 1) 0 .start) ?column
  have hrow := foldlM_span (P := fun _ s => s.Sized p)
    (f := fun s dj => s.setCell (a - 1) dj (s.forests.get (a - 1) (dj - 1) + 1) .insert)
    (g := fun s dj => do
      let before ← read s.forests (a - 1) (← pred dj)
      setCell s (a - 1) dj (before + 1) .insert)
    hb (show b ≤ j + 1 by omega) hcolumn.2 ?row
  case column =>
    intro di s hdi hdi' hs
    rw [pred_of_pos (by omega), ok_bind]
    exact ⟨border_eq (di - 1, b - 1) hs (by omega) (by omega) (by omega) (by omega) _,
      hs.setCell _ _ _ _⟩
  case row =>
    intro dj s hdj hdj' hs
    rw [pred_of_pos (by omega), ok_bind]
    exact ⟨border_eq (a - 1, dj - 1) hs (by omega) (by omega) (by omega) (by omega) _,
      hs.setCell _ _ _ _⟩
  rw [fillBorder, pred_of_pos ha, ok_bind, pred_of_pos hb, ok_bind,
    setCell_eq ht (by omega) (by omega), ok_bind, hcolumn.1, ok_bind, hrow.1]
  rfl

theorem trees_fillCell_of_ne {li lj x y : Nat} (h : (r, c) ≠ (x, y)) :
    (Tables.fillCell p li lj r c t).trees.get x y = t.trees.get x y := by
  simp only [Tables.fillCell]
  split
  · rw [Tables.trees_setTree_of_ne h, Tables.trees_setCell]
  · rw [Tables.trees_setCell]

/-- What the rows from `r` on, and row `r` from column `c` on, say about settled trees is as it was
before the block was filled. -/
def Ahead (t₀ : Tables) (r c : Nat) (t : Tables) : Prop :=
  ∀ x y, r < x ∨ r = x ∧ c ≤ y → t.trees.get x y = t₀.trees.get x y

theorem Ahead.fillCell {t₀ : Tables} {li lj : Nat} (h : Ahead t₀ r c t) :
    Ahead t₀ r (c + 1) (Tables.fillCell p li lj r c t) := by
  intro x y hxy
  rw [trees_fillCell_of_ne (by simp only [ne_eq, Prod.mk.injEq]; omega)]
  exact h x y (by omega)

/-- A block is filled without a fault where the trees that it reads are settled and, if they may be
settled only once, those that it settles are not. -/
theorem fillBlock_eq {once : Bool} {i j : Nat} (hp : p.Ordered) (hij : Tables.InRange p i j)
    (ht : t.Sized p) (hprov : Tables.Provided p i j t)
    (hfree : once = true → ∀ x y, Tables.InRange p x y → x ≤ i → y ≤ j →
      p.srcLeftmost x = p.srcLeftmost i → p.dstLeftmost y = p.dstLeftmost j →
      t.trees.get x y = none) :
    fillBlock once p i j t = .ok (Tables.fillBlock p i j t) := by
  have ⟨hi1, hin, hj1, hjm⟩ := hij
  have ha := hp.src.pos i hi1 hin
  have hb := hp.dst.pos j hj1 hjm
  have hai := hp.src.le i hi1 hin
  have hbj := hp.dst.le j hj1 hjm
  have hborder := Tables.settled_fillBorder ht ha hb hai hbj hin hjm
  -- rows outside, cells inside: the run, what is filled so far and what is still untouched
  have hrows := foldlM_span
    (P := fun r s => Tables.Progress p i j t r (p.dstLeftmost j) s ∧ Ahead t r 0 s)
    (f := fun s r => (span (p.dstLeftmost j) j).foldl
      (fun s c => Tables.fillCell p (p.srcLeftmost i) (p.dstLeftmost j) r c s) s)
    (g := fun s r => (span (p.dstLeftmost j) j).foldlM
      (fun s c => fillCell once p (p.srcLeftmost i) (p.dstLeftmost j) r c s) s)
    ha (show p.srcLeftmost i ≤ i + 1 by omega)
    ⟨Tables.progress_fillBorder hp hij ht, fun x y _ => by rw [hborder.2]⟩ ?rows
  case rows =>
    intro r s hr hri ⟨hs, hahead⟩
    have hcells := foldlM_span
      (P := fun c s => Tables.Progress p i j t r c s ∧ Ahead t r c s)
      (f := fun s c => Tables.fillCell p (p.srcLeftmost i) (p.dstLeftmost j) r c s)
      (g := fun s c => fillCell once p (p.srcLeftmost i) (p.dstLeftmost j) r c s)
      hb (show p.dstLeftmost j ≤ j + 1 by omega)
      ⟨hs, fun x y hxy => hahead x y (by omega)⟩ ?cells
    case cells =>
      intro c s hc hcj ⟨hs, hahead⟩
      refine ⟨fillCell_eq hp hij hs.settled.sized hr hri hc hcj ?_ ?_,
        Tables.progress_fillCell hp hij hprov hs hr hri hc hcj, hahead.fillCell⟩
      · intro hwhole
        exact ⟨_, (hs.frame r c (by omega)).trans (hprov r c hr hri hc hcj hwhole)⟩
      · intro hwhole honce
        rw [hahead r c (by omega)]
        exact hfree honce r c ⟨by omega, by omega, by omega, by omega⟩ hri hcj hwhole.1 hwhole.2
    obtain ⟨hrun, hdone, hahead'⟩ := hcells
    exact ⟨hrun, hdone.next_row, fun x y hxy => hahead' x y (by omega)⟩
  rw [fillBlock, leftmost_src hi1 hin, ok_bind, leftmost_dst hj1 hjm, ok_bind,
    fillBorder_eq ht ha hb hai hbj hin hjm, ok_bind, hrows.1]
  rfl

end Accesses

end Guarded

end EditDistance

end Relocate
