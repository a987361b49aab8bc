import Mathlib.Algebra.Order.Ring.Nat
import Relocate.EditDistance.Script
import Relocate.Proofs.EditDistance.Block

/-!
# Routes through a filled block

In a filled block the steps lead from every cell back to the corner, and no start step is met on the
way. Each of them is one way in which the recurrence reaches the least cost of its window, so the
operations along the route, together with those of the blocks passed over, align the whole window at
the least cost.
-/

set_option autoImplicit false

namespace Relocate.EditDistance

variable {α : Type}

namespace EditOp

def source? : EditOp → Option Nat
  | delete i => some i
  | insert _ => none
  | change i _ _ => some i

def target? : EditOp → Option Nat
  | delete _ => none
  | insert j => some j
  | change _ j _ => some j

def pair? : EditOp → Option (Nat × Nat)
  | change i j _ => some (i, j)
  | _ => none

end EditOp

def changed (ops : List EditOp) : Finset (Nat × Nat) := (ops.filterMap EditOp.pair?).toFinset

theorem mem_changed {ops : List EditOp} {u : Nat × Nat} :
    u ∈ changed ops ↔ ∃ c, .change u.1 u.2 c ∈ ops := by
  rw [changed, List.mem_toFinset, List.mem_filterMap]
  constructor
  · rintro ⟨op, hop, hu⟩
    cases op with
    | delete i => simp [EditOp.pair?] at hu
    | insert j => simp [EditOp.pair?] at hu
    | change i j c =>
      simp only [EditOp.pair?, Option.some.injEq] at hu
      exact ⟨c, by rwa [← hu]⟩
  · rintro ⟨c, hc⟩
    exact ⟨_, hc, rfl⟩

theorem scriptCost_eq_sum (ops : List EditOp) : scriptCost ops = (ops.map EditOp.cost).sum := by
  induction ops with
  | nil => rfl
  | cons op ops ih => rw [scriptCost, ih, List.map_cons, List.sum_cons]

theorem span_eq_append {a b c : Nat} (hab : a ≤ b) (hbc : b ≤ c) (hb : 1 ≤ b) :
    span a c = span a (b - 1) ++ span b c := by
  have hlen : c + 1 - a = (b - 1 + 1 - a) + (c + 1 - b) := by omega
  have hmid : b = a + (b - 1 + 1 - a) := by omega
  rw [span, span, span, hlen, ← List.range'_append_1, ← hmid]

theorem span_self (k : Nat) : span k k = [k] := by
  rw [span, Nat.add_sub_cancel_left]
  rfl

theorem span_of_lt {a i : Nat} (h : i < a) : span a i = [] := by
  rw [span, Nat.sub_eq_zero_of_le h]
  rfl

/-- The operations treat every node of the window once, keep its order and nesting, and cost the
least. -/
structure Aligns (p : Problem α) (a i b j : Nat) (ops : List EditOp) : Prop where
  sources : (ops.filterMap EditOp.source?).Perm (span a i)
  targets : (ops.filterMap EditOp.target?).Perm (span b j)
  aligned : p.Aligned (changed ops)
  costs : ∀ r c cost, .change r c cost ∈ ops → cost = p.changeCost r c
  cost : scriptCost ops = p.least a i b j

namespace Aligns

variable {p : Problem α} {a r b c : Nat} {ops rest : List EditOp}

theorem within (h : Aligns p a r b c ops) : Problem.Within a r b c (changed ops) := by
  intro u hu
  obtain ⟨cost, hc⟩ := mem_changed.1 hu
  have hs := h.sources.subset (List.mem_filterMap.2 ⟨_, hc, rfl⟩)
  have ht := h.targets.subset (List.mem_filterMap.2 ⟨_, hc, rfl⟩)
  exact ⟨mem_span.1 hs, mem_span.1 ht⟩

theorem perm (h : Aligns p a r b c ops) (hp : ops.Perm rest) : Aligns p a r b c rest where
  sources := (hp.filterMap _).symm.trans h.sources
  targets := (hp.filterMap _).symm.trans h.targets
  aligned := by
    rw [changed, ← List.toFinset_eq_of_perm _ _ (hp.filterMap _)]
    exact h.aligned
  costs := fun r c cost hc => h.costs r c cost (hp.mem_iff.2 hc)
  cost := by
    rw [← h.cost, scriptCost_eq_sum, scriptCost_eq_sum]
    exact ((hp.map _).sum_eq).symm

theorem nil (p : Problem α) (hr : r < a) (hc : c < b) : Aligns p a r b c [] where
  sources := by rw [span_of_lt hr]; exact List.Perm.refl []
  targets := by rw [span_of_lt hc]; exact List.Perm.refl []
  aligned := ⟨by simp [changed], by simp [changed]⟩
  costs := by simp
  cost := by
    rw [Problem.least_no_rows p b c hr, scriptCost]
    omega

theorem delete (h : Aligns p a (r - 1) b c ops) (hr : a ≤ r) (hr1 : 1 ≤ r)
    (hcost : p.least a r b c = p.least a (r - 1) b c + 1) :
    Aligns p a r b c (.delete r :: ops) where
  sources := by
    rw [span_eq_append hr (Nat.le_refl r) hr1, span_self]
    exact (h.sources.cons r).trans (List.perm_append_singleton r _).symm
  targets := h.targets
  aligned := h.aligned
  costs := fun r c cost hc => h.costs r c cost (by simpa using hc)
  cost := by
    rw [scriptCost, h.cost, hcost, EditOp.cost, Nat.add_comm]

theorem insert (h : Aligns p a r b (c - 1) ops) (hc : b ≤ c) (hc1 : 1 ≤ c)
    (hcost : p.least a r b c = p.least a r b (c - 1) + 1) :
    Aligns p a r b c (.insert c :: ops) where
  sources := h.sources
  targets := by
    rw [span_eq_append hc (Nat.le_refl c) hc1, span_self]
    exact (h.targets.cons c).trans (List.perm_append_singleton c _).symm
  aligned := h.aligned
  costs := fun r c cost hc => h.costs r c cost (by simpa using hc)
  cost := by
    rw [scriptCost, h.cost, hcost, EditOp.cost, Nat.add_comm]

theorem change (h : Aligns p a (r - 1) b (c - 1) ops) (hr : p.srcLeftmost r = a)
    (hc : p.dstLeftmost c = b) (ha : 1 ≤ a) (hb : 1 ≤ b) (har : a ≤ r) (hbc : b ≤ c)
    (hcost : p.least a r b c = p.least a (r - 1) b (c - 1) + p.changeCost r c) :
    Aligns p a r b c (.change r c (p.changeCost r c) :: ops) where
  sources := by
    rw [span_eq_append har (Nat.le_refl r) (by omega), span_self]
    exact (h.sources.cons r).trans (List.perm_append_singleton r _).symm
  targets := by
    rw [span_eq_append hbc (Nat.le_refl c) (by omega), span_self]
    exact (h.targets.cons c).trans (List.perm_append_singleton c _).symm
  aligned := by
    have hset : changed (.change r c (p.changeCost r c) :: ops) =
        Insert.insert (r, c) (changed ops) := by
      simp [changed, EditOp.pair?]
    rw [hset]
    exact h.aligned.insert_roots h.within hr hc ha hb har hbc
  costs := by
    intro r' c' cost hmem
    rcases List.mem_cons.1 hmem with heq | hmem
    · cases heq
      rfl
    · exact h.costs r' c' cost hmem
  cost := by
    rw [scriptCost, h.cost, hcost, EditOp.cost, Nat.add_comm]

theorem block (h : Aligns p a (p.srcLeftmost r - 1) b (p.dstLeftmost c - 1) ops)
    (g : Aligns p (p.srcLeftmost r) r (p.dstLeftmost c) c rest) (hp : p.Ordered)
    (hr : r ≤ p.src.size) (hc : c ≤ p.dst.size) (ha : 1 ≤ a) (hb : 1 ≤ b)
    (har : a ≤ p.srcLeftmost r) (hbc : b ≤ p.dstLeftmost c) (hlr : p.srcLeftmost r ≤ r)
    (hlc : p.dstLeftmost c ≤ c)
    (hcost : p.least a r b c =
      p.least a (p.srcLeftmost r - 1) b (p.dstLeftmost c - 1) + p.treeCost r c) :
    Aligns p a r b c (ops ++ rest) where
  sources := by
    rw [span_eq_append har hlr (by omega), List.filterMap_append]
    exact h.sources.append g.sources
  targets := by
    rw [span_eq_append hbc hlc (by omega), List.filterMap_append]
    exact h.targets.append g.targets
  aligned := by
    have hset : changed (ops ++ rest) = changed ops ∪ changed rest := by
      rw [changed, List.filterMap_append, List.toFinset_append]
      rfl
    rw [hset]
    exact h.aligned.union_block hp hr hc ha hb har hbc h.within g.aligned g.within
  costs := by
    intro r' c' cost hmem
    rcases List.mem_append.1 hmem with hmem | hmem
    · exact h.costs r' c' cost hmem
    · exact g.costs r' c' cost hmem
  cost := by
    rw [hcost, Problem.treeCost, ← h.cost, ← g.cost, scriptCost_eq_sum, scriptCost_eq_sum,
      scriptCost_eq_sum, List.map_append, List.sum_append]

end Aligns

/-- The walk from a cell back to the corner of its block, by steps other than the start step. -/
inductive Walk (p : Problem α) (t : Tables) (firstRow firstCol : Nat) : Nat → Nat → Trace → Prop
  | corner {row col : Nat} : ¬ (firstRow < row ∨ firstCol < col) →
      Walk p t firstRow firstCol row col {}
  | delete {row col : Nat} {trace : Trace} : (firstRow < row ∨ firstCol < col) →
      t.steps.get row col = .delete → Walk p t firstRow firstCol (row - 1) col trace →
      Walk p t firstRow firstCol row col (trace.withOp (.delete row))
  | insert {row col : Nat} {trace : Trace} : (firstRow < row ∨ firstCol < col) →
      t.steps.get row col = .insert → Walk p t firstRow firstCol row (col - 1) trace →
      Walk p t firstRow firstCol row col (trace.withOp (.insert col))
  | change {row col : Nat} {trace : Trace} : (firstRow < row ∨ firstCol < col) →
      t.steps.get row col = .change → Walk p t firstRow firstCol (row - 1) (col - 1) trace →
      Walk p t firstRow firstCol row col
        (trace.withOp (.change row col (p.changeCost row col)))
  | block {row col : Nat} {trace : Trace} : (firstRow < row ∨ firstCol < col) →
      t.steps.get row col = .block →
      Walk p t firstRow firstCol (p.srcLeftmost row - 1) (p.dstLeftmost col - 1) trace →
      Walk p t firstRow firstCol row col (trace.withBlock (row, col))

/-- The same way told by least costs, in the block with the corner before `a` and `b`. -/
inductive Route (p : Problem α) (a b : Nat) : Nat → Nat → Trace → Prop
  | corner {r c : Nat} : r < a → c < b → Route p a b r c {}
  | delete {r c : Nat} {trace : Trace} : a ≤ r →
      p.least a r b c = p.least a (r - 1) b c + 1 → Route p a b (r - 1) c trace →
      Route p a b r c (trace.withOp (.delete r))
  | insert {r c : Nat} {trace : Trace} : b ≤ c →
      p.least a r b c = p.least a r b (c - 1) + 1 → Route p a b r (c - 1) trace →
      Route p a b r c (trace.withOp (.insert c))
  | change {r c : Nat} {trace : Trace} : a ≤ r → b ≤ c → p.srcLeftmost r = a →
      p.dstLeftmost c = b →
      p.least a r b c = p.least a (r - 1) b (c - 1) + p.changeCost r c →
      Route p a b (r - 1) (c - 1) trace →
      Route p a b r c (trace.withOp (.change r c (p.changeCost r c)))
  | block {r c : Nat} {trace : Trace} : Tables.InRange p r c → a ≤ p.srcLeftmost r →
      b ≤ p.dstLeftmost c → ¬ (p.srcLeftmost r = a ∧ p.dstLeftmost c = b) →
      p.least a r b c =
        p.least a (p.srcLeftmost r - 1) b (p.dstLeftmost c - 1) + p.treeCost r c →
      Route p a b (p.srcLeftmost r - 1) (p.dstLeftmost c - 1) trace →
      Route p a b r c (trace.withBlock (r, c))

namespace Problem

variable {p : Problem α} {a b r c : Nat}

theorem cheapest_cases (align : Nat × Step) (delete insert : Nat) :
    Tables.cheapest align delete insert = align ∨
    Tables.cheapest align delete insert = (delete, .delete) ∨
    Tables.cheapest align delete insert = (insert, .insert) := by
  simp only [Tables.cheapest]
  by_cases hd : delete < align.1
  · rw [if_pos hd]
    split
    · exact Or.inr (Or.inr rfl)
    · exact Or.inr (Or.inl rfl)
  · rw [if_neg hd]
    split
    · exact Or.inr (Or.inr rfl)
    · exact Or.inl rfl

/-- What a filled cell away from the corner says: the step, and where its cost comes from. -/
inductive CellWay (p : Problem α) (a b r c : Nat) : Step → Prop
  | delete : a ≤ r → p.least a r b c = p.least a (r - 1) b c + 1 → CellWay p a b r c .delete
  | insert : b ≤ c → p.least a r b c = p.least a r b (c - 1) + 1 → CellWay p a b r c .insert
  | change : a ≤ r → b ≤ c → p.srcLeftmost r = a → p.dstLeftmost c = b →
      p.least a r b c = p.least a (r - 1) b (c - 1) + p.changeCost r c →
      CellWay p a b r c .change
  | block : a ≤ r → b ≤ c → ¬ (p.srcLeftmost r = a ∧ p.dstLeftmost c = b) →
      p.least a r b c =
        p.least a (p.srcLeftmost r - 1) b (p.dstLeftmost c - 1) + p.treeCost r c →
      CellWay p a b r c .block

theorem cellWay (hp : p.Ordered) (hr : r ≤ p.src.size) (hc : c ≤ p.dst.size) (ha : 1 ≤ a)
    (hb : 1 ≤ b) (har : a ≤ r → a ≤ p.srcLeftmost r) (hbc : b ≤ c → b ≤ p.dstLeftmost c)
    (hcorner : a ≤ r ∨ b ≤ c) : CellWay p a b r c (p.cell a b r c).2 := by
  -- on the border only one way is left
  by_cases hcol : c < b
  · have hrow : a ≤ r := by omega
    rw [cell_of_lt p hrow hcol]
    apply CellWay.delete hrow
    rw [least_no_cols p a r hcol, least_no_cols p a (r - 1) hcol]
    omega
  by_cases hrow : r < a
  · rw [cell_of_row_lt p hrow (by omega)]
    apply CellWay.insert (by omega)
    rw [least_no_rows p b c hrow, least_no_rows p b (c - 1) hrow]
    omega
  have har' := har (by omega)
  have hbc' := hbc (by omega)
  have hcost := choice_fst hp hr hc ha hb har' hbc' (by omega) (by omega)
  rw [cell_inner hp hr hc ha hb har' hbc' (by omega) (by omega)]
  rcases cheapest_cases (if p.srcLeftmost r = a ∧ p.dstLeftmost c = b then
      (p.least a (r - 1) b (c - 1) + p.changeCost r c, .change)
    else (p.least a (p.srcLeftmost r - 1) b (p.dstLeftmost c - 1) + p.treeCost r c, .block))
    (p.least a (r - 1) b c + 1) (p.least a r b (c - 1) + 1) with h | h | h
  · rw [choice, h] at hcost
    rw [choice, h]
    by_cases hw : p.srcLeftmost r = a ∧ p.dstLeftmost c = b
    · rw [if_pos hw] at hcost ⊢
      exact CellWay.change (by omega) (by omega) hw.1 hw.2 hcost.symm
    · rw [if_neg hw] at hcost ⊢
      exact CellWay.block (by omega) (by omega) hw hcost.symm
  · rw [choice, h] at hcost
    rw [choice, h]
    exact CellWay.delete (by omega) hcost.symm
  · rw [choice, h] at hcost
    rw [choice, h]
    exact CellWay.insert (by omega) hcost.symm

end Problem

namespace Tables

variable {p : Problem α} {t : Tables} {i j : Nat}

def Filled (p : Problem α) (i j : Nat) (t : Tables) : Prop :=
  Settled p (p.srcLeftmost i) (p.dstLeftmost j) (fun x y =>
    (p.srcLeftmost i - 1 ≤ x ∧ x ≤ i) ∧ p.dstLeftmost j - 1 ≤ y ∧ y ≤ j) t

theorem filled_fillBlock (hp : p.Ordered) (hij : InRange p i j) (ht : t.Sized p)
    (hprov : Provided p i j t) : Filled p i j (fillBlock p i j t) := by
  have h := (progress_fillBlock hp hij ht hprov).settled
  exact ⟨h.sized, fun x y hxy => h.cells x y (by omega)⟩

/-- From every cell of a filled block there is a walk to the corner, and reading the steps back
finds it. -/
theorem walk_traceBack (hp : p.Ordered) (hij : InRange p i j) (h : Filled p i j t) (fuel : Nat)
    (row col : Nat) (hrow : p.srcLeftmost i - 1 ≤ row) (hi : row ≤ i)
    (hcol : p.dstLeftmost j - 1 ≤ col) (hj : col ≤ j) (hfuel : row + col ≤ fuel) :
    Walk p t (p.srcLeftmost i - 1) (p.dstLeftmost j - 1) row col
        (traceBack p t (p.srcLeftmost i - 1) (p.dstLeftmost j - 1) fuel row col) ∧
      Route p (p.srcLeftmost i) (p.dstLeftmost j) row col
        (traceBack p t (p.srcLeftmost i - 1) (p.dstLeftmost j - 1) fuel row col) := by
  obtain ⟨hi1, hin, hj1, hjm⟩ := hij
  have ha := hp.src.pos i hi1 hin
  have hb := hp.dst.pos j hj1 hjm
  induction fuel generalizing row col with
  | zero => exact ⟨.corner (by omega), .corner (by omega) (by omega)⟩
  | succ fuel ih =>
    rw [traceBack]
    by_cases hguard : p.srcLeftmost i - 1 < row ∨ p.dstLeftmost j - 1 < col
    · have hway := Problem.cellWay hp (hi.trans hin) (hj.trans hjm) ha hb
        (fun hle => hp.src.nested row i (by omega) hi hin hle)
        (fun hle => hp.dst.nested col j (by omega) hj hjm hle) (by omega)
      have hstep : t.steps.get row col =
          (p.cell (p.srcLeftmost i) (p.dstLeftmost j) row col).2 :=
        congrArg Prod.snd (h.cells row col ⟨⟨hrow, hi⟩, hcol, hj⟩)
      rw [← hstep] at hway
      rw [if_pos hguard]
      -- the walk follows the stored step and the route its cost; both lead to one cell
      generalize hs : t.steps.get row col = step at hway
      cases hway with
      | delete hr hcost =>
        obtain ⟨walk, route⟩ := ih (row - 1) col (by omega) (by omega) hcol hj
          (by omega)
        exact ⟨.delete hguard hs walk, .delete hr hcost route⟩
      | insert hc hcost =>
        obtain ⟨walk, route⟩ := ih row (col - 1) hrow hi (by omega) (by omega)
          (by omega)
        exact ⟨.insert hguard hs walk, .insert hc hcost route⟩
      | change hr hc hlr hlc hcost =>
        obtain ⟨walk, route⟩ := ih (row - 1) (col - 1) (by omega) (by omega)
          (by omega) (by omega) (by omega)
        exact ⟨.change hguard hs walk, .change hr hc hlr hlc hcost route⟩
      | block hr hc hne hcost =>
        have hlr := hp.src.le row (by omega) (by omega)
        have hlc := hp.dst.le col (by omega) (by omega)
        have har := hp.src.nested row i (by omega) hi hin hr
        have hbc := hp.dst.nested col j (by omega) hj hjm hc
        obtain ⟨walk, route⟩ := ih (p.srcLeftmost row - 1)
          (p.dstLeftmost col - 1) (by omega) (by omega) (by omega) (by omega) (by omega)
        exact ⟨.block hguard hs walk,
          .block ⟨by omega, by omega, by omega, by omega⟩ har hbc hne hcost route⟩
    · rw [if_neg hguard]
      exact ⟨.corner hguard, .corner (by omega) (by omega)⟩

end Tables

end Relocate.EditDistance
