import Relocate.Proofs.EditDistance.Guarded
import Relocate.Proofs.EditDistance.Siblings

/-!
# Completing and reading without a fault

Every pair of subtrees is at home in the block of exactly one pair of keyroots. Until that block is
filled the pair is not settled, and every block is filled after those that provide what it reads. So
the guarded functions complete the tables without a fault, settling each pair once, and read the
script from them without one as often as one likes.
-/

set_option autoImplicit false

namespace Relocate.EditDistance

variable {α : Type} {p : Problem α}

theorem IsKeyroot.highest_eq {n i x : Nat} {l : Nat → Nat} (hi : IsKeyroot n l i) (hx : x ≤ i)
    (hl : l x = l i) : highest n l x = i := by
  have hxn := hx.trans hi.1.2
  apply Nat.le_antisymm
  · by_contra hlt
    have hsame : l (highest n l x) = l i := (leftmost_highest hxn).trans hl
    exact hi.2 _ (Nat.lt_of_not_le hlt) (EditDistance.highest_le n l x) hsame
  · exact Nat.le_findGreatest hi.1.2 hl.symm

namespace Tables

variable {t : Tables} {before after : List (Nat × Nat)} {i j x y : Nat}

/-- Pairs of trees whose block has not been filled are not settled. -/
def Vacant (p : Problem α) (done : List (Nat × Nat)) (t : Tables) : Prop :=
  ∀ x y, InRange p x y → home p x y ∉ done → t.trees.get x y = none

theorem vacant_blank (p : Problem α) (done : List (Nat × Nat)) : Vacant p done (blank p) := by
  intro x y hxy _
  simp only [blank, Grid.get, Grid.blank, Array.getElem?_replicate]
  rw [if_pos (Nat.lt_succ_of_le hxy.src_le), Option.bind_some, Array.getElem?_replicate,
    if_pos (Nat.lt_succ_of_le hxy.dst_le)]
  rfl

theorem home_eq (hp : Numbered p) (hij : (i, j) ∈ schedule p) (hx : x ≤ i) (hy : y ≤ j)
    (hlx : p.srcLeftmost x = p.srcLeftmost i) (hly : p.dstLeftmost y = p.dstLeftmost j) :
    home p x y = (i, j) := by
  obtain ⟨hi, hj⟩ := (mem_schedule hp).1 hij
  rw [home, hi.highest_eq hx hlx, hj.highest_eq hy hly]

theorem not_mem_before (hp : Numbered p) {u : Nat × Nat} (hs : schedule p = before ++ u :: after) :
    u ∉ before := by
  intro hu
  have hsorted := schedule_sorted hp
  rw [hs] at hsorted
  have := (List.pairwise_append.1 hsorted).2.2 u hu u List.mem_cons_self
  simp only [Earlier] at this
  omega

theorem Vacant.fillBlock (h : Vacant p before t) (hp : Numbered p)
    (hs : schedule p = before ++ (i, j) :: after) (hc : Completed p before t) :
    Vacant p (before ++ [(i, j)]) (fillBlock p i j t) := by
  have hmem : (i, j) ∈ schedule p := by simp [hs]
  obtain ⟨hi, hj⟩ := (mem_schedule hp).1 hmem
  have hprog := progress_fillBlock hp.toOrdered ⟨hi.1.1, hi.1.2, hj.1.1, hj.1.2⟩ hc.sized
    (hc.provided hp hs)
  intro x y hxy hhome
  rw [List.mem_append, not_or, List.mem_singleton] at hhome
  rw [hprog.frame x y fun hb => hhome.2 (home_eq hp hmem hb.1 hb.2.1 hb.2.2.1 hb.2.2.2)]
  exact h x y hxy hhome.1

end Tables

namespace Guarded

open Tables

/-- One flag for each number up to the greatest leftmost leaf tells which were seen. -/
theorem keyrootsFrom_eq (seen : List Nat) (flags : Array Bool) {L : List (Item α)}
    (hflags : ∀ k, k < flags.size → flags[k]? = some (seen.contains k))
    (hL : ∀ u ∈ L, u.leftmost < flags.size) :
    keyrootsFrom flags L = .ok (EditDistance.keyrootsFrom seen L) := by
  induction L generalizing seen flags with
  | nil => rfl
  | cons u L ih =>
    have hflag := hflags u.leftmost (hL u List.mem_cons_self)
    have hL' : ∀ v ∈ L, v.leftmost < flags.size := fun v hv => hL v (List.mem_cons_of_mem u hv)
    rw [EditDistance.keyrootsFrom]
    cases hseen : seen.contains u.leftmost with
    | true =>
      rw [hseen] at hflag
      simp only [keyrootsFrom, hflag, if_pos, ih seen flags hflags hL']
    | false =>
      rw [hseen] at hflag
      have hrest := ih (u.leftmost :: seen) (flags.setIfInBounds u.leftmost true) ?flags
        (by simpa using hL')
      case flags =>
        intro k hk
        rw [Array.size_setIfInBounds] at hk
        rw [Array.getElem?_setIfInBounds, List.contains_cons]
        by_cases hku : u.leftmost = k
        · subst hku
          simp [hk]
        · rw [if_neg hku, hflags k hk, beq_false_of_ne (Ne.symm hku), Bool.false_or]
      simp only [keyrootsFrom, hflag, hrest, ok_bind, Bool.false_eq_true, if_false]

theorem keyroots_eq {items : List (Item α)} (h : ∀ u ∈ items, u.leftmost ≤ items.length) :
    keyroots items = .ok (EditDistance.keyroots items) := by
  have hfrom := keyrootsFrom_eq [] (.replicate (items.length + 1) false) (L := items.reverse)
    ?flags ?below
  case flags =>
    intro k hk
    rw [Array.size_replicate] at hk
    rw [Array.getElem?_replicate, if_pos hk]
    rfl
  case below =>
    intro u hu
    rw [Array.size_replicate]
    exact Nat.lt_succ_of_le (h u (List.mem_reverse.1 hu))
  rw [keyroots, hfrom]
  rfl

theorem leftmost_le_size {items : Array (Item α)} {l : Nat → Nat} (h : Nested items.size l)
    (hl : ∀ k, l k = (items[k - 1]?).elim 0 Item.leftmost) :
    ∀ u ∈ items.toList, u.leftmost ≤ items.toList.length := by
  intro u hu
  obtain ⟨i, hi, rfl⟩ := Array.mem_iff_getElem.1 (Array.mem_toList_iff.1 hu)
  have hle := h.le (i + 1) (by omega) (by omega)
  rw [hl, Nat.add_sub_cancel, Array.getElem?_eq_getElem hi, Option.elim_some] at hle
  rw [Array.length_toList]
  omega

/-- The tables are completed without a fault: every distance that is read was settled before, and
none is settled twice. -/
theorem complete_eq (hp : Numbered p) : complete p = .ok (Tables.complete p) := by
  have hrun := foldlM_prefix (L := schedule p) (s := blank p)
    (f := fun t ij => Tables.fillBlock p ij.1 ij.2 t)
    (g := fun t ij => fillBlock true p ij.1 ij.2 t)
    (P := fun done t => Completed p done t ∧ Vacant p done t)
    ⟨⟨sized_blank p, fun x y _ h => absurd h List.not_mem_nil⟩, vacant_blank p []⟩ ?step
  case step =>
    intro before ij after t hs ⟨hc, hv⟩
    have hmem : (ij.1, ij.2) ∈ schedule p := by simp [hs]
    obtain ⟨hi, hj⟩ := (mem_schedule hp).1 hmem
    refine ⟨?_, hc.fillBlock hp hs, hv.fillBlock hp hs hc⟩
    apply fillBlock_eq hp.toOrdered ⟨hi.1.1, hi.1.2, hj.1.1, hj.1.2⟩ hc.sized (hc.provided hp hs)
    intro _ x y hxy hx hy hlx hly
    apply hv x y hxy
    rw [home_eq hp hmem hx hy hlx hly]
    exact not_mem_before hp hs
  rw [complete, keyroots_eq (leftmost_le_size hp.src fun _ => rfl), ok_bind,
    keyroots_eq (leftmost_le_size hp.dst fun _ => rfl), ok_bind]
  exact hrun.1

def fork : Problem Unit where
  src := #[⟨(), 1, 1⟩, ⟨(), 2, 2⟩, ⟨(), 3, 1⟩]
  dst := #[⟨(), 1, 1⟩, ⟨(), 2, 2⟩, ⟨(), 3, 1⟩]
  same _ _ := true

-- out of order, the same blocks do fault
example : fillBlock true fork 3 3 (.blank fork) = .error .unsettled := rfl

example : complete fork >>= fillBlock true fork 1 1 = .error .settledTwice := rfl

variable {t : Tables} {i j : Nat}

theorem traceBack_eq (h : Filled p i j t) (hp : p.Ordered) (hij : InRange p i j) (row col : Nat)
    (hb : InBlock p i j row col) :
    ∀ fuel, row + col ≤ fuel →
      traceBack p t (p.srcLeftmost i - 1) (p.dstLeftmost j - 1) fuel row col = .ok
        (EditDistance.traceBack p t (p.srcLeftmost i - 1) (p.dstLeftmost j - 1) fuel row col) := by
  have ha := hp.src.pos i hij.src_pos hij.src_le
  have hb1 := hp.dst.pos j hij.dst_pos hij.dst_le
  have step : ∀ {row col}, InBlock p i j row col →
      read t.steps row col = .ok (t.steps.get row col) := fun hb =>
    read_eq (h.sized _ _ (hb.row_le.trans hij.src_le) (hb.col_le.trans hij.dst_le)).2.1
  -- the fuel is general: every step spends one of it and lowers the row or the column
  refine h.backward hp hij (motive := fun row col => ∀ fuel, row + col ≤ fuel →
    traceBack p t (p.srcLeftmost i - 1) (p.dstLeftmost j - 1) fuel row col =
      .ok (EditDistance.traceBack p t (p.srcLeftmost i - 1) (p.dstLeftmost j - 1) fuel row col))
    ?corner ?delete ?insert ?change ?block row col hb
  case corner =>
    intro row col hcorner fuel _
    cases fuel with
    | zero => rw [traceBack, if_neg hcorner, EditDistance.traceBack]
    | succ fuel => rw [traceBack, if_neg hcorner, EditDistance.traceBack, if_neg hcorner]
  case delete =>
    intro row col hb hr hs ih fuel hfuel
    obtain ⟨fuel, rfl⟩ := Nat.exists_eq_succ_of_ne_zero (show fuel ≠ 0 by omega)
    have hguard : p.srcLeftmost i - 1 < row ∨ p.dstLeftmost j - 1 < col := Or.inl (by omega)
    obtain ⟨u, hu, -⟩ := item_eq p.src (show 1 ≤ row by omega)
      (hb.row_le.trans hij.src_le)
    simp only [traceBack, EditDistance.traceBack, if_pos hguard, step hb, hs, hu, ok_bind,
      pred_of_pos (show 1 ≤ row by omega), ih fuel (by omega)]
  case insert =>
    intro row col hb hc hs ih fuel hfuel
    obtain ⟨fuel, rfl⟩ := Nat.exists_eq_succ_of_ne_zero (show fuel ≠ 0 by omega)
    have hguard : p.srcLeftmost i - 1 < row ∨ p.dstLeftmost j - 1 < col := Or.inr (by omega)
    obtain ⟨u, hu, -⟩ := item_eq p.dst (show 1 ≤ col by omega)
      (hb.col_le.trans hij.dst_le)
    simp only [traceBack, EditDistance.traceBack, if_pos hguard, step hb, hs, hu, ok_bind,
      pred_of_pos (show 1 ≤ col by omega), ih fuel (by omega)]
  case change =>
    intro row col hb hr hc hs ih fuel hfuel
    obtain ⟨fuel, rfl⟩ := Nat.exists_eq_succ_of_ne_zero (show fuel ≠ 0 by omega)
    have hguard : p.srcLeftmost i - 1 < row ∨ p.dstLeftmost j - 1 < col := Or.inl (by omega)
    have hrange : InRange p row col :=
      ⟨by omega, hb.row_le.trans hij.src_le, by omega, hb.col_le.trans hij.dst_le⟩
    simp only [traceBack, EditDistance.traceBack, if_pos hguard, step hb, hs, ok_bind,
      changeCost_eq hrange, pred_of_pos hrange.src_pos, pred_of_pos hrange.dst_pos,
      ih fuel (by omega)]
  case block =>
    intro row col hb hr hc hs ih fuel hfuel
    obtain ⟨fuel, rfl⟩ := Nat.exists_eq_succ_of_ne_zero (show fuel ≠ 0 by omega)
    have hguard : p.srcLeftmost i - 1 < row ∨ p.dstLeftmost j - 1 < col := Or.inl (by omega)
    have hrange : InRange p row col :=
      ⟨by omega, hb.row_le.trans hij.src_le, by omega, hb.col_le.trans hij.dst_le⟩
    have hlr := hp.src.le row hrange.src_pos hrange.src_le
    have hlc := hp.dst.le col hrange.dst_pos hrange.dst_le
    simp only [traceBack, EditDistance.traceBack, if_pos hguard, step hb, hs, ok_bind,
      leftmost_src hrange.src_pos hrange.src_le, leftmost_dst hrange.dst_pos hrange.dst_le,
      pred_of_pos (hp.src.pos row hrange.src_pos hrange.src_le),
      pred_of_pos (hp.dst.pos col hrange.dst_pos hrange.dst_le), ih fuel (by omega)]

theorem readBlock_eq (h : Filled p i j t) (hp : p.Ordered) (hij : InRange p i j) :
    readBlock p t i j = .ok (EditDistance.readBlock p t i j) := by
  rw [readBlock, leftmost_src hij.src_pos hij.src_le, ok_bind,
    leftmost_dst hij.dst_pos hij.dst_le, ok_bind,
    pred_of_pos (hp.src.pos i hij.src_pos hij.src_le), ok_bind,
    pred_of_pos (hp.dst.pos j hij.dst_pos hij.dst_le), ok_bind]
  exact traceBack_eq h hp hij i j (inBlock_root hp hij) (i + j) (Nat.le_refl _)

/-- A stack of blocks is worked off without a fault from settled tables, within as many rounds as
its blocks have nodes. -/
theorem readPending_eq (hp : p.Ordered) (fuel : Nat) (stack : List (Nat × Nat))
    (ht : AllSettled p t) (hstack : ∀ u ∈ stack, InRange p u.1 u.2)
    (hfuel : stackSize p stack < fuel) :
    readPending p fuel stack t = .ok (EditDistance.readPending p fuel stack t) := by
  induction fuel generalizing stack t with
  | zero => omega
  | succ fuel ih =>
    cases stack with
    | nil => rfl
    | cons u stack =>
      obtain ⟨i, j⟩ := u
      have hij : InRange p i j := hstack (i, j) List.mem_cons_self
      have hfill : fillBlock false p i j t = .ok (Tables.fillBlock p i j t) :=
        fillBlock_eq hp hij ht.sized (ht.provided hp hij) nofun
      have hsize := (ht.route hp hij).stackSize_lt hp hij stack
      have hrest := ih
        ((EditDistance.readBlock p (Tables.fillBlock p i j t) i j).blocks.reverse ++ stack)
        (ht.fillBlock hp hij) (ht.inRange_pending hp hstack) (by omega)
      rw [readPending, hfill, ok_bind, readBlock_eq (ht.filled hp hij) hp hij, ok_bind, hrest]
      rfl

end Guarded

open Tables

/-- Completing the tables of two reduced trees and reading the script from them, as often as one
likes, goes without a fault. The keyroots are the root and the nodes with a left sibling, and in
the end the distance of every pair of subtrees is settled. -/
theorem guarded_complete_scriptFrom (takenA takenB : Nat → Bool) (a b : Place) :
    let A := Reduced.ofPlace takenA a
    let B := Reduced.ofPlace takenB b
    let p := alignment A B
    (RootAndLaterChildren A (keyroots A.items) ∧ RootAndLaterChildren B (keyroots B.items)) ∧
      Guarded.complete p = .ok (.complete p) ∧
      (∀ i j, InRange p i j → ∃ cost, (Tables.complete p).trees.get i j = some cost) ∧
      ∀ k, Guarded.scriptFrom p ((Tables.reread p)^[k] (.complete p)) =
        .ok (scriptFrom p ((Tables.reread p)^[k] (.complete p))) := by
  intro A B p
  have hA : A.Numbered := numbered_ofPlace takenA a
  have hB : B.Numbered := numbered_ofPlace takenB b
  have hp : Tables.Numbered p := numbered_alignment hA hB
  have hcomplete := allSettled_complete hp
  refine ⟨⟨rootAndLaterChildren_keyroots hA, rootAndLaterChildren_keyroots hB⟩,
    Guarded.complete_eq hp, fun i j hij => ⟨_, hcomplete.trees i j hij⟩, ?_⟩
  intro k
  have hsettled := (iterate_reread_settled hp.toOrdered hcomplete k).1
  have hroots : InRange p p.src.size p.dst.size := by
    simpa [p] using inRange_roots A B
  apply Guarded.readPending_eq hp.toOrdered _ _ hsettled
  · intro u hu
    rwa [List.mem_singleton.1 hu]
  · have hls := hp.src.pos _ hroots.src_pos hroots.src_le
    have hld := hp.dst.pos _ hroots.dst_pos hroots.dst_le
    simp only [stackSize, List.map_cons, List.map_nil, List.sum_cons, List.sum_nil, blockSize]
    omega

end Relocate.EditDistance
