import Relocate.Proofs.Matching.Ambiguity

/-!
# What the top-down phase leaves behind

Two equal subtrees stay below places of both pools until a place above one of them is found in a
candidate, or until they are compared with each other. So above the least height nothing equal is
left on both sides, except below a candidate's place that found no partner.
-/

set_option autoImplicit false

namespace Relocate.Matching.TopDown

open Store

/-- Where two equal subtrees stand: they are still below places of both pools, one of them lies
below a place of a candidate, or they are a candidate themselves. -/
inductive Standing (s d : Place) (past : List (Place × Place)) (σ : State) : Prop
  | pending (h : σ.Pending s d)
  | below {c : Place × Place} (side : Side) (hc : c ∈ past)
      (h : side.of (s, d) ∈ (side.of c).descendants)
  | met (h : (s, d) ∈ past)

section Run

variable {mix : Mix} {a b : Ast} {σ σ' : State} {past : List (Place × Place)} {minHeight : Nat}
  {s d : Place} (hσ : σ.Trail (Rose.wrap mix a) (Rose.wrap mix b) past)
  (hheight : s.height = d.height) (hiso : s.node.isomorphic d.node = true)

include hσ hheight hiso

/-- A comparison of the tallest places leaves the two below the pools, unless one of the places
above them is in a candidate. -/
theorem Standing.of_pending (htop : σ.src.top = σ.dst.top) (h : σ.Pending s d) :
    Standing s d (candidates σ σ.src.top) (pairUp σ σ.src.top) := by
  obtain ⟨A, hA, hs⟩ := h.src
  obtain ⟨B, hB, hd⟩ := h.dst
  by_cases hout : ∃ side : Side, side.of (A, B) ∈ (candidates σ σ.src.top).map side.of
  · obtain ⟨side, hmem⟩ := hout
    obtain ⟨c, hc, heq⟩ := List.mem_map.1 hmem
    by_cases hself : side.of (s, d) = side.of (A, B)
    · have hk := (mem_ofHeight.1 (of_mem_ofHeight side hc)).2
      rw [heq] at hk
      exact .met (mem_candidates_of_eq hheight hA hs hB hd rfl htop.symm side hiso hk hself)
    · refine .below side hc ?_
      rw [heq]
      refine Place.mem_descendants_of_ne ?_ hself
      cases side
      · exact hs
      · exact hd
  · exact .pending (pending_pairUp hheight hA hs hB hd rfl htop.symm hσ.fresh hiso
      fun side hmem => hout ⟨side, hmem⟩)

theorem Standing.step (h : Standing s d past σ) (hstep : step? minHeight σ = some σ') :
    Standing s d (past ++ if σ.src.top = σ.dst.top then candidates σ σ.src.top else []) σ' := by
  cases h with
  | below side hc h => exact .below side (List.mem_append_left _ hc) h
  | met h => exact .met (List.mem_append_left _ h)
  | pending h =>
    rcases step?_eq_some hstep with ⟨hlt, -, rfl⟩ | ⟨hlt, -, rfl⟩ | ⟨heq, -, rfl⟩
    · exact .pending (h.openSrc hheight hlt)
    · exact .pending (h.openDst hheight hlt)
    · rw [if_pos heq]
      cases Standing.of_pending hσ hheight hiso heq h with
      | pending h => exact .pending h
      | below side hc h => exact .below side (List.mem_append_right _ hc) h
      | met h => exact .met (List.mem_append_right _ h)

theorem Standing.exhaust (minHeight : Nat) (h : Standing s d past σ) :
    Standing s d (past ++ recorded minHeight σ) (exhaust minHeight σ) := by
  induction σ using exhaust.induct minHeight generalizing past with
  | case1 σ hstep =>
    rw [TopDown.exhaust, recorded, hstep, List.append_nil]
    exact h
  | case2 σ σ' hstep ih =>
    rw [TopDown.exhaust, recorded, hstep, ← List.append_assoc]
    exact ih (hσ.step hstep) (h.step hσ hheight hiso hstep)

end Run

theorem top_exhaust_le (minHeight : Nat) (σ : State) :
    (exhaust minHeight σ).src.top ≤ minHeight := by
  induction σ using exhaust.induct minHeight with
  | case1 σ hstep =>
    rw [exhaust, hstep]
    exact (step?_eq_none hstep).1
  | case2 σ σ' hstep ih =>
    rw [exhaust, hstep]
    exact ih

section Fresh

variable {mix : Mix} {minHeight : Nat} {a b : Ast} {c : Place × Place} {s d : Place}

/-- Above the least height, two equal places are a candidate, or one lies below one. -/
theorem standing_compared (hs : s ∈ nodes (Rose.wrap mix a)) (hd : d ∈ nodes (Rose.wrap mix b))
    (hiso : s.node.isomorphic d.node = true) (hmin : minHeight < s.height) :
    (s, d) ∈ found mix minHeight a b ∨
      ∃ side : Side, ∃ c ∈ found mix minHeight a b, side.of (s, d) ∈ (side.of c).descendants := by
  have hheight := Place.height_eq_of_shape_eq ((isomorphic_iff_shape_eq hs hd).1 hiso)
  have hstart : Standing s d [] (freshStart mix a b) :=
    .pending ⟨⟨_, List.mem_singleton_self _, hs⟩, ⟨_, List.mem_singleton_self _, hd⟩⟩
  cases Standing.exhaust (trail_freshStart mix a b) hheight hiso minHeight hstart with
  | met h => exact Or.inl h
  | below side hc h => exact Or.inr ⟨side, _, hc, h⟩
  | pending h =>
    obtain ⟨p, hp, hsp⟩ := h.src
    have hle := height_le_top hp
    have htop := top_exhaust_le minHeight (freshStart mix a b)
    rcases Place.height_le_of_mem_preOrder hsp with rfl | hbelow <;> omega

theorem isMapped_below (side : Side) (hc : c ∈ found mix minHeight a b)
    (hmapped : side.isMapped (freshRun mix minHeight a b) (side.of c) = true)
    {p : Place} (hp : p ∈ (side.of c).preOrder) :
    side.isMapped (freshRun mix minHeight a b) p = true := by
  have hagrees := agrees_freshRun mix minHeight a b
  have hinside := of_inside_found side hc
  obtain ⟨e, he, heq⟩ := (hagrees.isMapped_iff side hinside).1 hmapped
  have hcommitted := mem_committed_of_mem_pairs side hc he heq
  have halike := (trail_compared mix minHeight a b).alike e (mem_found_of_mem_committed hcommitted)
  rw [← heq, ← Side.map_of_zip_preOrder (Place.size_eq_of_shape_eq halike)] at hp
  obtain ⟨u, hu, rfl⟩ := List.mem_map.1 hp
  apply hagrees.isMapped_of_mem
  rw [pairs_freshRun]
  exact List.mem_flatMap.2 ⟨e, hcommitted, hu⟩

theorem mapped_of_mem_found (hc : c ∈ found mix minHeight a b) :
    ∃ side : Side, side.isMapped (freshRun mix minHeight a b) (side.of c) = true := by
  have hagrees := agrees_freshRun mix minHeight a b
  have hmapped : ∀ (side : Side) (e : Place × Place), e ∈ taken mix minHeight a b →
      side.of e = side.of c →
      side.isMapped (freshRun mix minHeight a b) (side.of c) = true := by
    intro side e he heq
    rw [← heq]
    exact hagrees.isMapped_of_mem (mem_pairs_of_mem_committed (mem_taken.1 he)) side
  by_cases hin : c ∈ taken mix minHeight a b
  · exact ⟨.src, hmapped .src c hin rfl⟩
  · obtain ⟨e, he, hshared, -⟩ := exists_blocking hc hin
    rcases hshared with hfst | hsnd
    · exact ⟨.src, hmapped .src e he hfst⟩
    · exact ⟨.dst, hmapped .dst e he hsnd⟩

/-- Two equal places that are both left unmapped lie below a candidate's place that is unmapped,
too. -/
theorem exists_unmapped_above (hs : s ∈ nodes (Rose.wrap mix a))
    (hd : d ∈ nodes (Rose.wrap mix b)) (hiso : s.node.isomorphic d.node = true)
    (hmin : minHeight < s.height)
    (hfree : ∀ side : Side, side.isMapped (freshRun mix minHeight a b) (side.of (s, d)) = false) :
    ∃ side : Side, ∃ c ∈ found mix minHeight a b, side.of (s, d) ∈ (side.of c).descendants ∧
      side.isMapped (freshRun mix minHeight a b) (side.of c) = false := by
  rcases standing_compared hs hd hiso hmin with hmet | ⟨side, c, hc, hbelow⟩
  · obtain ⟨side, hmapped⟩ := mapped_of_mem_found hmet
    rw [hfree side] at hmapped
    cases hmapped
  · refine ⟨side, c, hc, hbelow, ?_⟩
    by_contra hmapped
    rw [Bool.not_eq_false] at hmapped
    have hin := isMapped_below side hc hmapped (Place.mem_preOrder_of_mem_descendants hbelow)
    rw [hfree side] at hin
    cases hin

/-- Where a group has as many source as destination places, none of them is left over. -/
theorem mapped_of_balanced (side : Side) (hc : c ∈ found mix minHeight a b)
    (h : (sources (groupOf (found mix minHeight a b) c)).length =
      (destinations (groupOf (found mix minHeight a b) c)).length) :
    side.isMapped (freshRun mix minHeight a b) (side.of c) = true := by
  have hagrees := agrees_freshRun mix minHeight a b
  have hself : c ∈ groupOf (found mix minHeight a b) c := (mem_groupOf (fun _ => id) hc).2 ⟨hc, rfl⟩
  have hlength : (numbers side (groupOf (found mix minHeight a b) c)).length ≤
      ((groupOf (taken mix minHeight a b) c).map fun e => (side.of e).id).length := by
    rw [List.length_map, length_groupOf_taken hc, h, Nat.min_self]
    cases side
    · exact h.le
    · exact le_rfl
  have hperm := (numbers_subperm side hc).perm_of_length_le hlength
  obtain ⟨e, he, hid⟩ := List.mem_map.1
    (hperm.mem_iff.2 (List.mem_dedup.2 (List.mem_map.2 ⟨c, hself, rfl⟩)))
  have hpair := mem_pairs_of_mem_groupOf he
  have hinside := of_inside_found side hc
  exact (hagrees.isMapped_iff side hinside).2
    ⟨e, hpair, eq_of_id_eq (hagrees.of_inside hpair side) hinside hid⟩

theorem times_freshRun_pos (side : Side) (hc : c ∈ found mix minHeight a b) :
    0 < ((side.marks (freshRun mix minHeight a b)).lookup (side.of c).id).times := by
  have hself : c ∈ groupOf (found mix minHeight a b) c := (mem_groupOf (fun _ => id) hc).2 ⟨hc, rfl⟩
  rw [times_freshRun, times_compared side hc]
  exact List.length_pos_of_mem (List.mem_dedup.2 (List.mem_map.2 ⟨c, hself, rfl⟩))

end Fresh

/-- Above the least height, two equal places are left unmapped only below a place that was in a
candidate and is unmapped, too. So if every candidate has as many equals on the one side as on the
other, of two equal places at least one is mapped. -/
theorem freshRun_complete (mix : Mix) (minHeight : Nat) (a b : Ast) :
    (∀ s ∈ nodes (Rose.wrap mix a), ∀ d ∈ nodes (Rose.wrap mix b),
      s.node.isomorphic d.node = true → minHeight < s.height →
      (freshRun mix minHeight a b).isMappedSrc s = false →
      (freshRun mix minHeight a b).isMappedDst d = false →
      (∃ p ∈ s.ancestors, 0 < ((freshRun mix minHeight a b).src.lookup p.id).times ∧
          (freshRun mix minHeight a b).isMappedSrc p = false) ∨
        ∃ p ∈ d.ancestors, 0 < ((freshRun mix minHeight a b).dst.lookup p.id).times ∧
          (freshRun mix minHeight a b).isMappedDst p = false) ∧
    ((∀ c ∈ found mix minHeight a b, (sources (groupOf (found mix minHeight a b) c)).length =
        (destinations (groupOf (found mix minHeight a b) c)).length) →
      ∀ s ∈ nodes (Rose.wrap mix a), ∀ d ∈ nodes (Rose.wrap mix b),
        s.node.isomorphic d.node = true → minHeight < s.height →
        (freshRun mix minHeight a b).isMappedSrc s = true ∨
          (freshRun mix minHeight a b).isMappedDst d = true) := by
  constructor
  · intro s hs d hd hiso hmin hsrc hdst
    obtain ⟨side, c, hc, hbelow, hfree⟩ :=
      exists_unmapped_above hs hd hiso hmin (Side.forall_iff.2 ⟨hsrc, hdst⟩)
    have habove := Place.mem_ancestors_of_mem_descendants hbelow
    cases side
    · exact Or.inl ⟨c.1, habove, times_freshRun_pos .src hc, hfree⟩
    · exact Or.inr ⟨c.2, habove, times_freshRun_pos .dst hc, hfree⟩
  · intro hbalanced s hs d hd hiso hmin
    by_contra hfree
    rw [not_or, Bool.not_eq_true, Bool.not_eq_true] at hfree
    obtain ⟨side, c, hc, -, hout⟩ :=
      exists_unmapped_above hs hd hiso hmin (Side.forall_iff.2 hfree)
    rw [mapped_of_balanced side hc (hbalanced c hc)] at hout
    cases hout

namespace Surplus

def block : Ast := .node ⟨⟨"block", none⟩, none, 1⟩ [Moved.call]

def before : Ast := .node ⟨⟨"body", none⟩, none, 1⟩ [block, block]

def after : Ast := .node ⟨⟨"body", none⟩, none, 1⟩ [block, Moved.call]

/-- The call in the second block and the one without a block are equal and both left over. -/
def leftOver (s d : Place) : Bool :=
  s.node.isomorphic d.node && decide (1 < s.height) &&
    !(freshRun Mix.standard 1 before after).isMappedSrc s &&
    !(freshRun Mix.standard 1 before after).isMappedDst d

end Surplus

/-- One of two blocks finds no partner, and hides the call in it; where each call has one equal,
nothing is hidden. -/
theorem freshRun_complete_surplus :
    (∃ s d, Surplus.leftOver s d = true ∧
      ((∃ p ∈ s.ancestors,
          0 < ((freshRun Mix.standard 1 Surplus.before Surplus.after).src.lookup p.id).times ∧
            (freshRun Mix.standard 1 Surplus.before Surplus.after).isMappedSrc p = false) ∨
        ∃ p ∈ d.ancestors,
          0 < ((freshRun Mix.standard 1 Surplus.before Surplus.after).dst.lookup p.id).times ∧
            (freshRun Mix.standard 1 Surplus.before Surplus.after).isMappedDst p = false)) ∧
    ((freshRun Mix.standard 1 Moved.before Moved.after).isMappedSrc Moved.callBefore = true ∨
      (freshRun Mix.standard 1 Moved.before Moved.after).isMappedDst Moved.callAfter = true) := by
  constructor
  · have hleft :
        ((Place.root (Rose.wrap Mix.standard Surplus.before)).descend? [1, 0]).any (fun s =>
        ((Place.root (Rose.wrap Mix.standard Surplus.after)).descend? [1]).any fun d =>
          Surplus.leftOver s d) = true := by
      cbv
    obtain ⟨s, hs, hleft⟩ := (Option.any_eq_true _ _).1 hleft
    obtain ⟨d, hd, hleft⟩ := (Option.any_eq_true _ _).1 hleft
    refine ⟨s, d, hleft, ?_⟩
    simp only [Surplus.leftOver, Bool.and_eq_true, Bool.not_eq_true', decide_eq_true_eq] at hleft
    obtain ⟨⟨⟨hiso, hmin⟩, hsrc⟩, hdst⟩ := hleft
    exact (freshRun_complete Mix.standard 1 Surplus.before Surplus.after).1 s
      (Place.mem_preOrder_of_descend? hs) d (Place.mem_preOrder_of_descend? hd) hiso hmin hsrc hdst
  · have hbalanced : ∀ c ∈ found Mix.standard 1 Moved.before Moved.after,
        (sources (groupOf (found Mix.standard 1 Moved.before Moved.after) c)).length =
          (destinations (groupOf (found Mix.standard 1 Moved.before Moved.after) c)).length := by
      decide +kernel
    exact (freshRun_complete Mix.standard 1 Moved.before Moved.after).2 hbalanced _
      Moved.twins.src _ Moved.twins.dst (by decide +kernel) (by decide +kernel)

end Relocate.Matching.TopDown
