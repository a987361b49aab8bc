import Relocate.Proofs.Matching.Exhaustive
import Relocate.Proofs.Matching.Settling

/-!
# Settling in order

The pairs that were put off are ranked by the similarity of their parents, equal ones in the order
in which they were found, and settled in this order. A pair that is passed over lost one of its
places to a pair that ranks before it.
-/

set_option autoImplicit false

namespace Relocate.Matching

def ListedBefore {α : Type} (l : List α) (x y : α) : Prop := [x, y].Sublist l

namespace ListedBefore

variable {α : Type} {l : List α} {x y : α}

theorem head (hy : y ∈ l) : ListedBefore (x :: l) x y :=
  List.cons_sublist_cons.2 (List.singleton_sublist.2 hy)

theorem total (hx : x ∈ l) (hy : y ∈ l) (hne : x ≠ y) :
    ListedBefore l x y ∨ ListedBefore l y x := by
  induction l with
  | nil => cases hx
  | cons z l ih =>
    by_cases hxz : x = z
    · subst hxz
      exact Or.inl (head (List.mem_of_ne_of_mem hne.symm hy))
    · have hx' := List.mem_of_ne_of_mem hxz hx
      by_cases hyz : y = z
      · subst hyz
        exact Or.inr (head hx')
      · exact (ih hx' (List.mem_of_ne_of_mem hyz hy)).imp (·.cons z) (·.cons z)

theorem asymm (hnodup : l.Nodup) (h : ListedBefore l x y) : ¬ ListedBefore l y x := by
  intro g
  induction l with
  | nil => cases h
  | cons z l ih =>
    rw [List.nodup_cons] at hnodup
    cases h with
    | cons _ h =>
      cases g with
      | cons _ g => exact ih hnodup.2 h g
      | cons_cons _ _ => exact hnodup.1 (h.subset (by simp))
    | cons_cons _ h =>
      cases g with
      | cons _ g => exact hnodup.1 (g.subset (by simp))
      | cons_cons _ _ => exact hnodup.1 (h.subset (by simp))

end ListedBefore

namespace TopDown

open Store

section Order

variable {st : Store} {pairs : List (Place × Place)} {c e : Place × Place}

theorem parentDice_total_pos (st : Store) (s d : Place) : 0 < (st.parentDice s d).total := by
  rw [parentDice]
  split
  · exact dice_total_pos st _ _
  · exact Nat.one_pos

def ranks (st : Store) (e c : Place × Place) : Bool :=
  !(st.parentDice e.1 e.2).below (st.parentDice c.1 c.2)

def similarity (st : Store) (c : Place × Place) : ℚ :=
  (st.parentDice c.1 c.2).common / (st.parentDice c.1 c.2).total

theorem ranks_iff : ranks st e c = true ↔ similarity st c ≤ similarity st e := by
  rw [ranks, Bool.not_eq_true', Bool.eq_false_iff, Ne,
    Score.below_iff (parentDice_total_pos st _ _) (parentDice_total_pos st _ _), not_lt]
  exact Iff.rfl

theorem ranks_trans (st : Store) (x y z : Place × Place) (h : ranks st x y = true)
    (g : ranks st y z = true) : ranks st x z = true := by
  rw [ranks_iff] at *
  exact g.trans h

theorem ranks_total (st : Store) (x y : Place × Place) :
    (ranks st x y || ranks st y x) = true := by
  rw [Bool.or_eq_true, ranks_iff, ranks_iff]
  exact le_total _ _

theorem map_snd_ranked (st : Store) (pairs : List (Place × Place)) :
    (ranked st pairs).map Prod.snd = pairs.mergeSort (ranks st) := by
  have hsort : (pairs.mergeSort (ranks st)).map (fun p => (st.parentDice p.1 p.2, p)) =
      ranked st pairs := List.map_mergeSort fun _ _ _ _ => rfl
  rw [← hsort, List.map_map]
  exact List.map_id _

theorem ranks_of_listedBefore (h : ListedBefore ((ranked st pairs).map Prod.snd) e c) :
    ranks st e c = true := by
  rw [map_snd_ranked] at h
  exact List.pairwise_iff_forall_sublist.1
    (List.pairwise_mergeSort (ranks_trans st) (ranks_total st) pairs) h

/-- Of two pairs that rank the same, the one that was found first stays first. -/
theorem listedBefore_of_ranks (hnodup : pairs.Nodup)
    (h : ListedBefore ((ranked st pairs).map Prod.snd) e c) (hc : ranks st c e = true) :
    ListedBefore pairs e c := by
  rw [map_snd_ranked] at h
  have hsorted : (pairs.mergeSort (ranks st)).Nodup := (List.mergeSort_perm _ _).nodup_iff.2 hnodup
  have hmem : ∀ x ∈ [e, c], x ∈ pairs := fun x hx => List.mem_mergeSort.1 (h.subset hx)
  have hne : e ≠ c := by
    rintro rfl
    exact h.asymm hsorted h
  rcases ListedBefore.total (hmem e (by simp)) (hmem c (by simp)) hne with hfirst | hlater
  · exact hfirst
  · exact absurd (List.pair_sublist_mergeSort (ranks_trans st) (ranks_total st) hc hlater)
      (h.asymm hsorted)

end Order

def settleAll (st : Store) (l : List (Place × Place)) : Store :=
  l.foldl (fun st c => settle st c.1 c.2) st

def settled (st : Store) : List (Place × Place) → List (Place × Place)
  | [] => []
  | c :: l => (if st.admits c.1 c.2 then [c] else []) ++ settled (settle st c.1 c.2) l

theorem settled_sublist (st : Store) (l : List (Place × Place)) : (settled st l).Sublist l := by
  induction l generalizing st with
  | nil => exact List.Sublist.refl _
  | cons c l ih =>
    rw [settled]
    split
    · exact (ih _).cons_cons c
    · exact (ih _).cons c

section Settle

variable {mix : Mix} {a b : Ast} {σ : State} {minHeight : Nat} {st : Store} {c e : Place × Place}
  {l : List (Place × Place)} (hσ : σ.Sound (Rose.wrap mix a) (Rose.wrap mix b) minHeight)

include hσ

theorem pairs_settle (h : σ.Settles (Rose.wrap mix a) (Rose.wrap mix b) st)
    (hc : c ∈ σ.deferred) : (settle st c.1 c.2).pairs.toList =
      st.pairs.toList ++ (if st.admits c.1 c.2 then [c] else []).flatMap lockstep := by
  rw [settle]
  split
  · rename_i hadmits
    rw [List.flatMap_singleton]
    exact (accepts_settle hσ hc h hadmits).pairs_linkAll
  · simp

theorem pairs_settleAll (h : σ.Settles (Rose.wrap mix a) (Rose.wrap mix b) st)
    (hl : ∀ c ∈ l, c ∈ σ.deferred) :
    (settleAll st l).pairs.toList = st.pairs.toList ++ (settled st l).flatMap lockstep := by
  induction l generalizing st with
  | nil => simp [settleAll, settled]
  | cons c l ih =>
    have hc := hl c List.mem_cons_self
    have htail := ih (h.settle hσ hc) fun e he => hl e (List.mem_cons_of_mem c he)
    rw [settled, List.flatMap_append, ← List.append_assoc, ← pairs_settle hσ h hc]
    exact htail

theorem isMapped_settle (side : Side) (hc : c ∈ σ.deferred) (he : e ∈ σ.deferred)
    (hmapped : side.isMapped (settle st c.1 c.2) (side.of e) = true) :
    side.isMapped st (side.of e) = true ∨
      st.admits c.1 c.2 = true ∧ side.of c = side.of e := by
  rw [settle] at hmapped
  by_cases hadmits : st.admits c.1 c.2 = true
  · rw [if_pos hadmits] at hmapped
    rcases (hσ.on side).apart (side.of e) (List.mem_map_of_mem he) (side.of c)
      (List.mem_map_of_mem hc) with heq | hout
    · exact Or.inr ⟨hadmits, heq.symm⟩
    · rw [isMapped_linkSubtrees (of_inside hσ hc side) (of_inside hσ he side)
        (hout (side.of e) (Place.mem_preOrder_self _))] at hmapped
      exact Or.inl hmapped
  · rw [if_neg hadmits] at hmapped
    exact Or.inl hmapped

/-- A pair of free places is settled, or an earlier one with one of its places is. -/
theorem settled_or_blocked (st : Store) (hl : ∀ c ∈ l, c ∈ σ.deferred) (hc : c ∈ l) :
    c ∈ settled st l ∨ st.isMappedSrc c.1 = true ∨ st.isMappedDst c.2 = true ∨
      ∃ e ∈ settled st l, (e.1 = c.1 ∨ e.2 = c.2) ∧ ListedBefore l e c := by
  -- the store is general: the rest of the list is settled behind its first pair
  induction l generalizing st with
  | nil => cases hc
  | cons x l ih =>
    have hx := hl x List.mem_cons_self
    have hmem := hl c hc
    have hfirst : st.admits x.1 x.2 = true → x ∈ settled st (x :: l) := by
      intro hadmits
      simp [settled, hadmits]
    have hrest : ∀ e ∈ settled (settle st x.1 x.2) l, e ∈ settled st (x :: l) :=
      fun e he => List.mem_append_right _ he
    rcases List.mem_cons.1 hc with rfl | hc
    · by_cases hadmits : st.admits c.1 c.2 = true
      · exact Or.inl (hfirst hadmits)
      · cases hsrc : st.isMappedSrc c.1 <;> cases hdst : st.isMappedDst c.2 <;>
          simp [admits, hsrc, hdst] at hadmits ⊢
    · have hearlier : ListedBefore (x :: l) x c := ListedBefore.head hc
      rcases ih (settle st x.1 x.2) (fun e he => hl e (List.mem_cons_of_mem x he)) hc with
        hin | hsrc | hdst | ⟨e, he, hshared, hbefore⟩
      · exact Or.inl (hrest c hin)
      · rcases isMapped_settle hσ .src hx hmem hsrc with hmapped | ⟨hadmits, heq⟩
        · exact Or.inr (Or.inl hmapped)
        · exact Or.inr (Or.inr (Or.inr ⟨x, hfirst hadmits, Or.inl heq, hearlier⟩))
      · rcases isMapped_settle hσ .dst hx hmem hdst with hmapped | ⟨hadmits, heq⟩
        · exact Or.inr (Or.inr (Or.inl hmapped))
        · exact Or.inr (Or.inr (Or.inr ⟨x, hfirst hadmits, Or.inr heq, hearlier⟩))
      · exact Or.inr (Or.inr (Or.inr ⟨e, hrest e he, hshared, hbefore.cons x⟩))

end Settle

end TopDown

end Relocate.Matching
