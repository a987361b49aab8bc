import Mathlib.Data.Set.Function
import Relocate.Proofs.Matching.Actions
import Relocate.Proofs.Matching.Support
import Relocate.Proofs.Matching.Unique

/-!
# Between nothing and everything in common

The similarity counts from the source side only. Since the pairs are one-to-one, the same comes out
when it is counted from the other side, so what two places have in common is at most what is below
either of them, and a similarity is at most 1. A threshold of 1 therefore keeps the bottom-up phase
from committing any containers but the two roots.
-/

set_option autoImplicit false

namespace Relocate.Matching

open Relocate.Number

namespace Store

def turned (st : Store) : Store := ⟨st.pairs.map Prod.swap, st.dst, st.src⟩

def comesFrom (st : Store) (a : Place) (q : Place) : Bool :=
  match st.sourceOf? q with
  | some p => encloses a p
  | none => false

def commonBack (st : Store) (a b : Place) : Nat := b.descendants.countP (st.comesFrom a)

def shared (st : Store) (a b : Place) : List (Place × Place) :=
  st.pairs.toList.filter fun pair => encloses a pair.1 && encloses b pair.2

theorem common_turned (st : Store) (a b : Place) : st.turned.common b a = st.commonBack a b := rfl

theorem length_shared_turned (st : Store) (a b : Place) :
    (st.turned.shared b a).length = (st.shared a b).length := by
  rw [shared, shared, turned, Array.toList_map, List.filter_map, List.length_map]
  congr 2
  funext pair
  exact Bool.and_comm _ _

section Counting

variable {mix : Mix} {a b : Ast} {S D : Wrapped} {st st' : Store} {s d p q : Place}

theorem Agrees.turned (h : st.Agrees S D) : st.turned.Agrees D S where
  src := by
    rw [Store.turned, Array.toList_map]
    exact h.dst
  dst := by
    rw [Store.turned, Array.toList_map, List.map_map, Prod.swap_swap_eq, List.map_id]
    exact h.src

theorem Agrees.leadsInto_iff (h : st.Agrees S D) (hp : p ∈ nodes S) :
    st.leadsInto d p = true ↔ ∃ q, (p, q) ∈ st.pairs.toList ∧ encloses d q = true := by
  rw [leadsInto]
  split
  · rename_i q hq
    have hpair := (h.destinationOf?_eq_some_iff hp).1 hq
    constructor
    · exact fun hbelow => ⟨q, hpair, hbelow⟩
    · rintro ⟨r, hr, hbelow⟩
      rw [(h.destinationOf?_eq_some_iff hp).2 hr] at hq
      rwa [← Option.some.inj hq]
  · rename_i hnone
    simp only [Bool.false_eq_true, false_iff]
    rintro ⟨q, hq, -⟩
    rw [(h.destinationOf?_eq_some_iff hp).2 hq] at hnone
    cases hnone

/-- The mapped descendants that count are the first places of the shared pairs. -/
theorem Agrees.filter_leadsInto_perm (h : st.Agrees (Rose.wrap mix a) D)
    (hs : s ∈ nodes (Rose.wrap mix a)) (d : Place) :
    (s.descendants.filter (st.leadsInto d)).Perm ((st.shared s d).map Prod.fst) := by
  have hdesc : s.descendants.Nodup := by
    have hnodup := nodup_preOrder hs
    rw [Place.preOrder_eq_cons_descendants] at hnodup
    exact hnodup.of_cons
  have hshared : ((st.shared s d).map Prod.fst).Nodup :=
    h.src.nodup_fst.sublist (List.filter_sublist.map Prod.fst)
  apply (List.perm_ext_iff_of_nodup (hdesc.filter _) hshared).2
  intro p
  rw [List.mem_filter, List.mem_map]
  constructor
  · rintro ⟨hp, hleads⟩
    have hp' := mem_nodes_of_mem_descendants hs hp
    obtain ⟨q, hpair, hbelow⟩ := (h.leadsInto_iff hp').1 hleads
    refine ⟨(p, q), List.mem_filter.2 ⟨hpair, ?_⟩, rfl⟩
    rw [Bool.and_eq_true]
    exact ⟨(mem_descendants_iff_encloses hs hp').1 hp, hbelow⟩
  · rintro ⟨⟨p, q⟩, hpair, rfl⟩
    obtain ⟨hmem, hbelow⟩ := List.mem_filter.1 hpair
    rw [Bool.and_eq_true] at hbelow
    have hp' := h.src.inside (p, q) hmem
    exact ⟨(mem_descendants_iff_encloses hs hp').2 hbelow.1,
      (h.leadsInto_iff hp').2 ⟨q, hmem, hbelow.2⟩⟩

theorem Agrees.common_eq (h : st.Agrees (Rose.wrap mix a) D)
    (hs : s ∈ nodes (Rose.wrap mix a)) (d : Place) :
    st.common s d = (st.shared s d).length := by
  rw [common, List.countP_eq_length_filter, (h.filter_leadsInto_perm hs d).length_eq,
    List.length_map]

theorem Agrees.commonBack_eq (h : st.Agrees (Rose.wrap mix a) (Rose.wrap mix b))
    (hs : s ∈ nodes (Rose.wrap mix a)) (hd : d ∈ nodes (Rose.wrap mix b)) :
    st.commonBack s d = st.common s d :=
  calc st.commonBack s d = st.turned.common d s := (common_turned st s d).symm
    _ = (st.turned.shared d s).length := h.turned.common_eq hd s
    _ = (st.shared s d).length := length_shared_turned st s d
    _ = st.common s d := (h.common_eq hs d).symm

theorem common_le_left (st : Store) (s d : Place) : st.common s d ≤ s.descendants.length :=
  List.countP_le_length

theorem Agrees.common_le_right (h : st.Agrees (Rose.wrap mix a) (Rose.wrap mix b))
    (hs : s ∈ nodes (Rose.wrap mix a)) (hd : d ∈ nodes (Rose.wrap mix b)) :
    st.common s d ≤ d.descendants.length := by
  rw [← h.commonBack_eq hs hd]
  exact List.countP_le_length

theorem Agrees.dice_common_le_total (h : st.Agrees (Rose.wrap mix a) (Rose.wrap mix b))
    (hs : s ∈ nodes (Rose.wrap mix a)) (hd : d ∈ nodes (Rose.wrap mix b)) :
    (st.dice s d).common ≤ (st.dice s d).total := by
  have hleft := common_le_left st s d
  have hright := h.common_le_right hs hd
  have hlen := Place.length_descendants s
  have hlen' := Place.length_descendants d
  rw [dice]
  split
  · exact Nat.zero_le 1
  · change 2 * st.common s d ≤ (s.size - 1) + (d.size - 1)
    omega

theorem Agrees.value_dice (h : st.Agrees (Rose.wrap mix a) (Rose.wrap mix b))
    (hs : s ∈ nodes (Rose.wrap mix a)) (hd : d ∈ nodes (Rose.wrap mix b)) :
    (st.dice s d).value =
      2 * st.common s d / (s.descendants.length + d.descendants.length) := by
  have hleft := common_le_left st s d
  have hright := h.common_le_right hs hd
  have hlen := Place.length_descendants s
  have hlen' := Place.length_descendants d
  rw [Score.value, dice]
  split
  · have hnone : st.common s d = 0 := by omega
    simp [Score.zero, hnone]
  · have htotal : (s.size - 1) + (d.size - 1) = s.descendants.length + d.descendants.length := by
      omega
    rw [htotal]
    push_cast
    rfl

/-- Everything below the one place is mapped to something below the other. -/
theorem common_eq_left_iff (st : Store) (s d : Place) :
    st.common s d = s.descendants.length ↔ ∀ p ∈ s.descendants, st.leadsInto d p = true :=
  List.countP_eq_length

theorem commonBack_eq_right_iff (st : Store) (s d : Place) :
    st.commonBack s d = d.descendants.length ↔ ∀ q ∈ d.descendants, st.comesFrom s q = true :=
  List.countP_eq_length

/-- The mapping goes from the descendants of one place one-to-one to those of the other. -/
def Bijects (st : Store) (s d : Place) : Prop :=
  Set.BijOn st.destinationOf? {p | p ∈ s.descendants} (some '' {q | q ∈ d.descendants})

theorem Agrees.leadsInto_iff_destinationOf? (h : st.Agrees S (Rose.wrap mix b)) (hp : p ∈ nodes S)
    (hd : d ∈ nodes (Rose.wrap mix b)) :
    st.leadsInto d p = true ↔ ∃ q ∈ d.descendants, st.destinationOf? p = some q := by
  rw [h.leadsInto_iff hp]
  apply exists_congr
  intro q
  rw [h.destinationOf?_eq_some_iff hp, and_comm]
  apply and_congr_left
  intro hpair
  have hq := h.dst.inside (q, p) (List.mem_map_of_mem hpair)
  rw [mem_descendants_iff_encloses hd hq]

theorem Agrees.comesFrom_iff_destinationOf? (h : st.Agrees (Rose.wrap mix a) D) (hq : q ∈ nodes D)
    (hs : s ∈ nodes (Rose.wrap mix a)) :
    st.comesFrom s q = true ↔ ∃ p ∈ s.descendants, st.destinationOf? p = some q := by
  have hturned : st.comesFrom s q = true ↔ ∃ p ∈ s.descendants, st.sourceOf? q = some p :=
    h.turned.leadsInto_iff_destinationOf? hq hs
  rw [hturned]
  apply exists_congr
  intro p
  apply and_congr_right
  intro hp
  have hp' := mem_nodes_of_mem_descendants hs hp
  rw [h.sourceOf?_eq_some_iff hq, h.destinationOf?_eq_some_iff hp']

/-- Two places have everything in common exactly if what is below them corresponds one-to-one. -/
theorem Agrees.bijects_iff (h : st.Agrees (Rose.wrap mix a) (Rose.wrap mix b))
    (hs : s ∈ nodes (Rose.wrap mix a)) (hd : d ∈ nodes (Rose.wrap mix b)) :
    st.Bijects s d ↔
      st.common s d = s.descendants.length ∧ st.common s d = d.descendants.length := by
  have hsrc : ∀ p ∈ s.descendants, p ∈ nodes (Rose.wrap mix a) := fun p hp =>
    mem_nodes_of_mem_descendants hs hp
  have hdst : ∀ q ∈ d.descendants, q ∈ nodes (Rose.wrap mix b) := fun q hq =>
    mem_nodes_of_mem_descendants hd hq
  rw [common_eq_left_iff, ← h.commonBack_eq hs hd, commonBack_eq_right_iff]
  constructor
  · rintro ⟨hmaps, -, hsurj⟩
    constructor
    · intro p hp
      obtain ⟨q, hq, hdest⟩ := hmaps hp
      exact (h.leadsInto_iff_destinationOf? (hsrc p hp) hd).2 ⟨q, hq, hdest.symm⟩
    · intro q hq
      exact (h.comesFrom_iff_destinationOf? (hdst q hq) hs).2 (hsurj ⟨q, hq, rfl⟩)
  · rintro ⟨hleads, hcomes⟩
    refine ⟨?_, ?_, ?_⟩
    · intro p hp
      obtain ⟨q, hq, hdest⟩ := (h.leadsInto_iff_destinationOf? (hsrc p hp) hd).1 (hleads p hp)
      exact ⟨q, hq, hdest.symm⟩
    -- two places with one partner are the one that the partner names
    · intro p hp p' hp' heq
      obtain ⟨q, hq, hdest⟩ := (h.leadsInto_iff_destinationOf? (hsrc p hp) hd).1 (hleads p hp)
      have hpair := (h.destinationOf?_eq_some_iff (hsrc p hp)).1 hdest
      have hpair' := (h.destinationOf?_eq_some_iff (hsrc p' hp')).1 (heq ▸ hdest)
      have hback := (h.sourceOf?_eq_some_iff (hdst q hq)).2 hpair
      rw [(h.sourceOf?_eq_some_iff (hdst q hq)).2 hpair'] at hback
      exact (Option.some.inj hback).symm
    · rintro _ ⟨q, hq, rfl⟩
      exact (h.comesFrom_iff_destinationOf? (hdst q hq) hs).1 (hcomes q hq)

structure Measured (st : Store) (s d : Place) : Prop where
  value : (st.dice s d).value =
    2 * st.common s d / (s.descendants.length + d.descendants.length)
  nonneg : 0 ≤ (st.dice s d).value
  le_one : (st.dice s d).value ≤ 1
  one_iff : (st.dice s d).value = 1 ↔
    s.descendants ≠ [] ∧ d.descendants ≠ [] ∧ st.Bijects s d
  back : st.commonBack s d = st.common s d

theorem Agrees.measured (h : st.Agrees (Rose.wrap mix a) (Rose.wrap mix b))
    (hs : s ∈ nodes (Rose.wrap mix a)) (hd : d ∈ nodes (Rose.wrap mix b)) : st.Measured s d where
  value := h.value_dice hs hd
  nonneg := Score.value_nonneg _
  le_one := Score.value_le_one (h.dice_common_le_total hs hd)
  one_iff := by
    have hleft := common_le_left st s d
    have hright := h.common_le_right hs hd
    rw [h.value_dice hs hd, h.bijects_iff hs hd, ← List.length_pos_iff, ← List.length_pos_iff]
    generalize st.common s d = c at hleft hright
    generalize s.descendants.length = m at hleft
    generalize d.descendants.length = n at hright
    have hone : (2 * c / (m + n) : ℚ) = 1 ↔ 2 * c = m + n ∧ 0 < m + n := by
      rcases Nat.eq_zero_or_pos (m + n) with hzero | hpos
      · obtain ⟨rfl, rfl⟩ : m = 0 ∧ n = 0 := by omega
        simp
      · have hne : (m + n : ℚ) ≠ 0 := by exact_mod_cast hpos.ne'
        rw [div_eq_one_iff_eq hne, and_iff_left hpos]
        exact_mod_cast Iff.rfl
    rw [hone]
    omega
  back := h.commonBack_eq hs hd

/-- Whatever is added later, a similarity does not fall. -/
theorem Agrees.value_mono (h : st.Agrees (Rose.wrap mix a) (Rose.wrap mix b))
    (hreach : Reaches (Rose.wrap mix a) (Rose.wrap mix b) st st')
    (hs : s ∈ nodes (Rose.wrap mix a)) (d : Place) :
    (st.dice s d).value ≤ (st'.dice s d).value := by
  obtain ⟨hcommon, htotal⟩ := h.dice_mono hreach hs d
  have hcommon' : ((st.dice s d).common : ℚ) ≤ (st'.dice s d).common := by exact_mod_cast hcommon
  rw [Score.value, Score.value, htotal]
  gcongr

end Counting

end Store

namespace BottomUp

open Store

variable {mix : Mix} {a b : Ast} {config : Config} {st : Store} {s d p : Place}
  {srcs dsts : List Place}

theorem visit_of_impassable (hpass : ∀ q ∈ dsts, config.minDice.passes (st.dice p q) = false)
    (hroot : p.isRoot = false) : visit config d dsts st p = st := by
  rw [visit]
  split
  · rfl
  · rw [if_neg (ne_true_of_eq_false hroot)]
    split
    · split
      · rename_i score best hbest
        obtain ⟨-, hscore⟩ := of_bestCandidate? hbest
        replace hscore : score = st.dice p best := hscore
        rw [hscore, hpass best (mem_of_bestCandidate? hbest), if_neg Bool.false_ne_true]
      · rfl
    · rfl

theorem foldl_visit_of_impassable
    (hpass : ∀ p ∈ srcs, ∀ q ∈ dsts, config.minDice.passes (st.dice p q) = false)
    (hroot : ∀ p ∈ srcs, p.isRoot = false) : srcs.foldl (visit config d dsts) st = st := by
  induction srcs with
  | nil => rfl
  | cons p srcs ih =>
    rw [List.foldl_cons, visit_of_impassable (hpass p List.mem_cons_self)
      (hroot p List.mem_cons_self)]
    exact ih (fun q hq => hpass q (List.mem_cons_of_mem p hq))
      (fun q hq => hroot q (List.mem_cons_of_mem p hq))

theorem visit_root (hroot : s.isRoot = true) :
    visit config d dsts st s = pair config st s d := by
  rw [visit]
  split
  · rename_i hmapped
    rw [pair, admits, hmapped, Bool.not_true, Bool.false_and, if_neg Bool.false_ne_true]
  · rfl

/-- Under a threshold that no similarity passes, the phase is the visit of the root. -/
theorem run_of_impassable
    (hpass : ∀ p ∈ s.preOrder, ∀ q ∈ d.preOrder, config.minDice.passes (st.dice p q) = false) :
    run config s d st = if s.isRoot then pair config st s d else st := by
  have hpass' : ∀ p ∈ s.preOrder, ∀ q ∈ d.postOrder,
      config.minDice.passes (st.dice p q) = false := fun p hp q hq =>
    hpass p hp q (Place.mem_postOrder.1 hq)
  have hbelow : ∀ p ∈ s.children.flatMap Place.postOrder, p ∈ s.descendants := by
    intro p hp
    obtain ⟨c, hc, hpc⟩ := List.mem_flatMap.1 hp
    exact Place.mem_descendants.2 ⟨c, hc, Place.mem_postOrder.1 hpc⟩
  have hinner :
      (s.children.flatMap Place.postOrder).foldl (visit config d d.postOrder) st = st := by
    apply foldl_visit_of_impassable
    · intro p hp
      exact hpass' p (Place.mem_preOrder_of_mem_descendants (hbelow p hp))
    · intro p hp
      rw [Place.isRoot, List.isEmpty_eq_false_iff]
      exact Place.above_ne_nil_of_mem_descendants (hbelow p hp)
  rw [run, Place.postOrder_eq s, List.foldl_append, hinner, List.foldl_cons, List.foldl_nil]
  split
  · rename_i hroot
    exact visit_root hroot
  · rename_i hroot
    exact visit_of_impassable (hpass' s (Place.mem_preOrder_self s)) (eq_false_of_ne_true hroot)

theorem run_above_one (h : st.Agrees (Rose.wrap mix a) (Rose.wrap mix b))
    (hs : s ∈ nodes (Rose.wrap mix a)) (hd : d ∈ nodes (Rose.wrap mix b)) {x : Binary64}
    (habove : config.minDice = .above x) (hx : ¬ x.Below .one) :
    run config s d st = if s.isRoot then pair config st s d else st := by
  apply run_of_impassable
  intro p hp q hq
  rw [habove]
  apply Threshold.passes_above_eq_false hx (dice_total_pos st p q)
  exact h.dice_common_le_total (mem_nodes_of_mem_preOrder hs hp) (mem_nodes_of_mem_preOrder hd hq)

end BottomUp

/-- Whatever was done, a similarity lies between 0 and 1, counted from either side. It is 1 exactly
if what is below the two places corresponds one-to-one, and it never falls again. So a threshold of
at least 1, or of `nan`, leaves the bottom-up phase with the pair of the roots and its refinement.
-/
theorem Action.measured_performAll (mix : Mix) (a b : Ast)
    (actions : List (Action (Rose.wrap mix a) (Rose.wrap mix b))) (s d : Place)
    (hs : s ∈ nodes (Rose.wrap mix a)) (hd : d ∈ nodes (Rose.wrap mix b)) :
    (performAll actions).Measured s d ∧
      (∀ later, ((performAll actions).dice s d).value ≤
        ((performAll (actions ++ later)).dice s d).value) ∧
      ∀ (config : Config) (x : Binary64), config.minDice = .above x → ¬ x.Below .one →
        BottomUp.run config s d (performAll actions) =
          if s.isRoot then BottomUp.pair config (performAll actions) s d
          else performAll actions := by
  have hagrees := (Store.agrees_empty _ _).reaches (reaches_performAll actions)
  refine ⟨hagrees.measured hs hd, ?_, ?_⟩
  · intro later
    rw [performAll_append]
    exact hagrees.value_mono (reaches_foldl_perform later _) hs d
  · intro config x habove hx
    exact BottomUp.run_above_one hagrees hs hd habove hx

namespace Moved

def linkCalls : List (Action (Rose.wrap Mix.standard before) (Rose.wrap Mix.standard after)) :=
  [.linkSubtrees ⟨callBefore, twins.src⟩ ⟨callAfter, twins.dst⟩]

end Moved

/-- After that the two calls have all they can have in common, while a threshold of 1 keeps their
containers apart. -/
theorem Action.measured_performAll_moved :
    Moved.callBefore ∈ nodes (Rose.wrap Mix.standard Moved.before) ∧
      Moved.callAfter ∈ nodes (Rose.wrap Mix.standard Moved.after) ∧
      ((performAll Moved.linkCalls).dice Moved.callBefore Moved.callAfter).value = 1 ∧
      (performAll Moved.linkCalls).Bijects Moved.callBefore Moved.callAfter ∧
      BottomUp.run { minDice := .above .one } Moved.callBefore Moved.callAfter
        (performAll Moved.linkCalls) = performAll Moved.linkCalls := by
  obtain ⟨hmeasured, -, hrun⟩ := measured_performAll Mix.standard Moved.before Moved.after
    Moved.linkCalls Moved.callBefore Moved.callAfter Moved.twins.src Moved.twins.dst
  have hdice : (performAll Moved.linkCalls).dice Moved.callBefore Moved.callAfter = ⟨2, 2⟩ := by
    decide +kernel
  have hone : ((performAll Moved.linkCalls).dice Moved.callBefore Moved.callAfter).value = 1 := by
    rw [hdice]
    norm_num [Score.value]
  refine ⟨Moved.twins.src, Moved.twins.dst, hone, (hmeasured.one_iff.1 hone).2.2, ?_⟩
  exact hrun { minDice := .above .one } .one rfl (lt_irrefl _)

end Relocate.Matching
