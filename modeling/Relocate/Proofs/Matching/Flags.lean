import Relocate.Proofs.Matching.Actions
import Relocate.Proofs.Matching.Support
import Relocate.Proofs.Matching.Unique

/-!
# Flags above matched nodes

The way up from a new pair stops at the first node that is flagged already. Nothing above that node
is missed: in every state that can be reached, all that is above a flagged node is flagged. So the
flagged nodes are those above a mapped one, and those at or above a node that was marked on its own.
-/

set_option autoImplicit false

namespace Relocate.Matching

namespace Marks

def isFlagged (m : Marks) (p : Place) : Bool := (m.lookup p.id).matchedBelow

section Upward

variable {mix : Mix} {t : Ast} {m : Marks} {p r : Place} {ns : List Wrapped}

theorem isFlagged_adjust_flagged (hsize : Array.size m = t.size)
    (hp : p ∈ nodes (Rose.wrap mix t)) (hr : r ∈ nodes (Rose.wrap mix t)) :
    (m.adjust r.id Mark.flagged).isFlagged p = true ↔ m.isFlagged p = true ∨ p = r := by
  by_cases hpr : p = r
  · subst hpr
    rw [isFlagged, lookup_adjust m p.id p.id _ (by rw [hsize]; exact id_lt_size hp), if_pos rfl]
    simp [Mark.flagged]
  · have hid : r.id ≠ p.id := fun hid => hpr (eq_of_id_eq hp hr hid.symm)
    rw [isFlagged, lookup_adjust_of_ne m _ hid]
    simp [isFlagged, hpr]

/-- Stopping early loses nothing if all above a flagged node is flagged. -/
theorem isFlagged_flagUpward (hsize : Array.size m = t.size)
    (hns : ∀ q ∈ Place.chain ns, q ∈ nodes (Rose.wrap mix t))
    (hclosed : ∀ q ∈ Place.chain ns, m.isFlagged q = true →
      ∀ above ∈ q.ancestors, m.isFlagged above = true)
    (hp : p ∈ nodes (Rose.wrap mix t)) :
    (m.flagUpward ns).isFlagged p = true ↔ m.isFlagged p = true ∨ p ∈ Place.chain ns := by
  induction ns generalizing m with
  | nil => simp [flagUpward, Place.chain]
  | cons n ns ih =>
    have hn : (⟨n, ns⟩ : Place) ∈ nodes (Rose.wrap mix t) := hns _ List.mem_cons_self
    by_cases hflag : m.isFlagged ⟨n, ns⟩ = true
    · have hstop : m.flagUpward (n :: ns) = m := if_pos hflag
      rw [hstop, iff_self_or]
      intro hmem
      rcases List.mem_cons.1 hmem with rfl | hmem
      · exact hflag
      · exact hclosed _ List.mem_cons_self hflag p hmem
    · have hgo : m.flagUpward (n :: ns) = (m.adjust n.id Mark.flagged).flagUpward ns :=
        if_neg hflag
      have hadjust : ∀ q ∈ nodes (Rose.wrap mix t),
          ((m.adjust n.id Mark.flagged).isFlagged q = true ↔
            m.isFlagged q = true ∨ q = ⟨n, ns⟩) :=
        fun q hq => isFlagged_adjust_flagged (r := ⟨n, ns⟩) hsize hq hn
      rw [hgo, ih ((size_adjust m n.id _).trans hsize)
        (fun q hq => hns q (List.mem_cons_of_mem _ hq)), hadjust p hp, or_assoc,
        ← List.mem_cons]
      · rfl
      -- a node further up is not the one that was flagged just now
      · intro q hq hqflag above habove
        have hq' := hns q (List.mem_cons_of_mem _ hq)
        have hne : q ≠ ⟨n, ns⟩ := by
          rintro rfl
          exact Nat.lt_irrefl _ (id_lt_of_mem_ancestors hn hq)
        have hold := ((hadjust q hq').1 hqflag).resolve_right hne
        have habove' := (mem_nodes_of_mem_ancestors hq' habove).1
        exact (hadjust above habove').2
          (Or.inl (hclosed q (List.mem_cons_of_mem _ hq) hold above habove))

end Upward

/-- The flagged nodes of a tree are those above the first place of a pair and those at or above a
marked place. -/
structure Flags (T : Wrapped) (m : Marks) (pairs : List (Place × Place)) (marked : List Place) :
    Prop where
  size : Array.size m = T.size
  flagged : ∀ p ∈ nodes T, (m.isFlagged p = true ↔
    (∃ pair ∈ pairs, p ∈ pair.1.ancestors) ∨ ∃ q ∈ marked, p ∈ q.upward)

namespace Flags

variable {mix : Mix} {t : Ast} {T : Wrapped} {m m' : Marks} {pairs : List (Place × Place)}
  {marked : List Place} {p q r : Place}

theorem blank (T : Wrapped) : (Marks.blank T).Flags T [] [] where
  size := Array.size_replicate
  flagged := by
    intro p _
    simp [isFlagged, Marks.blank, lookup, Array.getElem?_replicate]
    split <;> rfl

theorem frame (h : m.Flags T pairs marked) (hsize : Array.size m' = Array.size m)
    (hsame : ∀ id, (m'.lookup id).matchedBelow = (m.lookup id).matchedBelow) :
    m'.Flags T pairs marked where
  size := hsize.trans h.size
  flagged := by
    intro p hp
    rw [isFlagged, hsame]
    exact h.flagged p hp

theorem ancestors (h : m.Flags T pairs marked) (hp : p ∈ nodes T) (hflag : m.isFlagged p = true)
    (hr : r ∈ p.ancestors) : m.isFlagged r = true := by
  rw [h.flagged r (mem_nodes_of_mem_ancestors hp hr).1]
  rcases (h.flagged p hp).1 hflag with ⟨pair, hpair, hp⟩ | ⟨q, hq, hpq⟩
  · exact Or.inl ⟨pair, hpair, Place.ancestors_subset hp hr⟩
  · refine Or.inr ⟨q, hq, List.mem_cons_of_mem q ?_⟩
    rcases List.mem_cons.1 hpq with rfl | hpq
    · exact hr
    · exact Place.ancestors_subset hpq hr

theorem flagUpward (h : m.Flags (Rose.wrap mix t) pairs marked) {ns : List Wrapped}
    (hns : ∀ q ∈ Place.chain ns, q ∈ nodes (Rose.wrap mix t)) (hp : p ∈ nodes (Rose.wrap mix t)) :
    (m.flagUpward ns).isFlagged p = true ↔
      ((∃ pair ∈ pairs, p ∈ pair.1.ancestors) ∨ ∃ q ∈ marked, p ∈ q.upward) ∨
        p ∈ Place.chain ns := by
  rw [isFlagged_flagUpward (h.size.trans (Rose.size_wrap mix t)) hns
    (fun q hq hflag above habove => h.ancestors (hns q hq) hflag habove) hp, h.flagged p hp]

theorem pair (h : m.Flags (Rose.wrap mix t) pairs marked) (hq : q ∈ nodes (Rose.wrap mix t))
    (partner : Place) :
    ((m.adjust q.id (·.withPartner partner)).flagUpward q.above).Flags (Rose.wrap mix t)
      (pairs ++ [(q, partner)]) marked := by
  have hframe : (m.adjust q.id (·.withPartner partner)).Flags (Rose.wrap mix t) pairs marked :=
    h.frame (size_adjust m q.id _)
      (lookup_adjust_frame (f := (·.withPartner partner)) (fun _ => rfl) m q.id)
  refine ⟨(size_flagUpward _ _).trans hframe.size, ?_⟩
  intro p hp
  rw [hframe.flagUpward (fun r hr => (mem_nodes_of_mem_ancestors hq hr).1) hp, or_right_comm]
  simp only [List.mem_append, List.mem_singleton, or_and_right, exists_or, exists_eq_left]
  rfl

theorem mark (h : m.Flags (Rose.wrap mix t) pairs marked) (hq : q ∈ nodes (Rose.wrap mix t)) :
    (m.flagUpward (q.node :: q.above)).Flags (Rose.wrap mix t) pairs (marked ++ [q]) := by
  refine ⟨(size_flagUpward _ _).trans h.size, ?_⟩
  intro p hp
  have hupward : ∀ r ∈ Place.chain (q.node :: q.above), r ∈ nodes (Rose.wrap mix t) := by
    intro r hr
    rcases List.mem_cons.1 hr with rfl | hr
    · exact hq
    · exact (mem_nodes_of_mem_ancestors hq hr).1
  rw [h.flagUpward hupward hp, or_assoc]
  simp only [List.mem_append, List.mem_singleton, or_and_right, exists_or, exists_eq_left]
  rfl

theorem isFlagged_iff (h : m.Flags T pairs marked) (hrecords : m.Records T pairs)
    (hp : p ∈ nodes T) : m.isFlagged p = true ↔
      (∃ q ∈ nodes T, (m.lookup q.id).isMapped = true ∧ p ∈ q.ancestors) ∨
        ∃ q ∈ marked, p ∈ q.upward := by
  rw [h.flagged p hp]
  apply or_congr_left
  constructor
  · rintro ⟨pair, hpair, habove⟩
    have hinside := hrecords.inside pair hpair
    exact ⟨pair.1, hinside, (hrecords.mapped _ hinside).2 ⟨pair.2, hpair⟩, habove⟩
  · rintro ⟨q, hq, hmapped, habove⟩
    obtain ⟨partner, hpair⟩ := (hrecords.mapped q hq).1 hmapped
    exact ⟨_, hpair, habove⟩

end Flags

end Marks

namespace Store

structure Flagging (S D : Wrapped) (srcs dsts : List Place) (st : Store) : Prop where
  src : st.src.Flags S st.pairs.toList srcs
  dst : st.dst.Flags D (st.pairs.toList.map Prod.swap) dsts

theorem flagging_empty (S D : Wrapped) : (empty S D).Flagging S D [] [] where
  src := Marks.Flags.blank S
  dst := Marks.Flags.blank D

section Flagging

variable {mix : Mix} {a b : Ast} {st st' : Store} {srcs dsts : List Place} {s d : Place}

theorem Flagging.move (h : st.Flagging (Rose.wrap mix a) (Rose.wrap mix b) srcs dsts)
    (hmove : Move (Rose.wrap mix a) (Rose.wrap mix b) st st') :
    st'.Flagging (Rose.wrap mix a) (Rose.wrap mix b) srcs dsts := by
  cases hmove with
  | commit hs hd hadmits =>
    constructor
    · rw [commit, Array.toList_push]
      exact h.src.pair hs _
    · rw [commit, Array.toList_push, List.map_append]
      exact h.dst.pair hd _
  | bump s d =>
    constructor
    · exact h.src.frame (Marks.size_adjust _ _ _)
        (Marks.lookup_adjust_frame (f := Mark.bumped) (fun _ => rfl) _ s.id)
    · exact h.dst.frame (Marks.size_adjust _ _ _)
        (Marks.lookup_adjust_frame (f := Mark.bumped) (fun _ => rfl) _ d.id)

theorem Flagging.advances (h : st.Flagging (Rose.wrap mix a) (Rose.wrap mix b) srcs dsts)
    (hreach : Advances (Rose.wrap mix a) (Rose.wrap mix b) st st') :
    st'.Flagging (Rose.wrap mix a) (Rose.wrap mix b) srcs dsts := by
  induction hreach with
  | refl => exact h
  | tail _ hmove ih => exact ih.move hmove

end Flagging

/-- Flagged are exactly the proper ancestors of mapped nodes, and what is at or above a marked node;
with a node, everything above it is. -/
structure FlagsAbove (S D : Wrapped) (srcs dsts : List Place) (st : Store) : Prop where
  src : ∀ s ∈ nodes S, (st.src.isFlagged s = true ↔
    (∃ p ∈ nodes S, st.isMappedSrc p = true ∧ s ∈ p.ancestors) ∨ ∃ p ∈ srcs, s ∈ p.upward)
  dst : ∀ d ∈ nodes D, (st.dst.isFlagged d = true ↔
    (∃ p ∈ nodes D, st.isMappedDst p = true ∧ d ∈ p.ancestors) ∨ ∃ p ∈ dsts, d ∈ p.upward)
  aboveSrc : ∀ s ∈ nodes S, st.src.isFlagged s = true →
    ∀ p ∈ s.ancestors, st.src.isFlagged p = true
  aboveDst : ∀ d ∈ nodes D, st.dst.isFlagged d = true →
    ∀ p ∈ d.ancestors, st.dst.isFlagged p = true

theorem Flagging.flagsAbove {S D : Wrapped} {st : Store} {srcs dsts : List Place}
    (h : st.Flagging S D srcs dsts) (hagrees : st.Agrees S D) : st.FlagsAbove S D srcs dsts where
  src := fun _ hs => h.src.isFlagged_iff hagrees.src hs
  dst := fun _ hd => h.dst.isFlagged_iff hagrees.dst hd
  aboveSrc := fun _ hs hflag _ hp => h.src.ancestors hs hflag hp
  aboveDst := fun _ hd hflag _ hp => h.dst.ancestors hd hflag hp

end Store

namespace Action

open Store

variable {S D : Wrapped}

def markedSrc? : Action S D → Option Place
  | markSrc s => some s.1
  | _ => none

def markedDst? : Action S D → Option Place
  | markDst d => some d.1
  | _ => none

variable {mix : Mix} {a b : Ast} {st : Store} {srcs dsts : List Place}

theorem flagging_perform (action : Action (Rose.wrap mix a) (Rose.wrap mix b))
    (h : st.Flagging (Rose.wrap mix a) (Rose.wrap mix b) srcs dsts) :
    (action.perform st).Flagging (Rose.wrap mix a) (Rose.wrap mix b)
      (srcs ++ action.markedSrc?.toList) (dsts ++ action.markedDst?.toList) := by
  cases action with
  | link s d => simpa [perform, markedSrc?, markedDst?] using h.advances (advances_link st s.2 d.2)
  | linkSubtrees s d =>
    simpa [perform, markedSrc?, markedDst?] using h.advances (advances_linkSubtrees st s.2 d.2)
  | markSrc s => simpa [perform, markedSrc?, markedDst?] using ⟨h.src.mark s.2, h.dst⟩
  | markDst d => simpa [perform, markedSrc?, markedDst?] using ⟨h.src, h.dst.mark d.2⟩
  | topDown config s d =>
    simpa [perform, markedSrc?, markedDst?] using
      h.advances (TopDown.advances_run config.minHeight st s.2 d.2)
  | bottomUp config s d =>
    simpa [perform, markedSrc?, markedDst?] using
      h.advances (BottomUp.advances_run config st s.2 d.2)

theorem flagging_performAll (actions : List (Action (Rose.wrap mix a) (Rose.wrap mix b))) :
    (performAll actions).Flagging (Rose.wrap mix a) (Rose.wrap mix b)
      (actions.filterMap markedSrc?) (actions.filterMap markedDst?) := by
  induction actions using List.reverseRecOn with
  | nil => exact flagging_empty _ _
  | append_singleton actions action ih =>
    rw [performAll_concat, List.filterMap_append, List.filterMap_append]
    exact flagging_perform action ih

/-- Whatever was done, a node is flagged exactly if it is above a mapped one, or if it or a node
below it was marked. The matcher marks none, so it flags what is above the nodes that it maps. -/
theorem flagsAbove_performAll (mix : Mix) (a b : Ast)
    (actions : List (Action (Rose.wrap mix a) (Rose.wrap mix b))) :
    (performAll actions).FlagsAbove (Rose.wrap mix a) (Rose.wrap mix b)
        (actions.filterMap markedSrc?) (actions.filterMap markedDst?) ∧
      ∀ config : Config,
        (matchWith mix config a b).store.FlagsAbove (Rose.wrap mix a) (Rose.wrap mix b) [] [] := by
  constructor
  · have hagrees := (agrees_empty _ _).reaches (reaches_performAll actions)
    exact (flagging_performAll actions).flagsAbove hagrees
  · intro config
    have hflagging := (flagging_empty _ _).advances
      (advances_matchWrapped config (Rose.wrap mix a) (Rose.wrap mix b))
    exact hflagging.flagsAbove (agrees_matchWrapped mix config a b)

end Action

end Relocate.Matching
