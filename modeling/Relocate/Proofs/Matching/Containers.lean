import Relocate.Proofs.Matching.Support

/-!
# Container pairs

A candidate for a container lies above the partner of something below it, so the two overlap. What
the bottom-up phase commits besides the roots is such a candidate, tested against the threshold, or
an alignment of equal contents; the top-down phase commits only copies.
-/

set_option autoImplicit false

namespace Relocate.Matching

open Relocate.Number

namespace BottomUp

open Store

variable {mix : Mix} {a b : Ast} {config : Config} {st : Store} {s d : Place} {dsts : List Place}

theorem mem_climb {seen : List Nat} {ns : List Wrapped} {id : Nat} (h : id ∈ climb seen ns) :
    id ∈ seen ∨ ∃ n ∈ ns, n.id = id := by
  induction ns generalizing seen with
  | nil => exact Or.inl h
  | cons n ns ih =>
    rw [climb] at h
    split at h
    · exact Or.inl h
    · rcases ih h with hseen | ⟨m, hm, hid⟩
      · rcases List.mem_cons.1 hseen with rfl | hseen
        · exact Or.inr ⟨n, List.mem_cons_self, rfl⟩
        · exact Or.inl hseen
      · exact Or.inr ⟨m, List.mem_cons_of_mem n hm, hid⟩

theorem mem_foldl_climb {seen : List Nat} {qs : List Place} {id : Nat}
    (h : id ∈ qs.foldl (fun seen q => climb seen q.above) seen) :
    id ∈ seen ∨ ∃ q ∈ qs, ∃ n ∈ q.above, n.id = id := by
  induction qs generalizing seen with
  | nil => exact Or.inl h
  | cons q qs ih =>
    rcases ih h with hseen | ⟨r, hr, habove⟩
    · rcases mem_climb hseen with hseen | habove
      · exact Or.inl hseen
      · exact Or.inr ⟨q, List.mem_cons_self, habove⟩
    · exact Or.inr ⟨r, List.mem_cons_of_mem q hr, habove⟩

theorem mem_seeds {id : Nat} (h : id ∈ seeds st s) :
    ∃ p ∈ s.descendants, ∃ q, st.destinationOf? p = some q ∧ ∃ n ∈ q.above, n.id = id := by
  rcases mem_foldl_climb h with hnone | ⟨q, hq, habove⟩
  · cases hnone
  · obtain ⟨p, hp, hdest⟩ := List.mem_filterMap.1 hq
    exact ⟨p, hp, q, hdest, habove⟩

theorem common_pos_of_mem_candidates (h : st.Agrees (Rose.wrap mix a) (Rose.wrap mix b))
    (hs : s ∈ nodes (Rose.wrap mix a)) (hdsts : ∀ p ∈ dsts, p ∈ nodes (Rose.wrap mix b))
    (hd : d ∈ candidates st dsts s) : d.kind = s.kind ∧ 0 < (st.dice s d).common := by
  simp only [candidates, List.mem_filter, Bool.and_eq_true, beq_iff_eq, List.contains_iff_mem] at hd
  obtain ⟨hmem, ⟨-, hkind⟩, hseed⟩ := hd
  obtain ⟨p, hp, q, hdest, n, hn, hid⟩ := mem_seeds hseed
  have hp' := mem_nodes_of_mem_descendants hs hp
  have hq : q ∈ nodes (Rose.wrap mix b) :=
    h.dst.inside (q, p) (List.mem_map_of_mem ((h.destinationOf?_eq_some_iff hp').1 hdest))
  obtain ⟨r, hr, rfl⟩ := Place.mem_above_iff.1 hn
  obtain ⟨hr', hbelow⟩ := mem_nodes_of_mem_ancestors hq hr
  obtain rfl : r = d := eq_of_id_eq hr' (hdsts d hmem) hid
  exact ⟨hkind, common_pos hp hbelow hdest ((mem_descendants_iff_encloses hr' hq).1 hbelow)⟩

theorem supports_refine (maxSize : Nat) (st : Store) (hs : s ∈ nodes (Rose.wrap mix a))
    (hd : d ∈ nodes (Rose.wrap mix b)) :
    Supports config (Rose.wrap mix a) (Rose.wrap mix b) st (refine maxSize st s d) := by
  refine Supports.of_content_eq (f := fun st => refine maxSize st s d)
    (advances_refine maxSize st hs hd).reaches ?_
  simp only [refine]
  split
  · apply Adds.linkAll
    intro pair hpair
    obtain ⟨op, hop, hfree⟩ := List.mem_filterMap.1 hpair
    exact EditDistance.content_eq_of_freePair? hop hfree
  · exact Adds.refl st

theorem supports_pair (st : Store) (hs : s ∈ nodes (Rose.wrap mix a))
    (hd : d ∈ nodes (Rose.wrap mix b))
    (h : st.Agrees (Rose.wrap mix a) (Rose.wrap mix b) →
      (s, d) = (Place.root (Rose.wrap mix a), Place.root (Rose.wrap mix b)) ∨
        Supported config st s d) :
    Supports config (Rose.wrap mix a) (Rose.wrap mix b) st (pair config st s d) := by
  rw [pair]
  split
  · rename_i hadmits
    have hstep : Reaches (Rose.wrap mix a) (Rose.wrap mix b) st (st.commit s d) :=
      .single (.commit hs hd hadmits)
    refine Supports.trans ⟨hstep, fun hagrees => Adds.commit ?_ st⟩
      (supports_refine config.maxSize _ hs hd)
    exact (h hagrees).imp_right fun hsupp => hsupp.mono hagrees hstep hs
  · exact Supports.refl st

theorem supports_visit (hdsts : ∀ p ∈ dsts, p ∈ nodes (Rose.wrap mix b)) (st : Store)
    (hs : s ∈ nodes (Rose.wrap mix a)) :
    Supports config (Rose.wrap mix a) (Rose.wrap mix b) st
      (visit config (Place.root (Rose.wrap mix b)) dsts st s) := by
  rw [visit]
  split
  · exact Supports.refl st
  · split
    · rename_i hroot
      apply supports_pair st hs (root_mem_nodes _)
      intro _
      rw [(isRoot_iff hs).1 hroot]
      exact Or.inl rfl
    · split
      · split
        · rename_i score best hbest
          obtain ⟨hmem, hscore⟩ := of_bestCandidate? hbest
          split
          · rename_i hpasses
            replace hscore : score = st.dice s best := hscore
            rw [hscore] at hpasses
            apply supports_pair st hs (hdsts best (mem_of_bestCandidate? hbest))
            intro hagrees
            obtain ⟨hkind, hcommon⟩ := common_pos_of_mem_candidates hagrees hs hdsts hmem
            exact Or.inr ⟨hkind.symm, fun _ => hcommon, fun _ => hpasses⟩
          · exact Supports.refl st
        · exact Supports.refl st
      · exact Supports.refl st

theorem supports_run (config : Config) (st : Store) :
    Supports config (Rose.wrap mix a) (Rose.wrap mix b) st
      (run config (Place.root (Rose.wrap mix a)) (Place.root (Rose.wrap mix b)) st) := by
  apply foldl_rel (R := Supports config (Rose.wrap mix a) (Rose.wrap mix b)) Supports.refl
    Supports.trans
  intro s hs st
  apply supports_visit _ st (Place.mem_postOrder.1 hs)
  exact fun p hp => Place.mem_postOrder.1 hp

end BottomUp

open Store

theorem supports_matchWrapped (mix : Mix) (config : Config) (a b : Ast) :
    Supports config (Rose.wrap mix a) (Rose.wrap mix b)
      (Store.empty (Rose.wrap mix a) (Rose.wrap mix b))
      (matchWrapped config (Rose.wrap mix a) (Rose.wrap mix b)) := by
  refine Supports.trans (Supports.of_content_eq
    (f := TopDown.run config.minHeight (Place.root _) (Place.root _))
    (TopDown.reaches_run config.minHeight _ (root_mem_nodes _) (root_mem_nodes _)) ?_)
    (BottomUp.supports_run config _)
  intro pair hpair
  apply (TopDown.adds_run config.minHeight _ _ _ pair hpair).imp_right
  intro halike
  have hlabel := congrArg Rose.label halike
  rwa [Rose.shape, Rose.shape, Rose.label_map, Rose.label_map] at hlabel

/-- Every pair but that of the roots is of one kind, and if its values differ its places overlap in
the end by more than the threshold asks. -/
theorem matchWith_supported (mix : Mix) (config : Config) (a b : Ast) (s d : Place)
    (hpair : (s, d) ∈ (matchWith mix config a b).pairs)
    (hroots : (s, d) ≠ (Place.root (Rose.wrap mix a), Place.root (Rose.wrap mix b))) :
    s.kind = d.kind ∧ (s.value ≠ d.value →
      0 < ((matchWith mix config a b).store.dice s d).common ∧
      config.minDice.passes ((matchWith mix config a b).store.dice s d) = true ∧
      (∀ x : Binary64, x.Canonical → config.minDice = .above x →
        x.Below ((matchWith mix config a b).store.dice s d).nearest) ∧
      s.children ≠ [] ∧ d.children ≠ []) := by
  have hadded := (supports_matchWrapped mix config a b).added (agrees_empty _ _) (s, d) hpair
  rcases hadded with hempty | hroot | hsupp
  · cases hempty
  · exact absurd hroot hroots
  · refine ⟨hsupp.kind, fun hvalue => ?_⟩
    have hcommon := hsupp.overlaps hvalue
    have hpasses := hsupp.passes hvalue
    refine ⟨hcommon, hpasses, ?_, children_ne_nil_of_common_pos hcommon⟩
    intro x hx habove
    rw [habove] at hpasses
    exact (Threshold.passes_above_iff hx (dice_total_pos _ s d)).1 hpasses

namespace Renamed

def body (name : String) : Ast :=
  .node ⟨⟨"block", some name⟩, none, 1⟩
    [.leaf "identifier" (some "a") 1, .leaf "identifier" (some "b") 1]

def method (name : String) : Ast :=
  .node ⟨⟨"method", some "f"⟩, none, 1⟩ [body name, .leaf "literal" (some "1") 1]

end Renamed

/-- A block that was renamed keeps its partner, since the names in it have theirs. -/
theorem matchWith_supported_renamed :
    ∃ s d, (s, d) ∈ (matchWith Mix.standard { minHeight := 0 } (Renamed.method "x")
        (Renamed.method "y")).pairs ∧
      (s, d) ≠ (Place.root (Rose.wrap Mix.standard (Renamed.method "x")),
        Place.root (Rose.wrap Mix.standard (Renamed.method "y"))) ∧
      s.kind = d.kind ∧ s.value ≠ d.value ∧
      0 < ((matchWith Mix.standard { minHeight := 0 } (Renamed.method "x")
        (Renamed.method "y")).store.dice s d).common := by
  have hpairs : ∃ pair ∈ (matchWith Mix.standard { minHeight := 0 } (Renamed.method "x")
      (Renamed.method "y")).pairs, pair.1.id = 1 ∧ pair.1.value ≠ pair.2.value := by
    decide +kernel
  obtain ⟨⟨s, d⟩, hpair, hid, hvalue⟩ := hpairs
  have hroots : (s, d) ≠ (Place.root (Rose.wrap Mix.standard (Renamed.method "x")),
      Place.root (Rose.wrap Mix.standard (Renamed.method "y"))) := by
    intro heq
    have hroot : s.id = 0 := by
      rw [(Prod.mk.inj heq).1]
      exact Rose.id_wrap _ _
    exact absurd (hroot.symm.trans hid) (by decide)
  obtain ⟨hkind, hsupp⟩ := matchWith_supported Mix.standard { minHeight := 0 }
    (Renamed.method "x") (Renamed.method "y") s d hpair hroots
  exact ⟨s, d, hpair, hroots, hkind, hvalue, (hsupp hvalue).1⟩

end Relocate.Matching
