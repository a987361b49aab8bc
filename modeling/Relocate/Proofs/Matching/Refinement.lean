import Relocate.Proofs.Matching.Pools
import Relocate.Proofs.Matching.Pruning
import Relocate.Proofs.Matching.Unique

/-!
# Refining a container pair

The script that refines a pair aligns reduced copies. Only pairs with one of the two containers are
turned away: all other nodes of the copies are free, and a script treats each of them once. Since
the copies have the order of their trees, what is linked keeps what is above what and what is left
of what, also together with the container pair.
-/

set_option autoImplicit false

namespace Relocate.Matching

open Address EditDistance

namespace Marks

theorem isMapped_of_isMapped {m : Marks} {id : Nat} (h : (m.lookup id).isMapped = true) (i : Nat)
    (p : Place) (ns : List Wrapped) :
    (((m.adjust i (·.withPartner p)).flagUpward ns).lookup id).isMapped = true := by
  by_cases hid : i = id
  · have hlt : id < Array.size m := by
      by_contra hout
      rw [lookup, Array.getElem?_eq_none (by omega)] at h
      cases h
    rw [lookup_flagUpward_frame (g := Mark.isMapped) (fun _ => rfl),
      lookup_adjust m i id _ hlt, if_pos hid]
    rfl
  · rwa [isMapped_paired hid]

end Marks

namespace Store

variable {st : Store} {s d p q : Place} {l : List (Place × Place)}

theorem admits_link_eq_false (h : st.admits p q = false) (s d : Place) :
    (st.link s d).admits p q = false := by
  rw [link]
  split
  · cases hsrc : st.isMappedSrc p with
    | true =>
      have hkept : (st.commit s d).isMappedSrc p = true := Marks.isMapped_of_isMapped hsrc _ _ _
      simp [admits, hkept]
    | false =>
      have hdst : st.isMappedDst q = true := by simpa [admits, hsrc] using h
      have hkept : (st.commit s d).isMappedDst q = true := Marks.isMapped_of_isMapped hdst _ _ _
      simp [admits, hkept]
  · exact h

theorem linkAll_filter {keep : Place × Place → Bool}
    (h : ∀ pair ∈ l, keep pair = false → st.admits pair.1 pair.2 = false) :
    st.linkAll l = st.linkAll (l.filter keep) := by
  induction l generalizing st with
  | nil => rfl
  | cons pair l ih =>
    have htail : ∀ other ∈ l, keep other = false →
        (st.link pair.1 pair.2).admits other.1 other.2 = false := fun other hother hout =>
      admits_link_eq_false (h other (List.mem_cons_of_mem pair hother) hout) pair.1 pair.2
    by_cases hkeep : keep pair = true
    · rw [List.filter_cons_of_pos hkeep]
      exact ih htail
    · rw [Bool.not_eq_true] at hkeep
      have hrefused := h pair List.mem_cons_self hkeep
      rw [List.filter_cons_of_neg (by simp [hkeep]), linkAll, List.foldl_cons,
        link_of_not_admits hrefused]
      exact ih fun other hother => h other (List.mem_cons_of_mem pair hother)

end Store

theorem Reduced.exists_subtree? {A : Reduced} (h : A.Numbered) {k : Nat} (hk : 1 ≤ k)
    (hn : k ≤ A.size) :
    ∃ u, A.subtree? (A.address k) = some u ∧ A.items[k - 1]? = some u.label := by
  obtain ⟨w, hw, -, haddress, -, hitem⟩ := h.exists_spot hk hn
  obtain ⟨⟨x, u⟩, hu, rfl⟩ := List.mem_map.1 hw
  exact ⟨u, by rw [← haddress]; exact (Rose.subtree?_eq_some_iff A u x).2 hu, hitem⟩

namespace BottomUp

def freeChanges (A B : Reduced) : List (Place × Place) :=
  (placeScript (alignment A B)).filterMap PlaceOp.freePair?

def insideChanges (st : Store) (s d : Place) : List (Place × Place) :=
  (freeChanges (reducedSrc st s) (reducedDst st d)).filter fun pair =>
    pair.1.id != s.id && pair.2.id != d.id

structure Numbers (A : Reduced) (i : Nat) (p : Place) : Prop where
  low : 1 ≤ i
  high : i ≤ A.size
  spot : ∃ u, A.subtree? (A.address i) = some u ∧ Reduced.place u = p

section Copies

variable {mix : Mix} {a b : Ast} {takenA takenB : Nat → Bool} {s d : Place} {e : EditOp}
  {pair pair' : Place × Place}

theorem aligns_ofPlace (takenA takenB : Nat → Bool) (s d : Place) :
    Aligns (alignment (.ofPlace takenA s) (.ofPlace takenB d)) 1 (Reduced.ofPlace takenA s).size 1
      (Reduced.ofPlace takenB d).size
      (alignment (.ofPlace takenA s) (.ofPlace takenB d)).script :=
  (aligns_script (numbered_ofPlace takenA s) (numbered_ofPlace takenB d)
    (leftmost_size takenA s) (leftmost_size takenB d)).2

theorem freeChanges_eq (A B : Reduced) : freeChanges A B =
    (alignment A B).script.filterMap fun e =>
      (placeOp? (alignment A B) e).bind PlaceOp.freePair? :=
  List.filterMap_filterMap

theorem numbers_of_freePair?
    (he : e ∈ (alignment (.ofPlace takenA s) (.ofPlace takenB d)).script)
    (h : (placeOp? (alignment (.ofPlace takenA s) (.ofPlace takenB d)) e).bind
      PlaceOp.freePair? = some pair) :
    ∃ i j, e = .change i j 0 ∧
      Numbers (.ofPlace takenA s) i pair.1 ∧ Numbers (.ofPlace takenB d) j pair.2 := by
  obtain ⟨op, hplaced, hfree⟩ := Option.bind_eq_some_iff.1 h
  obtain ⟨i, j, x, y, rfl, hx, hy, hsrc, hdst⟩ := eq_change_of_freePair? hplaced hfree
  obtain ⟨hi, hj⟩ := (aligns_ofPlace takenA takenB s d).within (i, j) (mem_changed.2 ⟨0, he⟩)
  obtain ⟨u, hu, hux⟩ := Reduced.exists_subtree? (numbered_ofPlace takenA s) hi.1 hi.2
  obtain ⟨v, hv, hvy⟩ := Reduced.exists_subtree? (numbered_ofPlace takenB d) hj.1 hj.2
  simp only [alignment, List.getElem?_toArray, hux, hvy, Option.some.injEq] at hx hy
  exact ⟨i, j, rfl, ⟨hi.1, hi.2, u, hu, by rw [Reduced.place, hx, hsrc]⟩,
    ⟨hj.1, hj.2, v, hv, by rw [Reduced.place, hy, hdst]⟩⟩

theorem exists_numbers
    (h : pair ∈ freeChanges (.ofPlace takenA s) (.ofPlace takenB d)) :
    ∃ i j, (i, j) ∈ changed (alignment (.ofPlace takenA s) (.ofPlace takenB d)).script ∧
      Numbers (.ofPlace takenA s) i pair.1 ∧ Numbers (.ofPlace takenB d) j pair.2 := by
  rw [freeChanges_eq] at h
  obtain ⟨e, he, hfree⟩ := List.mem_filterMap.1 h
  obtain ⟨i, j, rfl, hnumbers⟩ := numbers_of_freePair? he hfree
  exact ⟨i, j, mem_changed.2 ⟨0, he⟩, hnumbers⟩

theorem Numbers.number_eq {t : Ast} {taken : Nat → Bool} {r p p' : Place} {i i' : Nat}
    (hr : r ∈ nodes (Rose.wrap mix t)) (h : Numbers (.ofPlace taken r) i p)
    (h' : Numbers (.ofPlace taken r) i' p') (hid : p.id = p'.id) : i = i' := by
  obtain ⟨u, hu, rfl⟩ := h.spot
  obtain ⟨u', hu', rfl⟩ := h'.spot
  have haddress := (Reduced.keeps_ofPlace taken r).address_eq
    (by rwa [Reduced.place_ofPlace]) hu hu' hid
  exact ((numbered_ofPlace taken r).address_inj h.low h.high h'.low h'.high).1 haddress

theorem Numbers.below {taken : Nat → Bool} {r p : Place} {i : Nat}
    (h : Numbers (.ofPlace taken r) i p) (hne : p.id ≠ r.id) :
    p ∈ r.descendants ∧ taken p.id = false := by
  obtain ⟨u, hu, rfl⟩ := h.spot
  have hkeeps := Reduced.keeps_ofPlace taken r
  have hmem := hkeeps.mem_preOrder hu
  rw [Reduced.place_ofPlace] at hmem
  have haddress : (Reduced.ofPlace taken r).address i ≠ [] := by
    intro hnil
    rw [hnil] at hu
    cases hu
    exact hne (by rw [Reduced.place_ofPlace])
  refine ⟨Place.mem_descendants_of_ne hmem ?_, hkeeps.free hu haddress⟩
  rintro heq
  exact hne (congrArg Place.id heq)

def number? : Side → EditOp → Option Nat
  | .src => EditOp.source?
  | .dst => EditOp.target?

/-- No node is in two of the pairs: a script treats it once. -/
theorem nodup_freeChanges (hs : s ∈ nodes (Rose.wrap mix a)) (hd : d ∈ nodes (Rose.wrap mix b))
    (side : Side) : ((freeChanges (.ofPlace takenA s) (.ofPlace takenB d)).map
      fun pair => (side.of pair).id).Nodup := by
  have haligns := aligns_ofPlace takenA takenB s d
  have hnumbers : ((alignment (.ofPlace takenA s) (.ofPlace takenB d)).script.filterMap
      (number? side)).Nodup := by
    cases side
    · exact haligns.sources.nodup_iff.2 List.nodup_range'
    · exact haligns.targets.nodup_iff.2 List.nodup_range'
  rw [List.Nodup, List.pairwise_filterMap] at hnumbers
  rw [List.Nodup, List.pairwise_map, freeChanges_eq, List.pairwise_filterMap]
  apply hnumbers.imp_of_mem
  intro e e' he he' hne pair hpair pair' hpair' hid
  obtain ⟨i, j, rfl, hi, hj⟩ := numbers_of_freePair? he hpair
  obtain ⟨i', j', rfl, hi', hj'⟩ := numbers_of_freePair? he' hpair'
  cases side
  · exact hne i rfl i' rfl (hi.number_eq hs hi' hid)
  · exact hne j rfl j' rfl (hj.number_eq hd hj' hid)

def Agree (pair pair' : Place × Place) : Prop :=
  (pair.1 ∈ pair'.1.ancestors ↔ pair.2 ∈ pair'.2.ancestors) ∧
    (pair.1.LeftOf pair'.1 ↔ pair.2.LeftOf pair'.2)

/-- The script is an edit mapping of the copies, and these have the order of their trees. -/
theorem agree_freeChanges (hs : s ∈ nodes (Rose.wrap mix a)) (hd : d ∈ nodes (Rose.wrap mix b))
    (h : pair ∈ freeChanges (.ofPlace takenA s) (.ofPlace takenB d))
    (h' : pair' ∈ freeChanges (.ofPlace takenA s) (.ofPlace takenB d)) : Agree pair pair' := by
  obtain ⟨i, j, hmem, hi, hj⟩ := exists_numbers h
  obtain ⟨i', j', hmem', hi', hj'⟩ := exists_numbers h'
  have haligns := aligns_ofPlace takenA takenB s d
  have hmapping := editMapping_of_aligned (numbered_ofPlace takenA s) (numbered_ofPlace takenB d)
    haligns.within haligns.aligned
  have hM := Finset.mem_image_of_mem (addressed (.ofPlace takenA s) (.ofPlace takenB d)) hmem
  have hM' := Finset.mem_image_of_mem (addressed (.ofPlace takenA s) (.ofPlace takenB d)) hmem'
  have hA := Reduced.keeps_ofPlace takenA s
  have hB := Reduced.keeps_ofPlace takenB d
  have hrootA : Reduced.place (.ofPlace takenA s) ∈ nodes (Rose.wrap mix a) := by
    rwa [Reduced.place_ofPlace]
  have hrootB : Reduced.place (.ofPlace takenB d) ∈ nodes (Rose.wrap mix b) := by
    rwa [Reduced.place_ofPlace]
  obtain ⟨u, hu, hplace⟩ := hi.spot
  obtain ⟨u', hu', hplace'⟩ := hi'.spot
  obtain ⟨v, hv, hpartner⟩ := hj.spot
  obtain ⟨v', hv', hpartner'⟩ := hj'.spot
  rw [Agree, ← hplace, ← hplace', ← hpartner, ← hpartner',
    mem_ancestors_iff (hA.mem_nodes hrootA hu'), mem_ancestors_iff (hB.mem_nodes hrootB hv'),
    hA.mem_descendants_iff hrootA hu hu', hB.mem_descendants_iff hrootB hv hv',
    hA.leftOf_iff hrootA hu hu', hB.leftOf_iff hrootB hv hv']
  exact ⟨hmapping.above _ hM _ hM', hmapping.before _ hM _ hM'⟩

end Copies

section Refine

variable {mix : Mix} {a b : Ast} {st : Store} {s d : Place} {pair : Place × Place}

theorem mem_insideChanges : pair ∈ insideChanges st s d ↔
    pair ∈ freeChanges (reducedSrc st s) (reducedDst st d) ∧ pair.1.id ≠ s.id ∧
      pair.2.id ≠ d.id := by
  rw [insideChanges, List.mem_filter, Bool.and_eq_true, bne_iff_ne, bne_iff_ne]

theorem below_insideChanges (h : pair ∈ insideChanges st s d) :
    (pair.1 ∈ s.descendants ∧ st.isMappedSrc pair.1 = false) ∧
      pair.2 ∈ d.descendants ∧ st.isMappedDst pair.2 = false := by
  obtain ⟨hfree, hsrc, hdst⟩ := mem_insideChanges.1 h
  obtain ⟨i, j, -, hi, hj⟩ := exists_numbers hfree
  exact ⟨hi.below hsrc, hj.below hdst⟩

theorem admits_insideChanges (h : pair ∈ insideChanges st s d) :
    st.admits pair.1 pair.2 = true := by
  obtain ⟨⟨-, hsrc⟩, -, hdst⟩ := below_insideChanges h
  rw [Store.admits_iff]
  exact ⟨hsrc, hdst⟩

theorem accepts_insideChanges (hs : s ∈ nodes (Rose.wrap mix a))
    (hd : d ∈ nodes (Rose.wrap mix b)) : st.Accepts (insideChanges st s d) := by
  apply Store.accepts_of_distinct
  · exact fun side => (List.filter_sublist.map _).nodup (nodup_freeChanges hs hd side)
  · exact fun pair hpair => admits_insideChanges hpair

/-- Between linked containers, only the pairs inside make a difference. -/
theorem linkAll_freeChanges (hsrc : st.isMappedSrc s = true) (hdst : st.isMappedDst d = true) :
    st.linkAll (freeChanges (reducedSrc st s) (reducedDst st d)) =
      st.linkAll (insideChanges st s d) := by
  apply Store.linkAll_filter
  intro pair _ hout
  rw [Bool.and_eq_false_iff, bne_eq_false_iff_eq, bne_eq_false_iff_eq] at hout
  rcases hout with hid | hid
  · have hmapped : st.isMappedSrc pair.1 = true := by rwa [Store.isMappedSrc, hid]
    simp [Store.admits, hmapped]
  · have hmapped : st.isMappedDst pair.2 = true := by rwa [Store.isMappedDst, hid]
    simp [Store.admits, hmapped]

theorem agree_insideChanges (hs : s ∈ nodes (Rose.wrap mix a)) (hd : d ∈ nodes (Rose.wrap mix b))
    {p q : Place × Place} (hp : p ∈ (s, d) :: insideChanges st s d)
    (hq : q ∈ (s, d) :: insideChanges st s d) : Agree p q := by
  have hbelow : ∀ pair ∈ insideChanges st s d,
      pair.1 ∈ s.descendants ∧ pair.2 ∈ d.descendants := by
    intro pair hpair
    obtain ⟨⟨hsrc, -⟩, hdst, -⟩ := below_insideChanges hpair
    exact ⟨hsrc, hdst⟩
  rcases List.mem_cons.1 hp with rfl | hp <;> rcases List.mem_cons.1 hq with rfl | hq
  · simp [Agree, irrefl_above_leftOf hs, irrefl_above_leftOf hd]
  · obtain ⟨hsrc, hdst⟩ := hbelow q hq
    simp [Agree, above_not_leftOf hs hsrc, above_not_leftOf hd hdst]
  · obtain ⟨hsrc, hdst⟩ := hbelow p hp
    simp [Agree, above_not_leftOf hs hsrc, above_not_leftOf hd hdst]
  · exact agree_freeChanges hs hd (mem_insideChanges.1 hp).1 (mem_insideChanges.1 hq).1

end Refine

/-- Refining a container pair that was just linked changes nothing if the reduced copies reach the
limit. Else it commits the free pairs of the script in which neither container takes part, none of
which is refused; and together with the container pair they keep the order of the two trees. -/
theorem refine_commits_inside (mix : Mix) (a b : Ast) (st : Store) (s d : Place) (maxSize : Nat)
    (hreach : Store.Reaches (Rose.wrap mix a) (Rose.wrap mix b)
      (Store.empty (Rose.wrap mix a) (Rose.wrap mix b)) st)
    (hs : s ∈ nodes (Rose.wrap mix a)) (hd : d ∈ nodes (Rose.wrap mix b))
    (hadmits : st.admits s d = true) :
    let linked := st.commit s d
    let size := (reducedSrc linked s).count + (reducedDst linked d).count
    let new := insideChanges linked s d
    (maxSize ≤ size → refine maxSize linked s d = linked) ∧
    (size < maxSize →
      refine maxSize linked s d = linked.linkAll new ∧ linked.Accepts new ∧
      (refine maxSize linked s d).pairs.toList = linked.pairs.toList ++ new ∧
      ∀ p ∈ (s, d) :: new, ∀ q ∈ (s, d) :: new,
        (p.1 ∈ q.1.ancestors ↔ p.2 ∈ q.2.ancestors) ∧ (p.1.LeftOf q.1 ↔ p.2.LeftOf q.2)) := by
  intro linked size new
  have hagrees : linked.Agrees (Rose.wrap mix a) (Rose.wrap mix b) :=
    ((Store.agrees_empty _ _).reaches hreach).commit hs hd hadmits
  have hpair : (s, d) ∈ linked.pairs.toList := by
    simp [linked, Store.commit]
  have hsrc : linked.isMappedSrc s = true := (hagrees.isMappedSrc_iff hs).2 ⟨d, hpair⟩
  have hdst : linked.isMappedDst d = true := (hagrees.isMappedDst_iff hd).2 ⟨s, hpair⟩
  have haccepts : linked.Accepts new := accepts_insideChanges hs hd
  constructor
  · intro hlarge
    rw [refine, if_neg (by omega)]
  · intro hsmall
    have hrefine : refine maxSize linked s d = linked.linkAll new := by
      rw [refine, if_pos hsmall]
      exact linkAll_freeChanges hsrc hdst
    refine ⟨hrefine, haccepts, ?_, fun p hp q hq => agree_insideChanges hs hd hp hq⟩
    rw [hrefine]
    exact haccepts.pairs_linkAll

end BottomUp

namespace Moved

def srcRoot : Place := Place.root (Rose.wrap Mix.standard before)

def dstRoot : Place := Place.root (Rose.wrap Mix.standard after)

def unlinked : Store := Store.empty (Rose.wrap Mix.standard before) (Rose.wrap Mix.standard after)

end Moved

namespace BottomUp

/-- Between the roots of the two sample trees, the call and its name are committed; with a limit of
one node nothing is. -/
theorem refine_commits_inside_moved :
    Moved.unlinked.admits Moved.srcRoot Moved.dstRoot = true ∧
    refine 1 (Moved.unlinked.commit Moved.srcRoot Moved.dstRoot) Moved.srcRoot Moved.dstRoot =
      Moved.unlinked.commit Moved.srcRoot Moved.dstRoot ∧
    (insideChanges (Moved.unlinked.commit Moved.srcRoot Moved.dstRoot) Moved.srcRoot
      Moved.dstRoot).length = 2 ∧
    (refine 100 (Moved.unlinked.commit Moved.srcRoot Moved.dstRoot) Moved.srcRoot
      Moved.dstRoot).pairs.toList =
      (Moved.unlinked.commit Moved.srcRoot Moved.dstRoot).pairs.toList ++
        insideChanges (Moved.unlinked.commit Moved.srcRoot Moved.dstRoot) Moved.srcRoot
          Moved.dstRoot := by
  have hadmits : Moved.unlinked.admits Moved.srcRoot Moved.dstRoot = true := by decide +kernel
  have hsize : (reducedSrc (Moved.unlinked.commit Moved.srcRoot Moved.dstRoot)
      Moved.srcRoot).count + (reducedDst (Moved.unlinked.commit Moved.srcRoot Moved.dstRoot)
      Moved.dstRoot).count = 8 := by
    decide +kernel
  have hlength : (insideChanges (Moved.unlinked.commit Moved.srcRoot Moved.dstRoot) Moved.srcRoot
      Moved.dstRoot).length = 2 := by
    decide +kernel
  have hrefine := fun maxSize => refine_commits_inside Mix.standard Moved.before Moved.after
    Moved.unlinked Moved.srcRoot Moved.dstRoot maxSize .refl (root_mem_nodes _) (root_mem_nodes _)
    hadmits
  refine ⟨hadmits, (hrefine 1).1 ?_, hlength, ((hrefine 100).2 ?_).2.2.1⟩
  · rw [hsize]
    decide
  · rw [hsize]
    decide

end BottomUp

end Relocate.Matching
