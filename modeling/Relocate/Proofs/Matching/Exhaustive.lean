import Relocate.Proofs.Best
import Relocate.Proofs.Matching.Actions
import Relocate.Proofs.Matching.Containers

/-!
# Containers by exhaustive comparison

The bottom-up phase looks for containers only above partners of what is below a node, and stops to
climb where it has been before. It finds the same as a phase that compares the node with every
unmapped destination node of its kind: what it leaves out has nothing in common with the node.
-/

set_option autoImplicit false

namespace Relocate.Matching

namespace Score

def isPositive (s : Score) : Bool := zero.below s

theorem isPositive_iff (s : Score) : s.isPositive = true ↔ 0 < s.common := by
  simp [isPositive, zero, below]

end Score

namespace BottomUp

def scored (st : Store) (dsts : List Place) (a : Place) : List (Score × Place) :=
  (dsts.filter fun d => !st.isMappedDst d && d.kind == a.kind).map fun d => (st.dice a d, d)

def firstMaximum? (cs : List (Score × Place)) : Option (Score × Place) :=
  cs.find? fun c => cs.all fun other => !c.1.below other.1

def firstBest? (st : Store) (dsts : List Place) (a : Place) : Option (Score × Place) :=
  firstMaximum? ((scored st dsts a).filter fun c => c.1.isPositive)

/-- A visit that compares with every unmapped node of the same kind. -/
def compareVisit (config : Config) (dst : Place) (dsts : List Place) (st : Store) (s : Place) :
    Store :=
  if st.isMappedSrc s then st
  else if s.isRoot then pair config st s dst
  else if (st.src.lookup s.id).matchedBelow then
    match firstBest? st dsts s with
    | some (score, d) => if config.minDice.passes score then pair config st s d else st
    | none => st
  else st

def compareRun (config : Config) (src dst : Place) (st : Store) : Store :=
  src.postOrder.foldl (compareVisit config dst dst.postOrder) st

section FirstMaximum

variable {cs : List (Score × Place)} {c : Score × Place}

def IsFirstMaximum (cs : List (Score × Place)) (c : Score × Place) : Prop :=
  ∃ before after, cs = before ++ c :: after ∧ (∀ x ∈ before, x.1.below c.1 = true) ∧
    ∀ x ∈ after, c.1.below x.1 = false

theorem IsFirstMaximum.firstMaximum?_eq (htotal : ∀ x ∈ cs, 0 < x.1.total)
    (h : IsFirstMaximum cs c) : firstMaximum? cs = some c := by
  obtain ⟨before, after, rfl, hbefore, hafter⟩ := h
  have hc : 0 < c.1.total := htotal c (by simp)
  have hmax : ∀ x ∈ before ++ c :: after, c.1.below x.1 = false := by
    intro x hx
    rcases List.mem_append.1 hx with hx' | hx'
    · have hlt := (Score.below_iff (htotal x hx) hc).1 (hbefore x hx')
      rw [Bool.eq_false_iff, Ne, Score.below_iff hc (htotal x hx)]
      exact lt_asymm hlt
    · rcases List.mem_cons.1 hx' with rfl | hx'
      · rw [Bool.eq_false_iff, Ne, Score.below_iff hc hc]
        exact lt_irrefl _
      · exact hafter x hx'
  rw [firstMaximum?, List.find?_eq_some_iff_append]
  refine ⟨?_, before, after, rfl, ?_⟩
  · rw [List.all_eq_true]
    intro x hx
    rw [hmax x hx]
    rfl
  · intro x hx
    simpa using Or.inr (Or.inl (hbefore x hx))

def keepBetter (best : Option (Score × Place)) (c : Score × Place) : Option (Score × Place) :=
  match best with
  | none => some c
  | some kept => if kept.1.below c.1 then some c else some kept

theorem keepBetter_eq : keepBetter = keepBest fun c kept => kept.1.below c.1 := by
  funext best c
  cases best <;> rfl

theorem foldl_keepBetter (hne : cs ≠ []) (htotal : ∀ x ∈ cs, 0 < x.1.total) :
    ∃ c, cs.foldl keepBetter none = some c ∧ IsFirstMaximum cs c := by
  have hkey : ∀ x ∈ cs, ∀ y ∈ cs, (y.1.below x.1 = true ↔ y.1.value < x.1.value) :=
    fun x hx y hy => Score.below_iff (htotal y hy) (htotal x hx)
  rw [keepBetter_eq]
  obtain ⟨c, hfold, hbest⟩ := foldl_keepBest (fun x => x.1.value) hne hkey
  have hc := hbest.mem
  obtain ⟨before, after, rfl, hbefore, hafter⟩ := hbest
  refine ⟨c, hfold, before, after, rfl, ?_, ?_⟩
  · intro x hx
    exact (hkey c hc x (by simp [hx])).2 (hbefore x hx)
  · intro x hx
    rw [Bool.eq_false_iff, Ne, hkey x (by simp [hx]) c hc, not_lt]
    exact hafter x hx

theorem foldl_keepBetter_eq (htotal : ∀ x ∈ cs, 0 < x.1.total) :
    cs.foldl keepBetter none = firstMaximum? cs := by
  cases hcs : cs with
  | nil => rfl
  | cons first rest =>
    rw [← hcs]
    obtain ⟨c, hfold, hmax⟩ := foldl_keepBetter (by simp [hcs]) htotal
    rw [hfold, hmax.firstMaximum?_eq htotal]

theorem better_eq (st : Store) (a : Place) (best : Option (Score × Place)) (d : Place) :
    better st a best d = keepBetter best (st.dice a d, d) := by
  cases best <;> rfl

theorem foldl_better_eq (st : Store) (a : Place) (ds : List Place) :
    ds.foldl (better st a) none = firstMaximum? (ds.map fun d => (st.dice a d, d)) := by
  rw [← foldl_keepBetter_eq, List.foldl_map]
  · apply List.foldl_ext
    intro best d _
    exact better_eq st a best d
  · intro x hx
    obtain ⟨d, -, rfl⟩ := List.mem_map.1 hx
    exact Store.dice_total_pos st a d

end FirstMaximum

section Climb

variable {mix : Mix} {t : Ast} {T : Wrapped} {seen : List Nat} {p q : Place}

/-- With a node of the tree, everything above it is in, too. -/
def UpwardClosed (T : Wrapped) (seen : List Nat) : Prop :=
  ∀ p ∈ nodes T, p.id ∈ seen → ∀ n ∈ p.above, n.id ∈ seen

theorem subset_climb (seen : List Nat) (ns : List Wrapped) : seen ⊆ climb seen ns := by
  induction ns generalizing seen with
  | nil => exact List.Subset.refl seen
  | cons n ns ih =>
    rw [climb]
    split
    · exact List.Subset.refl seen
    · exact List.Subset.trans (List.subset_cons_self n.id seen) (ih (n.id :: seen))

theorem above_subset_of_mem_ancestors (hq : q ∈ p.ancestors) : q.above ⊆ p.above := by
  intro n hn
  obtain ⟨r, hr, hrn⟩ := Place.mem_above_iff.1 hn
  exact Place.mem_above_iff.2 ⟨r, Place.ancestors_subset hq hr, hrn⟩

/-- Stopping at a node that is in already loses nothing, if all above it are in with it. -/
theorem mem_climb_above (hp : p ∈ nodes (Rose.wrap mix t))
    (hclosed : ∀ r ∈ p.ancestors, r.id ∈ seen → ∀ n ∈ r.above, n.id ∈ seen) :
    ∀ n ∈ p.above, n.id ∈ climb seen p.above := by
  obtain ⟨node, above⟩ := p
  induction above generalizing node seen with
  | nil => simp
  | cons m above ih =>
    have hparent : (⟨m, above⟩ : Place) ∈ Place.ancestors ⟨node, m :: above⟩ := List.mem_cons_self
    intro n hn
    rw [climb]
    split
    · rename_i hseen
      rw [List.contains_iff_mem] at hseen
      rcases List.mem_cons.1 hn with rfl | hn
      · exact hseen
      · exact hclosed _ hparent hseen n hn
    · have hm := (mem_nodes_of_mem_ancestors hp hparent).1
      rcases List.mem_cons.1 hn with rfl | hn
      · exact subset_climb _ _ List.mem_cons_self
      · refine ih m hm ?_ n hn
        intro r hr hid k hk
        rcases List.mem_cons.1 hid with heq | hid
        · exact absurd heq (Nat.ne_of_lt (id_lt_of_mem_ancestors hm hr))
        · exact List.mem_cons_of_mem _ (hclosed r (List.mem_cons_of_mem _ hr) hid k hk)

theorem UpwardClosed.climb (h : UpwardClosed (Rose.wrap mix t) seen)
    (hq : q ∈ nodes (Rose.wrap mix t)) :
    UpwardClosed (Rose.wrap mix t) (climb seen q.above) := by
  have hall : ∀ n ∈ q.above, n.id ∈ BottomUp.climb seen q.above :=
    mem_climb_above hq fun r hr => h r (mem_nodes_of_mem_ancestors hq hr).1
  intro p hp hid n hn
  rcases mem_climb hid with hseen | ⟨m, hm, hmp⟩
  · exact subset_climb _ _ (h p hp hseen n hn)
  · obtain ⟨r, hr, rfl⟩ := Place.mem_above_iff.1 hm
    obtain rfl : r = p := eq_of_id_eq (mem_nodes_of_mem_ancestors hq hr).1 hp hmp
    exact hall n (above_subset_of_mem_ancestors hr hn)

theorem mem_foldl_climb_above {qs : List Place} (h : UpwardClosed (Rose.wrap mix t) seen)
    (hqs : ∀ q ∈ qs, q ∈ nodes (Rose.wrap mix t)) :
    seen ⊆ qs.foldl (fun seen q => climb seen q.above) seen ∧
      ∀ q ∈ qs, ∀ n ∈ q.above, n.id ∈ qs.foldl (fun seen q => climb seen q.above) seen := by
  induction qs generalizing seen with
  | nil => exact ⟨List.Subset.refl seen, by simp⟩
  | cons q qs ih =>
    have hq := hqs q List.mem_cons_self
    obtain ⟨hsub, hall⟩ := ih (h.climb hq) fun r hr => hqs r (List.mem_cons_of_mem q hr)
    rw [List.foldl_cons]
    refine ⟨List.Subset.trans (subset_climb seen q.above) hsub, ?_⟩
    intro r hr n hn
    rcases List.mem_cons.1 hr with rfl | hr
    · exact hsub (mem_climb_above hq (fun r hr => h r (mem_nodes_of_mem_ancestors hq hr).1) n hn)
    · exact hall r hr n hn

end Climb

section Candidates

open Store

variable {mix : Mix} {a b : Ast} {st : Store} {s d p q : Place} {dsts : List Place}

theorem mem_seeds_of_above (h : st.Agrees (Rose.wrap mix a) (Rose.wrap mix b))
    (hs : s ∈ nodes (Rose.wrap mix a)) (hp : p ∈ s.descendants)
    (hdest : st.destinationOf? p = some q) {n : Wrapped} (hn : n ∈ q.above) :
    n.id ∈ seeds st s := by
  have hempty : UpwardClosed (Rose.wrap mix b) [] := by
    intro p _ hid
    cases hid
  refine (mem_foldl_climb_above hempty ?_).2 q (List.mem_filterMap.2 ⟨p, hp, hdest⟩) n hn
  intro r hr
  obtain ⟨p', hp', hdest'⟩ := List.mem_filterMap.1 hr
  have hinside := mem_nodes_of_mem_descendants hs hp'
  exact h.dst.inside (r, p')
    (List.mem_map_of_mem ((h.destinationOf?_eq_some_iff hinside).1 hdest'))

theorem exists_of_dice_pos (h : 0 < (st.dice s d).common) :
    ∃ p ∈ s.descendants, ∃ q, st.destinationOf? p = some q ∧ encloses d q = true := by
  have hcommon : 0 < st.common s d := by
    rw [dice] at h
    split at h
    · cases h
    · simp only at h
      omega
  obtain ⟨p, hp, hleads⟩ := List.countP_pos_iff.1 hcommon
  rw [leadsInto] at hleads
  split at hleads
  · rename_i q hdest
    exact ⟨p, hp, q, hdest, hleads⟩
  · cases hleads

theorem mem_above_of_mem_descendants (hq : q ∈ d.descendants) : d.node ∈ q.above := by
  have main : ∀ p : Place, q ∈ p.preOrder → p.above ⊆ q.above := by
    intro p
    induction p using Place.childInduction with
    | h p ih =>
      intro hmem
      rcases Place.mem_preOrder.1 hmem with rfl | ⟨c, hc, hqc⟩
      · exact List.Subset.refl _
      · obtain ⟨n, -, rfl⟩ := List.mem_map.1 hc
        exact List.Subset.trans (List.subset_cons_self p.node p.above) (ih _ hc hqc)
  obtain ⟨c, hc, hqc⟩ := Place.mem_descendants.1 hq
  have habove := main c hqc
  obtain ⟨n, -, rfl⟩ := List.mem_map.1 hc
  exact habove List.mem_cons_self

/-- To be found from below is to have a positive similarity. -/
theorem mem_seeds_iff (h : st.Agrees (Rose.wrap mix a) (Rose.wrap mix b))
    (hs : s ∈ nodes (Rose.wrap mix a)) (hd : d ∈ nodes (Rose.wrap mix b)) :
    d.id ∈ seeds st s ↔ (st.dice s d).isPositive = true := by
  rw [Score.isPositive_iff]
  have hinside : ∀ p ∈ s.descendants, ∀ q, st.destinationOf? p = some q →
      q ∈ nodes (Rose.wrap mix b) := by
    intro p hp q hdest
    have hp' := mem_nodes_of_mem_descendants hs hp
    exact h.dst.inside (q, p) (List.mem_map_of_mem ((h.destinationOf?_eq_some_iff hp').1 hdest))
  constructor
  · intro hseed
    obtain ⟨p, hp, q, hdest, n, hn, hid⟩ := mem_seeds hseed
    have hq := hinside p hp q hdest
    obtain ⟨r, hr, rfl⟩ := Place.mem_above_iff.1 hn
    obtain ⟨hr', hbelow⟩ := mem_nodes_of_mem_ancestors hq hr
    obtain rfl : r = d := eq_of_id_eq hr' hd hid
    exact common_pos hp hbelow hdest ((mem_descendants_iff_encloses hd hq).1 hbelow)
  · intro hpos
    obtain ⟨p, hp, q, hdest, hencloses⟩ := exists_of_dice_pos hpos
    have hq := hinside p hp q hdest
    have hbelow := (mem_descendants_iff_encloses hd hq).2 hencloses
    exact mem_seeds_of_above h hs hp hdest (mem_above_of_mem_descendants hbelow)

theorem candidates_eq (h : st.Agrees (Rose.wrap mix a) (Rose.wrap mix b))
    (hs : s ∈ nodes (Rose.wrap mix a)) (hdsts : ∀ d ∈ dsts, d ∈ nodes (Rose.wrap mix b)) :
    candidates st dsts s = dsts.filter fun d =>
      !st.isMappedDst d && d.kind == s.kind && (st.dice s d).isPositive := by
  apply List.filter_congr
  intro d hd
  have hseeds := mem_seeds_iff h hs (hdsts d hd)
  rw [← List.contains_iff_mem] at hseeds
  rw [Bool.eq_iff_iff.2 hseeds]

theorem bestCandidate?_eq (h : st.Agrees (Rose.wrap mix a) (Rose.wrap mix b))
    (hs : s ∈ nodes (Rose.wrap mix a)) (hdsts : ∀ d ∈ dsts, d ∈ nodes (Rose.wrap mix b)) :
    bestCandidate? st dsts s = firstBest? st dsts s := by
  rw [bestCandidate?, foldl_better_eq, candidates_eq h hs hdsts, firstBest?, scored,
    List.filter_map, List.filter_filter]
  apply congrArg firstMaximum?
  apply congrArg
  apply List.filter_congr
  intro d _
  exact Bool.and_comm _ _

theorem visit_eq (h : st.Agrees (Rose.wrap mix a) (Rose.wrap mix b))
    (hs : s ∈ nodes (Rose.wrap mix a)) (hdsts : ∀ d ∈ dsts, d ∈ nodes (Rose.wrap mix b))
    (config : Config) (dst : Place) :
    visit config dst dsts st s = compareVisit config dst dsts st s := by
  have hbest := bestCandidate?_eq h hs hdsts
  cases hfirst : firstBest? st dsts s with
  | none => simp only [visit, compareVisit, hbest, hfirst]
  | some best => simp only [visit, compareVisit, hbest, hfirst]

/-- Every visit meets a store that agrees with its pairs, so all of them find the same. -/
theorem foldl_visit_eq (h : st.Agrees (Rose.wrap mix a) (Rose.wrap mix b)) {srcs : List Place}
    (hsrcs : ∀ s ∈ srcs, s ∈ nodes (Rose.wrap mix a))
    (hdsts : ∀ d ∈ dsts, d ∈ nodes (Rose.wrap mix b)) (config : Config)
    (hd : d ∈ nodes (Rose.wrap mix b)) :
    srcs.foldl (visit config d dsts) st = srcs.foldl (compareVisit config d dsts) st := by
  induction srcs generalizing st with
  | nil => rfl
  | cons s srcs ih =>
    have hs := hsrcs s List.mem_cons_self
    rw [List.foldl_cons, List.foldl_cons, ← visit_eq h hs hdsts config d]
    exact ih (h.reaches (advances_visit config hdsts st hs hd).reaches)
      fun r hr => hsrcs r (List.mem_cons_of_mem s hr)

end Candidates

end BottomUp

open Store

/-- Whatever was done before, the candidates for a node are the unmapped destination nodes of its
kind with a positive similarity to it, each once and in post-order, and the phase ends with the
store of the one that compares every node with all of them. -/
theorem BottomUp.run_eq_compareRun (mix : Mix) (a b : Ast)
    (actions : List (Action (Rose.wrap mix a) (Rose.wrap mix b))) :
    (∀ s : NodeOf (Rose.wrap mix a),
      candidates (Action.performAll actions) (Place.root (Rose.wrap mix b)).postOrder s =
        (Place.root (Rose.wrap mix b)).postOrder.filter (fun d =>
          !(Action.performAll actions).isMappedDst d && d.kind == s.1.kind &&
            ((Action.performAll actions).dice s d).isPositive) ∧
      (candidates (Action.performAll actions) (Place.root (Rose.wrap mix b)).postOrder s).Nodup) ∧
    ∀ config : Config,
      run config (Place.root (Rose.wrap mix a)) (Place.root (Rose.wrap mix b))
          (Action.performAll actions) =
        compareRun config (Place.root (Rose.wrap mix a)) (Place.root (Rose.wrap mix b))
          (Action.performAll actions) := by
  have hagrees := (agrees_empty _ _).reaches (Action.reaches_performAll actions)
  have hdsts : ∀ d ∈ (Place.root (Rose.wrap mix b)).postOrder, d ∈ nodes (Rose.wrap mix b) :=
    fun d hd => Place.mem_postOrder.1 hd
  refine ⟨fun s => ⟨candidates_eq hagrees s.2 hdsts, ?_⟩, fun config => ?_⟩
  · have hnodup := nodup_preOrder (root_mem_nodes (Rose.wrap mix b))
    exact ((Place.postOrder_perm _).nodup_iff.2 hnodup).filter _
  · exact foldl_visit_eq hagrees (fun s hs => Place.mem_postOrder.1 hs) hdsts config
      (root_mem_nodes _)

end Relocate.Matching
