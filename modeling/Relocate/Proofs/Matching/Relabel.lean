import Relocate.Proofs.EditDistance.Relabel
import Relocate.Proofs.Matching.Comparison

/-!
# Matching relabelled trees

Marks hold numbers and places, and everything that is done to them reads nothing else of a place
than its number, its subtree's size and height and what lies above and below it. The only questions
about contents are whether two kinds, two contents or two subtrees are equal. So when a relabelling
leaves these as they are, both phases go the same way on the relabelled trees.
-/

set_option autoImplicit false

namespace Relocate

/-- Kinds, contents and subtrees are equal exactly when they were before. -/
structure Relabelling.Faithful (ρ : Relabelling) (S D : Wrapped) : Prop where
  kind : ∀ s t : Tag, (ρ.tag s).kind = (ρ.tag t).kind ↔ s.kind = t.kind
  content : ∀ s t : Tag, (ρ.tag s).toContent = (ρ.tag t).toContent ↔ s.toContent = t.toContent
  isomorphic : ∀ s ∈ nodes S, ∀ d ∈ nodes D,
    (s.relabel ρ).node.isomorphic (d.relabel ρ).node = s.node.isomorphic d.node

namespace Place

variable (ρ : Relabelling)

def relabelPair (pair : Place × Place) : Place × Place := (pair.1.relabel ρ, pair.2.relabel ρ)

variable {ρ} {S D : Wrapped}

theorem kind_relabel_beq (h : ρ.Faithful S D) (p q : Place) :
    ((p.relabel ρ).kind == (q.relabel ρ).kind) = (p.kind == q.kind) := by
  rw [Bool.eq_iff_iff, beq_iff_eq, beq_iff_eq, kind, kind, tag_relabel, tag_relabel]
  exact h.kind p.tag q.tag

theorem sameContent_relabel (h : ρ.Faithful S D) (p q : Place) :
    (p.relabel ρ).node.sameContent (q.relabel ρ).node = p.node.sameContent q.node := by
  have hcontent := h.content p.tag q.tag
  rw [← tag_relabel, ← tag_relabel] at hcontent
  rw [Bool.eq_iff_iff, Rose.sameContent, Rose.sameContent, beq_iff_eq, beq_iff_eq]
  exact hcontent

end Place

namespace Matching

theorem filter_map_eq {α β : Type} {r : α → β} {f : α → Bool} {g : β → Bool} {l : List α}
    (h : ∀ x ∈ l, g (r x) = f x) : (l.map r).filter g = (l.filter f).map r := by
  rw [List.filter_map]
  exact congrArg (List.map r) (List.filter_congr h)

section Stores

variable (ρ : Relabelling)

def Mark.relabel (m : Mark) : Mark := { m with partner := m.partner.map (Place.relabel ρ) }

namespace Marks

def relabel (m : Marks) : Marks := Array.map (Mark.relabel ρ) m

theorem lookup_relabel (m : Marks) (id : Nat) :
    (m.relabel ρ).lookup id = (m.lookup id).relabel ρ := by
  rw [lookup, lookup, relabel, Array.getElem?_map]
  cases m[id]? <;> rfl

@[simp] theorem isMapped_lookup_relabel (m : Marks) (id : Nat) :
    ((m.relabel ρ).lookup id).isMapped = (m.lookup id).isMapped := by
  rw [lookup_relabel]
  rfl

theorem blank_map (T : Wrapped) : blank (T.map ρ.label) = (blank T).relabel ρ := by
  rw [blank, blank, relabel, Array.map_replicate, Rose.size_map]
  rfl

theorem adjust_relabel {f g : Mark → Mark} (h : ∀ k, (f k).relabel ρ = g (k.relabel ρ)) (m : Marks)
    (id : Nat) : (m.relabel ρ).adjust id g = (m.adjust id f).relabel ρ := by
  apply Array.ext_getElem?
  intro i
  simp only [adjust, relabel, Array.getElem?_map, Array.getElem?_modify]
  split
  · rw [Option.map_map, Option.map_map]
    congr 1
    funext k
    exact (h k).symm
  · rfl

theorem flagUpward_relabel (m : Marks) (ns : List Wrapped) :
    (m.relabel ρ).flagUpward (ns.map (Rose.map ρ.label)) = (m.flagUpward ns).relabel ρ := by
  induction ns generalizing m with
  | nil => rfl
  | cons n ns ih =>
    have hflag : ((m.lookup n.id).relabel ρ).matchedBelow = (m.lookup n.id).matchedBelow := rfl
    rw [List.map_cons, flagUpward, flagUpward, Rose.id_map_label, lookup_relabel, hflag,
      adjust_relabel ρ (f := Mark.flagged) (fun _ => rfl), ih]
    split <;> rfl

end Marks

namespace Store

def relabel (st : Store) : Store :=
  ⟨st.pairs.map (Place.relabelPair ρ), st.src.relabel ρ, st.dst.relabel ρ⟩

variable (st : Store) (s d : Place)

theorem empty_map (S D : Wrapped) :
    empty (S.map ρ.label) (D.map ρ.label) = (empty S D).relabel ρ := by
  simp [empty, relabel, Marks.blank_map]

@[simp] theorem isMappedSrc_relabel :
    (st.relabel ρ).isMappedSrc (s.relabel ρ) = st.isMappedSrc s := by
  rw [isMappedSrc, isMappedSrc, Place.id_relabel, relabel, Marks.isMapped_lookup_relabel]

@[simp] theorem isMappedDst_relabel :
    (st.relabel ρ).isMappedDst (d.relabel ρ) = st.isMappedDst d := by
  rw [isMappedDst, isMappedDst, Place.id_relabel, relabel, Marks.isMapped_lookup_relabel]

@[simp] theorem admits_relabel :
    (st.relabel ρ).admits (s.relabel ρ) (d.relabel ρ) = st.admits s d := by
  rw [admits, admits, isMappedSrc_relabel, isMappedDst_relabel]

theorem destinationOf?_relabel :
    (st.relabel ρ).destinationOf? (s.relabel ρ) = (st.destinationOf? s).map (Place.relabel ρ) := by
  rw [destinationOf?, destinationOf?, Place.id_relabel, relabel, Marks.lookup_relabel,
    Mark.partner?, Mark.partner?, Mark.relabel]
  simp only
  split <;> rfl

theorem commit_relabel :
    (st.relabel ρ).commit (s.relabel ρ) (d.relabel ρ) = (st.commit s d).relabel ρ := by
  rw [commit, commit, relabel, relabel, Array.map_push, Place.id_relabel, Place.id_relabel,
    Marks.adjust_relabel ρ (f := fun k => k.withPartner d) (fun _ => rfl),
    Marks.adjust_relabel ρ (f := fun k => k.withPartner s) (fun _ => rfl), Place.relabel,
    Place.relabel, Marks.flagUpward_relabel, Marks.flagUpward_relabel]
  rfl

theorem link_relabel :
    (st.relabel ρ).link (s.relabel ρ) (d.relabel ρ) = (st.link s d).relabel ρ := by
  rw [link, link, admits_relabel, commit_relabel]
  split <;> rfl

theorem foldl_relabel {α β : Type} {f : Store → α → Store} {g : Store → β → Store} {r : α → β}
    {l : List α} (h : ∀ x ∈ l, ∀ st, g (st.relabel ρ) (r x) = (f st x).relabel ρ) (st : Store) :
    (l.map r).foldl g (st.relabel ρ) = (l.foldl f st).relabel ρ := by
  induction l generalizing st with
  | nil => rfl
  | cons x l ih =>
    rw [List.map_cons, List.foldl_cons, List.foldl_cons, h x List.mem_cons_self,
      ih fun y hy => h y (List.mem_cons_of_mem x hy)]

theorem linkAll_relabel (l : List (Place × Place)) :
    (st.relabel ρ).linkAll (l.map (Place.relabelPair ρ)) = (st.linkAll l).relabel ρ :=
  foldl_relabel ρ (fun pair _ st => link_relabel ρ st pair.1 pair.2) st

theorem linkSubtrees_relabel :
    (st.relabel ρ).linkSubtrees (s.relabel ρ) (d.relabel ρ) = (st.linkSubtrees s d).relabel ρ := by
  rw [linkSubtrees, linkSubtrees, Place.preOrder_relabel, Place.preOrder_relabel, List.zip_map,
    ← linkAll_relabel]
  rfl

theorem bump_relabel :
    (st.relabel ρ).bump (s.relabel ρ) (d.relabel ρ) = (st.bump s d).relabel ρ := by
  rw [bump, bump, relabel, relabel, Place.id_relabel, Place.id_relabel,
    Marks.adjust_relabel ρ (f := Mark.bumped) (fun _ => rfl),
    Marks.adjust_relabel ρ (f := Mark.bumped) (fun _ => rfl)]

theorem encloses_relabel (p q : Place) :
    encloses (p.relabel ρ) (q.relabel ρ) = encloses p q := by
  rw [encloses, encloses, Place.id_relabel, Place.id_relabel, Place.size_relabel]

theorem leadsInto_relabel (p : Place) :
    (st.relabel ρ).leadsInto (d.relabel ρ) (p.relabel ρ) = st.leadsInto d p := by
  rw [leadsInto, leadsInto, destinationOf?_relabel]
  cases st.destinationOf? p with
  | none => rfl
  | some q => exact encloses_relabel ρ d q

theorem common_relabel :
    (st.relabel ρ).common (s.relabel ρ) (d.relabel ρ) = st.common s d := by
  rw [common, common, Place.descendants_relabel, List.countP_map]
  congr 1
  funext p
  exact leadsInto_relabel ρ st d p

theorem dice_relabel : (st.relabel ρ).dice (s.relabel ρ) (d.relabel ρ) = st.dice s d := by
  rw [dice, dice, Place.size_relabel, Place.size_relabel, common_relabel]

theorem parentDice_relabel :
    (st.relabel ρ).parentDice (s.relabel ρ) (d.relabel ρ) = st.parentDice s d := by
  rw [parentDice, parentDice, Place.parent?_relabel, Place.parent?_relabel]
  cases s.parent? with
  | none => rfl
  | some p =>
    cases d.parent? with
    | none => rfl
    | some q => exact dice_relabel ρ st p q

end Store

end Stores

namespace TopDown

variable (ρ : Relabelling)

def State.relabel (σ : State) : State where
  src := σ.src.map (Place.relabel ρ)
  dst := σ.dst.map (Place.relabel ρ)
  deferred := σ.deferred.map (Place.relabelPair ρ)
  store := σ.store.relabel ρ

section Pools

variable (pool : Pool) (h : Nat)

theorem top_map : Pool.top (pool.map (Place.relabel ρ)) = pool.top := by
  induction pool with
  | nil => rfl
  | cons p pool ih => rw [List.map_cons, Pool.top, Pool.top, Place.height_relabel, ih]

theorem ofHeight_map :
    Pool.ofHeight (pool.map (Place.relabel ρ)) h = (pool.ofHeight h).map (Place.relabel ρ) := by
  exact filter_map_eq fun p _ => by rw [Place.height_relabel]

theorem without_map :
    Pool.without (pool.map (Place.relabel ρ)) h = (pool.without h).map (Place.relabel ρ) := by
  exact filter_map_eq fun p _ => by rw [Place.height_relabel]

theorem opened_map (ps : List Place) :
    Pool.opened (pool.map (Place.relabel ρ)) (ps.map (Place.relabel ρ)) =
      (pool.opened ps).map (Place.relabel ρ) := by
  rw [Pool.opened, Pool.opened, List.map_append,
    Place.flatMap_relabel ρ fun p _ => Place.children_relabel ρ p]

def Pool.reopened (m : Marks) : Pool :=
  (pool.without h).opened ((pool.ofHeight h).filter fun p => (m.lookup p.id).times == 0)

theorem reopened_map (m : Marks) :
    Pool.reopened (pool.map (Place.relabel ρ)) h (m.relabel ρ) =
      (pool.reopened h m).map (Place.relabel ρ) := by
  have huntimed : ∀ p ∈ pool.ofHeight h, (((m.relabel ρ).lookup (p.relabel ρ).id).times == 0) =
      ((m.lookup p.id).times == 0) := by
    intro p _
    rw [Place.id_relabel, Marks.lookup_relabel]
    rfl
  rw [Pool.reopened, Pool.reopened, without_map, ofHeight_map, filter_map_eq huntimed, opened_map]

end Pools

theorem pairUp_eq (σ : State) (h : Nat) : pairUp σ h =
    { src := σ.src.reopened h (linked σ h).src
      dst := σ.dst.reopened h (linked σ h).dst
      deferred := σ.deferred ++ (candidates σ h).filter fun p => !isUnique (counted σ h) p
      store := linked σ h } :=
  rfl

theorem isUnique_relabel (st : Store) (pair : Place × Place) :
    isUnique (st.relabel ρ) (Place.relabelPair ρ pair) = isUnique st pair := by
  rw [isUnique, isUnique, Place.relabelPair, Place.id_relabel, Place.id_relabel, Store.relabel,
    Marks.lookup_relabel, Marks.lookup_relabel]
  rfl

theorem ranked_relabel (st : Store) (pairs : List (Place × Place)) :
    ranked (st.relabel ρ) (pairs.map (Place.relabelPair ρ)) =
      (ranked st pairs).map fun c => (c.1, Place.relabelPair ρ c.2) := by
  have hscored : (pairs.map (Place.relabelPair ρ)).map
      (fun p => ((st.relabel ρ).parentDice p.1 p.2, p)) =
        (pairs.map fun p => (st.parentDice p.1 p.2, p)).map
          fun c => (c.1, Place.relabelPair ρ c.2) := by
    rw [List.map_map, List.map_map]
    apply List.map_congr_left
    intro pair _
    exact congrArg (·, Place.relabelPair ρ pair) (Store.parentDice_relabel ρ st pair.1 pair.2)
  rw [ranked, ranked, hscored]
  symm
  apply List.map_mergeSort
  exact fun _ _ _ _ => rfl

theorem settle_relabel (st : Store) (s d : Place) :
    settle (st.relabel ρ) (s.relabel ρ) (d.relabel ρ) = (settle st s d).relabel ρ := by
  rw [settle, settle, Store.admits_relabel, Store.linkSubtrees_relabel]
  split <;> rfl

section Run

variable {ρ} {S D : Wrapped} (hρ : ρ.Faithful S D) {σ : State}

include hρ

theorem equalPairs_relabel {srcs dsts : List Place} (hs : ∀ s ∈ srcs, s ∈ nodes S)
    (hd : ∀ d ∈ dsts, d ∈ nodes D) :
    equalPairs (srcs.map (Place.relabel ρ)) (dsts.map (Place.relabel ρ)) =
      (equalPairs srcs dsts).map (Place.relabelPair ρ) := by
  rw [equalPairs, equalPairs, List.flatMap_map, List.map_flatMap]
  apply List.flatMap_congr
  intro s hs'
  have hequal : (dsts.map (Place.relabel ρ)).filter
      (fun d => (s.relabel ρ).node.isomorphic d.node) =
        (dsts.filter fun d => s.node.isomorphic d.node).map (Place.relabel ρ) :=
    filter_map_eq fun d hd' => hρ.isomorphic s (hs s hs') d (hd d hd')
  rw [hequal, List.map_map, List.map_map]
  rfl

section Compared

variable (hσ : σ.Inside S D) (h : Nat)

include hσ

theorem candidates_relabel :
    candidates (σ.relabel ρ) h = (candidates σ h).map (Place.relabelPair ρ) := by
  simp only [candidates, State.relabel, ofHeight_map]
  exact equalPairs_relabel hρ (fun p hp => hσ.src p (mem_ofHeight.1 hp).1)
    fun p hp => hσ.dst p (mem_ofHeight.1 hp).1

theorem counted_relabel : counted (σ.relabel ρ) h = (counted σ h).relabel ρ := by
  rw [counted, candidates_relabel hρ hσ]
  exact Store.foldl_relabel ρ (fun pair _ st => Store.bump_relabel ρ st pair.1 pair.2) σ.store

theorem unique_relabel : unique (σ.relabel ρ) h = (unique σ h).map (Place.relabelPair ρ) := by
  rw [unique, unique, candidates_relabel hρ hσ, counted_relabel hρ hσ]
  exact filter_map_eq fun pair _ => isUnique_relabel ρ (counted σ h) pair

theorem linked_relabel : linked (σ.relabel ρ) h = (linked σ h).relabel ρ := by
  rw [linked, unique_relabel hρ hσ, counted_relabel hρ hσ]
  exact Store.foldl_relabel ρ (fun pair _ st => Store.linkSubtrees_relabel ρ st pair.1 pair.2)
    (counted σ h)

theorem pairUp_relabel : pairUp (σ.relabel ρ) h = (pairUp σ h).relabel ρ := by
  have hdeferred : (candidates (σ.relabel ρ) h).filter
      (fun p => !isUnique (counted (σ.relabel ρ) h) p) =
        ((candidates σ h).filter fun p => !isUnique (counted σ h) p).map (Place.relabelPair ρ) := by
    rw [candidates_relabel hρ hσ, counted_relabel hρ hσ]
    exact filter_map_eq fun pair _ => congrArg Bool.not (isUnique_relabel ρ (counted σ h) pair)
  rw [pairUp_eq, pairUp_eq, hdeferred, linked_relabel hρ hσ]
  simp only [State.relabel, Store.relabel, reopened_map, List.map_append]

end Compared

theorem step?_relabel (minHeight : Nat) (hσ : σ.Inside S D) :
    step? minHeight (σ.relabel ρ) = (step? minHeight σ).map (State.relabel ρ) := by
  have hsrc : (σ.relabel ρ).src.top = σ.src.top := top_map ρ σ.src
  have hdst : (σ.relabel ρ).dst.top = σ.dst.top := top_map ρ σ.dst
  simp only [step?, hsrc, hdst, pairUp_relabel hρ hσ]
  split
  · rfl
  · split
    · simp only [State.relabel, without_map, ofHeight_map, opened_map, Option.map_some]
    · split
      · simp only [State.relabel, without_map, ofHeight_map, opened_map, Option.map_some]
      · rfl

theorem exhaust_relabel (minHeight : Nat) (hσ : σ.Inside S D) :
    exhaust minHeight (σ.relabel ρ) = (exhaust minHeight σ).relabel ρ := by
  induction σ using exhaust.induct minHeight with
  | case1 σ hstep =>
    have hstep' := step?_relabel hρ minHeight hσ
    rw [hstep, Option.map_none] at hstep'
    rw [exhaust, hstep', exhaust, hstep]
  | case2 σ σ' hstep ih =>
    have hstep' := step?_relabel hρ minHeight hσ
    rw [hstep, Option.map_some] at hstep'
    rw [exhaust, hstep', exhaust.eq_def minHeight σ, hstep]
    exact ih (hσ.step? hstep).1

theorem run_relabel (minHeight : Nat) {s d : Place} (st : Store) (hs : s ∈ nodes S)
    (hd : d ∈ nodes D) : run minHeight (s.relabel ρ) (d.relabel ρ) (st.relabel ρ) =
      (run minHeight s d st).relabel ρ := by
  have hstart : start (st.relabel ρ) (s.relabel ρ) (d.relabel ρ) = (start st s d).relabel ρ := rfl
  have hfinal := exhaust_relabel hρ minHeight (inside_start st hs hd)
  rw [run, run, hstart, hfinal]
  simp only [State.relabel, ranked_relabel]
  exact Store.foldl_relabel ρ (fun c _ st => settle_relabel ρ st c.2.1 c.2.2) _

end Run

end TopDown

namespace BottomUp

section Candidates

variable (ρ : Relabelling) (st : Store) (s : Place)

theorem climb_map (seen : List Nat) (ns : List Wrapped) :
    climb seen (ns.map (Rose.map ρ.label)) = climb seen ns := by
  induction ns generalizing seen with
  | nil => rfl
  | cons n ns ih => rw [List.map_cons, climb, climb, Rose.id_map_label, ih]

theorem seeds_relabel : seeds (st.relabel ρ) (s.relabel ρ) = seeds st s := by
  have hpartners : (s.relabel ρ).descendants.filterMap (st.relabel ρ).destinationOf? =
      (s.descendants.filterMap st.destinationOf?).map (Place.relabel ρ) := by
    rw [Place.descendants_relabel, List.filterMap_map, List.map_filterMap]
    congr 1
    funext p
    exact Store.destinationOf?_relabel ρ st p
  rw [seeds, seeds, hpartners, List.foldl_map]
  congr 1
  funext seen q
  exact climb_map ρ seen q.above

def relabelBest (best : Score × Place) : Score × Place := (best.1, best.2.relabel ρ)

theorem better_relabel (best : Option (Score × Place)) (d : Place) :
    better (st.relabel ρ) (s.relabel ρ) (best.map (relabelBest ρ)) (d.relabel ρ) =
      (better st s best d).map (relabelBest ρ) := by
  cases best with
  | none => simp [better, relabelBest, Store.dice_relabel]
  | some top =>
    simp only [better, Option.map_some, relabelBest, Store.dice_relabel]
    split <;> rfl

theorem foldl_better_relabel (best : Option (Score × Place)) (ds : List Place) :
    (ds.map (Place.relabel ρ)).foldl (better (st.relabel ρ) (s.relabel ρ))
        (best.map (relabelBest ρ)) =
      (ds.foldl (better st s) best).map (relabelBest ρ) := by
  induction ds generalizing best with
  | nil => rfl
  | cons d ds ih => rw [List.map_cons, List.foldl_cons, List.foldl_cons, better_relabel, ih]

end Candidates

variable {ρ : Relabelling} {S D : Wrapped} (hρ : ρ.Faithful S D)

include hρ

theorem candidates_relabel (st : Store) (dsts : List Place) (s : Place) :
    candidates (st.relabel ρ) (dsts.map (Place.relabel ρ)) (s.relabel ρ) =
      (candidates st dsts s).map (Place.relabel ρ) := by
  rw [candidates, candidates, seeds_relabel]
  apply filter_map_eq
  intro d _
  rw [Store.isMappedDst_relabel, Place.kind_relabel_beq hρ, Place.id_relabel]

theorem bestCandidate?_relabel (st : Store) (dsts : List Place) (s : Place) :
    bestCandidate? (st.relabel ρ) (dsts.map (Place.relabel ρ)) (s.relabel ρ) =
      (bestCandidate? st dsts s).map (relabelBest ρ) := by
  rw [bestCandidate?, bestCandidate?, candidates_relabel hρ]
  exact foldl_better_relabel ρ st s none (candidates st dsts s)

theorem refine_relabel (maxSize : Nat) (st : Store) (s d : Place) :
    refine maxSize (st.relabel ρ) (s.relabel ρ) (d.relabel ρ) =
      (refine maxSize st s d).relabel ρ := by
  have hsrc : reducedSrc (st.relabel ρ) (s.relabel ρ) =
      .ofPlace (fun id => (st.src.lookup id).isMapped) (s.relabel ρ) := by
    simp only [reducedSrc, Store.relabel, Marks.isMapped_lookup_relabel]
  have hdst : reducedDst (st.relabel ρ) (d.relabel ρ) =
      .ofPlace (fun id => (st.dst.lookup id).isMapped) (d.relabel ρ) := by
    simp only [reducedDst, Store.relabel, Marks.isMapped_lookup_relabel]
  have hpairs := EditDistance.freePairs_relabel
    (Reduced.items_relabel ρ (fun id => (st.src.lookup id).isMapped) s)
    (Reduced.items_relabel ρ (fun id => (st.dst.lookup id).isMapped) d)
    (Place.sameContent_relabel hρ)
  simp only [refine, hsrc, hdst, hpairs, Reduced.count_relabel]
  rw [reducedSrc, reducedDst]
  split
  · exact Store.linkAll_relabel ρ st _
  · rfl

theorem pair_relabel (config : Config) (st : Store) (s d : Place) :
    pair config (st.relabel ρ) (s.relabel ρ) (d.relabel ρ) = (pair config st s d).relabel ρ := by
  rw [pair, pair, Store.admits_relabel, Store.commit_relabel, refine_relabel hρ]
  split <;> rfl

theorem visit_relabel (config : Config) (d : Place) (dsts : List Place) (st : Store) (s : Place) :
    visit config (d.relabel ρ) (dsts.map (Place.relabel ρ)) (st.relabel ρ) (s.relabel ρ) =
      (visit config d dsts st s).relabel ρ := by
  have hbelow : (((st.relabel ρ).src.lookup (s.relabel ρ).id).matchedBelow) =
      (st.src.lookup s.id).matchedBelow := by
    rw [Place.id_relabel, Store.relabel, Marks.lookup_relabel]
    rfl
  rw [visit, visit, Store.isMappedSrc_relabel, Place.isRoot_relabel, hbelow, pair_relabel hρ,
    bestCandidate?_relabel hρ]
  split
  · rfl
  · split
    · rfl
    · split
      · cases bestCandidate? st dsts s with
        | none => rfl
        | some best =>
          simp only [Option.map_some, relabelBest, pair_relabel hρ]
          split <;> rfl
      · rfl

theorem run_relabel (config : Config) (s d : Place) (st : Store) :
    run config (s.relabel ρ) (d.relabel ρ) (st.relabel ρ) = (run config s d st).relabel ρ := by
  rw [run, run, Place.postOrder_relabel, Place.postOrder_relabel]
  exact Store.foldl_relabel ρ (fun p _ st => visit_relabel hρ config d d.postOrder st p) st

end BottomUp

theorem matchWrapped_map {ρ : Relabelling} {S D : Wrapped} (hρ : ρ.Faithful S D) (config : Config) :
    matchWrapped config (S.map ρ.label) (D.map ρ.label) = (matchWrapped config S D).relabel ρ := by
  simp only [matchWrapped]
  rw [← Place.root_relabel, ← Place.root_relabel, Store.empty_map,
    TopDown.run_relabel hρ config.minHeight _ (root_mem_nodes S) (root_mem_nodes D),
    BottomUp.run_relabel hρ]

end Matching

end Relocate
