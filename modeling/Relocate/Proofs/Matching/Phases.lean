import Relocate.Proofs.Matching.Agreement

/-!
# Phases as elementary steps

Linking, flagging and both phases take a store from one state to another by elementary steps between
nodes of the two trees, from whichever places they start. So whatever is done to a store, in any
order, keeps its pairs and its marks in agreement.
-/

set_option autoImplicit false

namespace Relocate

namespace Rose

mutual
theorem mem_preOrder_of_prune (taken : Nat → Bool) (above : List Wrapped) (next : Nat) :
    (t : Wrapped) → ∀ u ∈ (numberPost next (Place.prune taken above t)).postOrder,
      u.label.label ∈ (⟨t, above⟩ : Place).preOrder
  | node l cs => by
    intro u hu
    rw [Place.prune, numberPost, postOrder, List.mem_append, List.mem_singleton] at hu
    rw [Place.preOrder_eq, List.mem_cons, Place.children_mk_node]
    rcases hu with hu | hu
    · exact Or.inr (mem_preOrder_of_pruneAll taken (node l cs :: above) next cs u hu)
    · rw [hu]
      exact Or.inl rfl

theorem mem_preOrder_of_pruneAll (taken : Nat → Bool) (above : List Wrapped) (next : Nat) :
    (cs : List Wrapped) →
      ∀ u ∈ postOrderAll (numberPostAll next (Place.pruneAll taken above cs)),
        u.label.label ∈ (cs.map fun c => (⟨c, above⟩ : Place)).flatMap Place.preOrder
  | [] => by simp [Place.pruneAll, numberPostAll, postOrderAll]
  | c :: cs => by
    intro u hu
    rw [List.map_cons, List.flatMap_cons, List.mem_append]
    rw [Place.pruneAll] at hu
    split at hu
    · exact Or.inr (mem_preOrder_of_pruneAll taken above next cs u hu)
    · rw [numberPostAll, postOrderAll, List.mem_append] at hu
      rcases hu with hu | hu
      · exact Or.inl (mem_preOrder_of_prune taken above next c u hu)
      · exact Or.inr (mem_preOrder_of_pruneAll taken above _ cs u hu)
end

end Rose

theorem Reduced.mem_preOrder_of_items {taken : Nat → Bool} {p : Place} {i : Item Place}
    (h : i ∈ (Reduced.ofPlace taken p).items) : i.label ∈ p.preOrder := by
  obtain ⟨u, hu, rfl⟩ := List.mem_map.1 h
  exact Rose.mem_preOrder_of_prune taken p.above 0 p.node u hu

theorem EditDistance.eq_change_of_freePair? {p : Problem Place} {e : EditOp} {op : PlaceOp}
    (hplaced : placeOp? p e = some op) {s d : Place} (h : op.freePair? = some (s, d)) :
    ∃ i j x y, e = .change i j 0 ∧ p.src[i - 1]? = some x ∧ p.dst[j - 1]? = some y ∧
      x.label = s ∧ y.label = d := by
  cases e with
  | delete i =>
    obtain ⟨x, -, rfl⟩ := Option.map_eq_some_iff.1 hplaced
    cases h
  | insert j =>
    obtain ⟨x, -, rfl⟩ := Option.map_eq_some_iff.1 hplaced
    cases h
  | change i j cost =>
    rw [placeOp?] at hplaced
    split at hplaced
    · rename_i x y hx hy
      cases hplaced
      cases cost with
      | zero =>
        cases h
        exact ⟨i, j, x, y, rfl, hx, hy, rfl, rfl⟩
      | succ cost => cases h
    · cases hplaced

theorem EditDistance.mem_items_of_freePair? {A B : Reduced} {op : PlaceOp}
    (hop : op ∈ placeScript (alignment A B)) {s d : Place} (h : op.freePair? = some (s, d)) :
    (∃ i ∈ A.items, i.label = s) ∧ ∃ j ∈ B.items, j.label = d := by
  obtain ⟨e, -, hplaced⟩ := List.mem_filterMap.1 hop
  obtain ⟨i, j, x, y, -, hx, hy, hs, hd⟩ := eq_change_of_freePair? hplaced h
  exact ⟨⟨x, List.mem_toArray.1 (Array.mem_of_getElem? hx), hs⟩,
    y, List.mem_toArray.1 (Array.mem_of_getElem? hy), hd⟩

namespace Matching

namespace Store

variable {S D : Wrapped} {s d : Place}

theorem advances_link (st : Store) (hs : s ∈ nodes S) (hd : d ∈ nodes D) :
    Advances S D st (st.link s d) := by
  rw [link]
  split
  · rename_i hadmits
    exact .single (.commit hs hd hadmits)
  · exact .refl

theorem foldl_rel {β : Type} {f : Store → β → Store} {R : Store → Store → Prop}
    (hrefl : ∀ st, R st st) (htrans : ∀ {st st' st''}, R st st' → R st' st'' → R st st'')
    {l : List β} (h : ∀ x ∈ l, ∀ st, R st (f st x)) (st : Store) : R st (l.foldl f st) := by
  induction l generalizing st with
  | nil => exact hrefl st
  | cons x l ih =>
    rw [List.foldl_cons]
    apply htrans (h x List.mem_cons_self st)
    exact ih (fun y hy => h y (List.mem_cons_of_mem x hy)) (f st x)

theorem advances_foldl {β : Type} {f : Store → β → Store} {l : List β}
    (h : ∀ x ∈ l, ∀ st, Advances S D st (f st x)) (st : Store) : Advances S D st (l.foldl f st) :=
  foldl_rel (fun _ => .refl) .trans h st

theorem advances_linkAll {pairs : List (Place × Place)}
    (h : ∀ pair ∈ pairs, pair.1 ∈ nodes S ∧ pair.2 ∈ nodes D) (st : Store) :
    Advances S D st (st.linkAll pairs) :=
  advances_foldl (fun pair hpair st => advances_link st (h pair hpair).1 (h pair hpair).2) st

theorem advances_linkSubtrees (st : Store) (hs : s ∈ nodes S) (hd : d ∈ nodes D) :
    Advances S D st (st.linkSubtrees s d) := by
  apply advances_linkAll
  intro pair hpair
  obtain ⟨h₁, h₂⟩ := List.of_mem_zip hpair
  exact ⟨mem_nodes_of_mem_preOrder hs h₁, mem_nodes_of_mem_preOrder hd h₂⟩

end Store

namespace TopDown

open Store

section Pools

variable {minHeight h : Nat} {s s' : State} {pool : Pool}

/-- What a step does: it opens the tallest subtrees of the taller pool, or compares both. -/
theorem step?_eq_some (hstep : step? minHeight s = some s') :
    (s.dst.top < s.src.top ∧ minHeight < s.src.top ∧
      s' = { s with src := (s.src.without s.src.top).opened (s.src.ofHeight s.src.top) }) ∨
    (s.src.top < s.dst.top ∧ minHeight < s.dst.top ∧
      s' = { s with dst := (s.dst.without s.dst.top).opened (s.dst.ofHeight s.dst.top) }) ∨
    (s.src.top = s.dst.top ∧ minHeight < s.src.top ∧ s' = pairUp s s.src.top) := by
  simp only [step?] at hstep
  split at hstep
  · cases hstep
  · rename_i hmin
    split at hstep
    · cases hstep
      exact Or.inl ⟨by omega, by omega, rfl⟩
    · split at hstep
      · cases hstep
        exact Or.inr (Or.inl ⟨by omega, by omega, rfl⟩)
      · cases hstep
        exact Or.inr (Or.inr ⟨by omega, by omega, rfl⟩)

theorem step?_eq_none (hstep : step? minHeight s = none) :
    s.src.top ≤ minHeight ∧ s.dst.top ≤ minHeight := by
  simp only [step?] at hstep
  split at hstep
  · assumption
  · split at hstep
    · cases hstep
    · split at hstep <;> cases hstep

theorem mem_ofHeight {p : Place} : p ∈ pool.ofHeight h ↔ p ∈ pool ∧ p.height = h := by
  rw [Pool.ofHeight, List.mem_filter, beq_iff_eq]

theorem mem_without {p : Place} : p ∈ pool.without h ↔ p ∈ pool ∧ p.height ≠ h := by
  rw [Pool.without, List.mem_filter, bne_iff_ne]

theorem mem_opened {ps : List Place} {p : Place} :
    p ∈ pool.opened ps ↔ p ∈ pool ∨ ∃ q ∈ ps, p ∈ q.children := by
  rw [Pool.opened, List.mem_append, List.mem_flatMap]

theorem mem_equalPairs {srcs dsts : List Place} {pair : Place × Place} :
    pair ∈ equalPairs srcs dsts ↔
      pair.1 ∈ srcs ∧ pair.2 ∈ dsts ∧ pair.1.node.isomorphic pair.2.node = true := by
  obtain ⟨a, b⟩ := pair
  simp [equalPairs]

theorem mem_ranked {st : Store} {pairs : List (Place × Place)} {c : Score × Place × Place}
    (hc : c ∈ ranked st pairs) : c.2 ∈ pairs := by
  obtain ⟨pair, hpair, rfl⟩ := List.mem_map.1 (List.mem_mergeSort.1 hc)
  exact hpair

theorem mem_nodes_of_mem_opened {T : Wrapped} {ps : List Place} (hpool : ∀ p ∈ pool, p ∈ nodes T)
    (hps : ∀ p ∈ ps, p ∈ pool.ofHeight h) : ∀ p ∈ (pool.without h).opened ps, p ∈ nodes T := by
  intro p hp
  rcases mem_opened.1 hp with hp | ⟨q, hq, hpq⟩
  · exact hpool p (mem_without.1 hp).1
  · exact mem_nodes_of_mem_children (hpool q (mem_ofHeight.1 (hps q hq)).1) hpq

end Pools

structure State.Inside (S D : Wrapped) (s : State) : Prop where
  src : ∀ p ∈ s.src, p ∈ nodes S
  dst : ∀ p ∈ s.dst, p ∈ nodes D
  deferred : ∀ pair ∈ s.deferred, pair.1 ∈ nodes S ∧ pair.2 ∈ nodes D

section Run

variable {S D : Wrapped} {minHeight : Nat} {s s' : State}

theorem State.Inside.of_mem_equalPairs (h : s.Inside S D) {k : Nat} {pair : Place × Place}
    (hpair : pair ∈ equalPairs (s.src.ofHeight k) (s.dst.ofHeight k)) :
    pair.1 ∈ nodes S ∧ pair.2 ∈ nodes D := by
  obtain ⟨hs, hd, -⟩ := mem_equalPairs.1 hpair
  exact ⟨h.src _ (mem_ofHeight.1 hs).1, h.dst _ (mem_ofHeight.1 hd).1⟩

theorem State.Inside.pairUp (h : s.Inside S D) (k : Nat) : (pairUp s k).Inside S D where
  src := mem_nodes_of_mem_opened h.src fun _ hp => (List.mem_filter.1 hp).1
  dst := mem_nodes_of_mem_opened h.dst fun _ hp => (List.mem_filter.1 hp).1
  deferred := by
    intro pair hpair
    rcases List.mem_append.1 hpair with hpair | hpair
    · exact h.deferred pair hpair
    · exact h.of_mem_equalPairs (List.mem_filter.1 hpair).1

theorem State.Inside.advances_pairUp (h : s.Inside S D) (k : Nat) :
    Advances S D s.store (TopDown.pairUp s k).store := by
  have hcount := advances_foldl (S := S) (D := D)
    (l := equalPairs (s.src.ofHeight k) (s.dst.ofHeight k))
    (f := fun st p => st.bump p.1 p.2) (fun pair _ st => .single (.bump st pair.1 pair.2)) s.store
  apply hcount.trans
  apply advances_foldl
  intro pair hpair st
  obtain ⟨hs, hd⟩ := h.of_mem_equalPairs (List.mem_filter.1 hpair).1
  exact advances_linkSubtrees st hs hd

theorem State.Inside.step? (h : s.Inside S D) (hstep : step? minHeight s = some s') :
    s'.Inside S D ∧ Advances S D s.store s'.store := by
  rcases step?_eq_some hstep with ⟨-, -, rfl⟩ | ⟨-, -, rfl⟩ | ⟨-, -, rfl⟩
  · exact ⟨⟨mem_nodes_of_mem_opened h.src fun _ hp => hp, h.dst, h.deferred⟩, .refl⟩
  · exact ⟨⟨h.src, mem_nodes_of_mem_opened h.dst fun _ hp => hp, h.deferred⟩, .refl⟩
  · exact ⟨h.pairUp _, h.advances_pairUp _⟩

theorem State.Inside.exhaust (minHeight : Nat) (h : s.Inside S D) :
    (exhaust minHeight s).Inside S D ∧ Advances S D s.store (exhaust minHeight s).store := by
  induction s using exhaust.induct minHeight with
  | case1 s hstep =>
    rw [TopDown.exhaust, hstep]
    exact ⟨h, .refl⟩
  | case2 s s' hstep ih =>
    obtain ⟨hinside, hreach⟩ := h.step? hstep
    rw [TopDown.exhaust, hstep]
    exact ⟨(ih hinside).1, hreach.trans (ih hinside).2⟩

theorem advances_settle (st : Store) {s d : Place} (hs : s ∈ nodes S) (hd : d ∈ nodes D) :
    Advances S D st (settle st s d) := by
  rw [settle]
  split
  · exact advances_linkSubtrees st hs hd
  · exact .refl

theorem inside_start (st : Store) {s d : Place} (hs : s ∈ nodes S) (hd : d ∈ nodes D) :
    (start st s d).Inside S D where
  src := by
    intro p hp
    rwa [List.mem_singleton.1 hp]
  dst := by
    intro p hp
    rwa [List.mem_singleton.1 hp]
  deferred := by
    intro pair hpair
    exact absurd hpair List.not_mem_nil

theorem State.Inside.advances_run (h : (TopDown.exhaust minHeight s).Inside S D) :
    Advances S D (TopDown.exhaust minHeight s).store
      ((ranked (TopDown.exhaust minHeight s).store (TopDown.exhaust minHeight s).deferred).foldl
        (fun st c => settle st c.2.1 c.2.2) (TopDown.exhaust minHeight s).store) := by
  apply advances_foldl
  intro c hc st
  obtain ⟨hs, hd⟩ := h.deferred c.2 (mem_ranked hc)
  exact advances_settle st hs hd

theorem advances_run (minHeight : Nat) (st : Store) {s d : Place} (hs : s ∈ nodes S)
    (hd : d ∈ nodes D) : Advances S D st (run minHeight s d st) := by
  obtain ⟨hinside, hreach⟩ := (inside_start st hs hd).exhaust minHeight
  exact hreach.trans hinside.advances_run

theorem reaches_run (minHeight : Nat) (st : Store) {s d : Place} (hs : s ∈ nodes S)
    (hd : d ∈ nodes D) : Reaches S D st (run minHeight s d st) :=
  (advances_run minHeight st hs hd).reaches

end Run

end TopDown

namespace BottomUp

open Store

variable {S D : Wrapped} {st : Store} {s d : Place}

theorem of_better {a : Place} {best : Option (Score × Place)} {kept : Score × Place}
    (h : better st a best d = some kept) : kept = (st.dice a d, d) ∨ best = some kept := by
  cases best with
  | none =>
    cases h
    exact Or.inl rfl
  | some top =>
    simp only [better] at h
    split at h
    · cases h
      exact Or.inl rfl
    · exact Or.inr h

theorem of_foldl_better {a : Place} {kept : Score × Place} {ds : List Place}
    {best : Option (Score × Place)} (h : ds.foldl (better st a) best = some kept) :
    (kept.2 ∈ ds ∧ kept.1 = st.dice a kept.2) ∨ best = some kept := by
  induction ds generalizing best with
  | nil => exact Or.inr h
  | cons d ds ih =>
    rcases ih h with ⟨hmem, hscore⟩ | hstep
    · exact Or.inl ⟨List.mem_cons_of_mem d hmem, hscore⟩
    · rcases of_better hstep with rfl | hbest
      · exact Or.inl ⟨List.mem_cons_self, rfl⟩
      · exact Or.inr hbest

theorem of_bestCandidate? {dsts : List Place} {a : Place} {best : Score × Place}
    (h : bestCandidate? st dsts a = some best) :
    best.2 ∈ candidates st dsts a ∧ best.1 = st.dice a best.2 := by
  rcases of_foldl_better h with hkept | hnone
  · exact hkept
  · cases hnone

theorem mem_of_bestCandidate? {dsts : List Place} {a : Place} {best : Score × Place}
    (h : bestCandidate? st dsts a = some best) : best.2 ∈ dsts :=
  (List.mem_filter.1 (of_bestCandidate? h).1).1

theorem advances_refine (maxSize : Nat) (st : Store) (hs : s ∈ nodes S) (hd : d ∈ nodes D) :
    Advances S D st (refine maxSize st s d) := by
  simp only [refine]
  split
  · apply advances_linkAll
    intro pair hpair
    obtain ⟨op, hop, hfree⟩ := List.mem_filterMap.1 hpair
    obtain ⟨⟨i, hi, his⟩, j, hj, hjd⟩ := EditDistance.mem_items_of_freePair? hop hfree
    rw [← his, ← hjd]
    exact ⟨mem_nodes_of_mem_preOrder hs (Reduced.mem_preOrder_of_items hi),
      mem_nodes_of_mem_preOrder hd (Reduced.mem_preOrder_of_items hj)⟩
  · exact .refl

theorem advances_pair (config : Config) (st : Store) (hs : s ∈ nodes S) (hd : d ∈ nodes D) :
    Advances S D st (pair config st s d) := by
  rw [pair]
  split
  · rename_i hadmits
    exact .head (.commit hs hd hadmits) (advances_refine config.maxSize _ hs hd)
  · exact .refl

theorem advances_visit (config : Config) {dsts : List Place} (hdsts : ∀ p ∈ dsts, p ∈ nodes D)
    (st : Store) (hs : s ∈ nodes S) (hd : d ∈ nodes D) :
    Advances S D st (visit config d dsts st s) := by
  rw [visit]
  split
  · exact .refl
  · split
    · exact advances_pair config st hs hd
    · split
      · split
        · rename_i score best hbest
          split
          · exact advances_pair config st hs (hdsts best (mem_of_bestCandidate? hbest))
          · exact .refl
        · exact .refl
      · exact .refl

theorem advances_run (config : Config) (st : Store) (hs : s ∈ nodes S) (hd : d ∈ nodes D) :
    Advances S D st (run config s d st) := by
  apply advances_foldl
  intro p hp st
  apply advances_visit config _ st (mem_nodes_of_mem_preOrder hs (Place.mem_postOrder.1 hp)) hd
  intro q hq
  exact mem_nodes_of_mem_preOrder hd (Place.mem_postOrder.1 hq)

end BottomUp

end Matching

end Relocate
