import Relocate.Proofs.Matching.Joining

/-!
# The candidates of a run

All candidates that the top-down phase finds, in the order in which it finds them. Their places have
left the pools for good: what is found later is lower and lies elsewhere, so a place is counted as
often as it is listed, all its equals are compared at once, and whether a candidate is unique does
not change any more. The unique ones are committed in this order, the others are put off in it.
-/

set_option autoImplicit false

namespace Relocate.Matching.TopDown

open Store

variable {mix : Mix} {a b : Ast} {S D T : Wrapped} {σ σ' : State} {minHeight k : Nat}
  {past : List (Place × Place)}

/-- The candidates that the steps from a state on record, in the order in which they are found. -/
def recorded (minHeight : Nat) (σ : State) : List (Place × Place) :=
  match _h : step? minHeight σ with
  | none => []
  | some σ' =>
    (if σ.src.top = σ.dst.top then candidates σ σ.src.top else []) ++ recorded minHeight σ'
termination_by σ.weight
decreasing_by exact step?_weight_lt _h

/-- The places of one side of all candidates so far: they have left the pool, what is left in it is
lower, and each was counted once for every candidate that it is in. -/
structure Pool.Seen (T : Wrapped) (pool : Pool) (seen : List Place) (m : Marks) : Prop
    extends pool.Apart T seen where
  lower : ∀ p ∈ seen, ∀ q ∈ pool, q.height < p.height
  times : ∀ p ∈ nodes T, (m.lookup p.id).times = (seen.map Place.id).count p.id

namespace Pool.Seen

variable {pool : Pool} {seen ps ends : List Place} {m m' : Marks} {p : Place}

theorem opened (h : pool.Seen T seen m) (hps : ps.Sublist (pool.ofHeight k)) :
    ((pool.without k).opened ps).Seen T seen m where
  toApart := h.toApart.opened hps
  lower := by
    intro p hp q hq
    rcases mem_opened.1 hq with hq | ⟨r, hr, hqr⟩
    · exact h.lower p hp q (mem_without.1 hq).1
    · have hbelow := h.lower p hp r (mem_ofHeight.1 (hps.subset hr)).1
      exact Nat.lt_trans (Place.height_lt_of_mem_children hqr) hbelow
  times := h.times

theorem compared (h : pool.Seen (Rose.wrap mix a) seen m)
    (hpool : pool.Fresh (Rose.wrap mix a) m) (hcounts : Marks.Counts ends m m')
    (hends : ∀ p ∈ ends, p ∈ pool.ofHeight pool.top) :
    ((pool.without pool.top).opened ((pool.ofHeight pool.top).filter fun p =>
      (m'.lookup p.id).times == 0)).Seen (Rose.wrap mix a) (seen ++ ends) m' where
  toApart := h.toApart.compared hpool hcounts hends fun _ hp => hp
  lower := by
    intro p hp q hq
    rcases List.mem_append.1 hp with hp | hp
    · exact (h.opened List.filter_sublist).lower p hp q hq
    · rw [(mem_ofHeight.1 (hends p hp)).2]
      rcases mem_opened.1 hq with hq | ⟨r, hr, hqr⟩
      · obtain ⟨hmem, hne⟩ := mem_without.1 hq
        exact Nat.lt_of_le_of_ne (height_le_top hmem) hne
      · have htop := (mem_ofHeight.1 (List.mem_filter.1 hr).1).2
        rw [← htop]
        exact Place.height_lt_of_mem_children hqr
  times := by
    intro p hp
    have hlt : p.id < Array.size m := by
      rw [hpool.size, Rose.size_wrap]
      exact id_lt_size hp
    rw [hcounts.times p.id hlt, h.times p hp, List.map_append, List.count_append]

/-- No later comparison counts a place again. -/
theorem times_eq (h : pool.Seen (Rose.wrap mix a) seen m)
    (hpool : pool.Fresh (Rose.wrap mix a) m) (hcounts : Marks.Counts ends m m')
    (hends : ∀ e ∈ ends, e ∈ pool) (hp : p ∈ seen) :
    (m'.lookup p.id).times = (m.lookup p.id).times := by
  have hinside := h.inside p hp
  have hnone : (ends.map Place.id).count p.id = 0 := by
    rw [List.count_eq_zero]
    intro hmem
    obtain ⟨e, he, hid⟩ := List.mem_map.1 hmem
    obtain rfl : e = p := eq_of_id_eq (hpool.inside e (hends e he)) hinside hid
    exact Nat.lt_irrefl _ (h.lower e hp e (hends e he))
  rw [hcounts.times p.id (by rw [hpool.size, Rose.size_wrap]; exact id_lt_size hinside), hnone,
    Nat.add_zero]

end Pool.Seen

/-- What holds of the candidates so far: equal places were compared with the same ones, and what is
unique among them was committed in this order while the rest was put off in it. -/
structure State.Trail (S D : Wrapped) (past : List (Place × Place)) (σ : State) : Prop where
  fresh : σ.Fresh S D
  src : σ.src.Seen S (past.map Prod.fst) σ.store.src
  dst : σ.dst.Seen D (past.map Prod.snd) σ.store.dst
  nodup : past.Nodup
  alike : ∀ c ∈ past, Alike c.1 c.2
  whole : ∀ c ∈ past, ∀ e ∈ past, Alike c.1 e.1 → (c.1, e.2) ∈ past
  deferred : σ.deferred = past.filter fun c => !isUnique σ.store c
  pairs : σ.store.pairs.toList = (past.filter (isUnique σ.store)).flatMap lockstep

theorem isUnique_linked (σ : State) (h : Nat) (c : Place × Place) :
    isUnique (linked σ h) c = isUnique (counted σ h) c := by
  rw [Bool.eq_iff_iff, isUnique_iff, isUnique_iff]
  apply forall_congr'
  intro side
  rw [linked, (grows_foldl side (unique σ h) (counted σ h)).times]

theorem State.Trail.on (hσ : σ.Trail (Rose.wrap mix a) (Rose.wrap mix b) past) (side : Side) :
    (side.pool σ).Seen (Rose.wrap mix (side.of (a, b))) (past.map side.of)
      (side.marks σ.store) := by
  cases side
  · exact hσ.src
  · exact hσ.dst

section Compared

variable (hσ : σ.Trail (Rose.wrap mix a) (Rose.wrap mix b) past) {h : Nat} {c : Place × Place}

include hσ

theorem State.Trail.isUnique_linked (hc : c ∈ past) :
    isUnique (linked σ h) c = isUnique σ.store c := by
  rw [Bool.eq_iff_iff, isUnique_iff, isUnique_iff]
  apply forall_congr'
  intro side
  rw [(hσ.on side).times_eq (hσ.fresh.on side) (counts_linked side σ h)
    (fun _ he => (mem_ofHeight.1 (mem_ofHeight_of_mem_map side he)).1) (List.mem_map_of_mem hc)]

theorem State.Trail.height_lt {e : Place × Place} (hc : c ∈ past) (he : e ∈ candidates σ h) :
    e.1.height < c.1.height :=
  hσ.src.lower c.1 (List.mem_map_of_mem hc) e.1 (mem_ofHeight.1 (mem_candidates he).1).1

/-- Equal places of earlier and of new candidates have been compared with the same places. -/
theorem State.Trail.whole_append :
    ∀ c ∈ past ++ candidates σ h, ∀ e ∈ past ++ candidates σ h, Alike c.1 e.1 →
      (c.1, e.2) ∈ past ++ candidates σ h := by
  intro c hc e he halike
  have hheight := Place.height_eq_of_shape_eq halike
  rw [List.mem_append] at hc he ⊢
  rcases hc with hc | hc <;> rcases he with he | he
  · exact Or.inl (hσ.whole c hc e he halike)
  · exact absurd (hσ.height_lt hc he) (by omega)
  · exact absurd (hσ.height_lt he hc) (by omega)
  · obtain ⟨hs, -, -⟩ := mem_candidates hc
    obtain ⟨-, hd, -⟩ := mem_candidates he
    have hs' := hσ.fresh.src.inside c.1 (mem_ofHeight.1 hs).1
    have hd' := hσ.fresh.dst.inside e.2 (mem_ofHeight.1 hd).1
    have hequal := alike_of_mem_equalPairs he
    exact Or.inr (mem_equalPairs.2 ⟨hs, hd,
      (isomorphic_iff_shape_eq hs' hd').2 (halike.trans hequal)⟩)

theorem State.Trail.pairUp (htop : σ.src.top = σ.dst.top) :
    (pairUp σ σ.src.top).Trail (Rose.wrap mix a) (Rose.wrap mix b)
      (past ++ candidates σ σ.src.top) where
  fresh := hσ.fresh.pairUp σ.src.top
  src := by
    rw [List.map_append]
    exact hσ.src.compared hσ.fresh.src (counts_linked .src σ _)
      fun _ he => mem_ofHeight_of_mem_map .src he
  dst := by
    rw [List.map_append, htop]
    exact hσ.dst.compared hσ.fresh.dst (counts_linked .dst σ _)
      fun _ he => mem_ofHeight_of_mem_map .dst he
  nodup := by
    rw [List.nodup_append]
    refine ⟨hσ.nodup, hσ.fresh.nodup_candidates _, ?_⟩
    rintro c hc e he rfl
    exact Nat.lt_irrefl _ (hσ.height_lt hc he)
  alike := by
    intro c hc
    exact (List.mem_append.1 hc).elim (hσ.alike c) alike_of_mem_equalPairs
  whole := hσ.whole_append
  deferred := by
    -- earlier candidates stay as unique as they were, and linking counts nothing
    show σ.deferred ++ (candidates σ σ.src.top).filter (fun c => !isUnique (counted σ _) c) =
      (past ++ candidates σ σ.src.top).filter (fun c => !isUnique (linked σ _) c)
    rw [List.filter_append, hσ.deferred]
    congr 1
    · exact List.filter_congr fun c hc => by rw [hσ.isUnique_linked hc]
    · exact List.filter_congr fun c _ => by rw [TopDown.isUnique_linked]
  pairs := by
    show (linked σ σ.src.top).pairs.toList =
      ((past ++ candidates σ σ.src.top).filter (isUnique (linked σ _))).flatMap lockstep
    rw [pairs_linked hσ.fresh, hσ.pairs, List.filter_append, List.flatMap_append]
    congr 2
    · exact List.filter_congr fun c hc => (hσ.isUnique_linked hc).symm
    · exact List.filter_congr fun c _ => (TopDown.isUnique_linked σ _ c).symm

end Compared

/-- What one step preserves: only a comparison adds candidates. -/
theorem State.Trail.step (hσ : σ.Trail (Rose.wrap mix a) (Rose.wrap mix b) past)
    (hstep : step? minHeight σ = some σ') :
    σ'.Trail (Rose.wrap mix a) (Rose.wrap mix b)
      (past ++ if σ.src.top = σ.dst.top then candidates σ σ.src.top else []) := by
  rcases step?_eq_some hstep with ⟨hlt, -, rfl⟩ | ⟨hlt, -, rfl⟩ | ⟨heq, -, rfl⟩
  · rw [if_neg (Nat.ne_of_gt hlt), List.append_nil]
    exact { hσ with
      fresh := ⟨hσ.fresh.src.opened (List.Sublist.refl _), hσ.fresh.dst⟩
      src := hσ.src.opened (List.Sublist.refl _) }
  · rw [if_neg (Nat.ne_of_lt hlt), List.append_nil]
    exact { hσ with
      fresh := ⟨hσ.fresh.src, hσ.fresh.dst.opened (List.Sublist.refl _)⟩
      dst := hσ.dst.opened (List.Sublist.refl _) }
  · rw [if_pos heq]
    exact hσ.pairUp heq

theorem State.Trail.exhaust (hσ : σ.Trail (Rose.wrap mix a) (Rose.wrap mix b) past) :
    (exhaust minHeight σ).Trail (Rose.wrap mix a) (Rose.wrap mix b)
      (past ++ recorded minHeight σ) := by
  induction σ using exhaust.induct minHeight generalizing past with
  | case1 σ hstep =>
    rw [TopDown.exhaust, recorded, hstep, List.append_nil]
    exact hσ
  | case2 σ σ' hstep ih =>
    rw [TopDown.exhaust, recorded, hstep, ← List.append_assoc]
    exact ih (hσ.step hstep)

end Relocate.Matching.TopDown
