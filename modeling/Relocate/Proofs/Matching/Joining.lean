import Mathlib.Data.List.Induction
import Relocate.Proofs.Matching.Alike
import Relocate.Proofs.Matching.Unique

/-!
# Subtrees are joined whole

The top-down phase joins two subtrees only while all of both is free. The places that it put off lie
outside of the pools and of each other, unless they are the same, so a later comparison does not
touch them; and when they are settled at last, a free root stands for a free subtree. So no link is
ever refused, and what the phase commits are whole subtrees above the least height.
-/

set_option autoImplicit false

namespace Relocate.Matching

namespace Store

def lockstep (pair : Place × Place) : List (Place × Place) := pair.1.preOrder.zip pair.2.preOrder

theorem mem_lockstep_self (pair : Place × Place) : pair ∈ lockstep pair := by
  rw [lockstep, Place.preOrder_eq, Place.preOrder_eq]
  exact List.mem_cons_self

/-- What was added are whole subtrees of one shape, higher than the least height. -/
def Joined (minHeight : Nat) (st st' : Store) : Prop :=
  ∃ blocks : List (Place × Place), st'.pairs.toList = st.pairs.toList ++ blocks.flatMap lockstep ∧
    ∀ block ∈ blocks, minHeight < block.1.height ∧ Alike block.1 block.2

namespace Joined

variable {minHeight : Nat} {st st' st'' : Store}

theorem of_pairs_eq (h : st'.pairs = st.pairs) : Joined minHeight st st' :=
  ⟨[], by simp [h], by simp⟩

theorem trans (h : Joined minHeight st st') (g : Joined minHeight st' st'') :
    Joined minHeight st st'' := by
  obtain ⟨blocks, hpairs, hblocks⟩ := h
  obtain ⟨blocks', hpairs', hblocks'⟩ := g
  refine ⟨blocks ++ blocks', ?_, ?_⟩
  · rw [hpairs', hpairs, List.flatMap_append, List.append_assoc]
  · intro block hblock
    exact (List.mem_append.1 hblock).elim (hblocks block) (hblocks' block)

theorem of_accepts {s d : Place} (h : st.Accepts (lockstep (s, d))) (hheight : minHeight < s.height)
    (halike : Alike s d) : Joined minHeight st (st.linkSubtrees s d) :=
  ⟨[(s, d)], by rw [List.flatMap_singleton]; exact h.pairs_linkAll, by simp [hheight, halike]⟩

end Joined

end Store

/-- Two elements that are sent to a number which occurs once among the images are one. -/
theorem eq_of_count_map_eq_one {α : Type} {f : α → Nat} {l : List α} {x y : α} (hx : x ∈ l)
    (hy : y ∈ l) (hf : f x = f y) (hcount : (l.map f).count (f y) = 1) : x = y := by
  rw [List.count, List.countP_map, List.countP_eq_length_filter, List.length_eq_one_iff] at hcount
  obtain ⟨z, hz⟩ := hcount
  have hx' : x ∈ [z] := by
    rw [← hz, List.mem_filter]
    exact ⟨hx, by simp [hf]⟩
  have hy' : y ∈ [z] := by
    rw [← hz, List.mem_filter]
    exact ⟨hy, by simp⟩
  rw [List.mem_singleton.1 hx', List.mem_singleton.1 hy']

namespace TopDown

open Store

variable {mix : Mix} {a b : Ast} {S D T : Wrapped} {σ σ' : State} {minHeight h k : Nat}

section Compared

variable (hσ : σ.Fresh (Rose.wrap mix a) (Rose.wrap mix b)) {side : Side} {pair e : Place × Place}

include hσ

theorem eq_of_mem_unique (hpair : pair ∈ unique σ h) (hother : e ∈ candidates σ h)
    (heq : side.of e = side.of pair) : e = pair := by
  obtain ⟨hmem, hunique⟩ := List.mem_filter.1 hpair
  have hcount := (hσ.on side).times_eq_count (counts_counted side σ h) (of_mem_pool side hmem)
  rw [(isUnique_iff _ pair).1 hunique side, List.map_map] at hcount
  exact eq_of_count_map_eq_one (f := Place.id ∘ side.of) hother hmem (congrArg Place.id heq)
    hcount.symm

theorem notMem_unique (hpair : pair ∈ candidates σ h)
    (hdefer : isUnique (counted σ h) pair = false) :
    side.of pair ∉ (unique σ h).map side.of := by
  intro hmem
  obtain ⟨e, he, heq⟩ := List.mem_map.1 hmem
  obtain rfl : pair = e := eq_of_mem_unique hσ he hpair heq.symm
  rw [(List.mem_filter.1 he).2] at hdefer
  cases hdefer

end Compared

theorem Pool.Fresh.not_below {pool : Pool} {m : Marks} (hpool : pool.Fresh (Rose.wrap mix a) m)
    {ends : List Place} (hends : ∀ p ∈ ends, p ∈ pool) {p q : Place} (hp : p ∈ pool)
    (hout : p ∉ ends) (hq : q ∈ p.preOrder) : ¬ Marks.Below ends q.id := by
  rintro ⟨r, hr, q', hq', hid⟩
  have hr' := hends r hr
  obtain rfl : q' = q := eq_of_id_eq (mem_nodes_of_mem_preOrder (hpool.inside r hr') hq')
    (mem_nodes_of_mem_preOrder (hpool.inside p hp) hq) hid
  exact hout (by rwa [eq_of_mem_preOrder hpool.nodup hp hr' hq hq'])

theorem grows_foldl (side : Side) (l : List (Place × Place)) (st : Store) :
    Marks.Grows (l.map side.of) (side.marks st)
      (side.marks (l.foldl (fun st p => st.linkSubtrees p.1 p.2) st)) :=
  foldl_rel (R := fun st st' => Marks.Grows _ (side.marks st) (side.marks st'))
    (fun st => Marks.Grows.refl _ (side.marks st)) Marks.Grows.trans
    (fun _ hpair st => grows_linkSubtrees (List.mem_map_of_mem hpair) st) st

/-- When the turn of a unique candidate comes, both its subtrees are still free. -/
theorem accepts_unique (hσ : σ.Fresh (Rose.wrap mix a) (Rose.wrap mix b))
    {before after : List (Place × Place)} {pair : Place × Place}
    (hsplit : unique σ h = before ++ pair :: after) :
    (before.foldl (fun st p => st.linkSubtrees p.1 p.2) (counted σ h)).Accepts
      (lockstep pair) := by
  have hmem : pair ∈ unique σ h := by rw [hsplit]; simp
  have hbefore : ∀ e ∈ before, e ∈ unique σ h ∧ e ≠ pair := by
    intro e he
    refine ⟨by rw [hsplit]; exact List.mem_append_left _ he, ?_⟩
    rintro rfl
    have hnodup := (hσ.nodup_candidates h).filter (isUnique (counted σ h))
    rw [← unique, hsplit, List.nodup_append] at hnodup
    exact hnodup.2.2 _ he _ List.mem_cons_self rfl
  have hcand : ∀ e ∈ unique σ h, e ∈ candidates σ h := fun _ he => (List.mem_filter.1 he).1
  have hinside : ∀ side : Side, side.of pair ∈ nodes (Rose.wrap mix (side.of (a, b))) :=
    fun side => (hσ.on side).inside _ (of_mem_pool side (hcand pair hmem))
  have hshape := (isomorphic_iff_shape_eq (hinside .src) (hinside .dst)).1
    (mem_candidates (hcand pair hmem)).2.2
  refine accepts_subtrees hinside (Place.size_eq_of_shape_eq hshape) ?_
  intro side q hq
  have hpool : side.of pair ∈ side.pool σ := of_mem_pool side (hcand pair hmem)
  -- a unique candidate shares no place with another, so those before it lie elsewhere
  have hout : side.of pair ∉ before.map side.of := by
    intro hin
    obtain ⟨e, he, heq⟩ := List.mem_map.1 hin
    obtain ⟨hu, hne⟩ := hbefore e he
    exact hne (eq_of_mem_unique hσ hmem (hcand e hu) heq)
  have hends : ∀ p ∈ before.map side.of, p ∈ side.pool σ := by
    intro p hp
    obtain ⟨e, he, rfl⟩ := List.mem_map.1 hp
    exact of_mem_pool side (hcand e (hbefore e he).1)
  have hidle := ((hσ.on side).idle q (mem_flatMap_preOrder hpool hq)).1
  exact ((grows_foldl side before (counted σ h)).frame q.id
    ((hσ.on side).not_below hends hpool hout hq)).trans
      ((isMapped_counted side σ h q.id).trans hidle)

theorem pairs_counted (σ : State) (h : Nat) : (counted σ h).pairs = σ.store.pairs := by
  rw [counted]
  generalize candidates σ h = l
  generalize σ.store = st
  induction l generalizing st with
  | nil => rfl
  | cons pair l ih => exact ih (st.bump pair.1 pair.2)

theorem pairs_linked (hσ : σ.Fresh (Rose.wrap mix a) (Rose.wrap mix b)) :
    (linked σ h).pairs.toList = σ.store.pairs.toList ++ (unique σ h).flatMap lockstep := by
  have hfold : ∀ before after : List (Place × Place), unique σ h = before ++ after →
      (before.foldl (fun st p => st.linkSubtrees p.1 p.2) (counted σ h)).pairs.toList =
        (counted σ h).pairs.toList ++ before.flatMap lockstep := by
    intro before
    induction before using List.reverseRecOn with
    | nil => simp
    | append_singleton before pair ih =>
      intro after hsplit
      rw [List.append_assoc, List.singleton_append] at hsplit
      rw [List.foldl_append, List.flatMap_append, ← List.append_assoc, ← ih _ hsplit,
        List.flatMap_singleton]
      exact (accepts_unique hσ hsplit).pairs_linkAll
  rw [linked, hfold _ [] (List.append_nil _).symm, pairs_counted]

theorem joined_pairUp (hσ : σ.Fresh (Rose.wrap mix a) (Rose.wrap mix b)) (hmin : minHeight < h) :
    Joined minHeight σ.store (pairUp σ h).store := by
  refine ⟨unique σ h, pairs_linked hσ, ?_⟩
  intro pair hpair
  have hmem := (List.mem_filter.1 hpair).1
  have hheight := (mem_ofHeight.1 (mem_candidates hmem).1).2
  exact ⟨by omega, alike_of_mem_equalPairs hmem⟩

structure Pool.Apart (T : Wrapped) (pool : Pool) (kept : List Place) : Prop where
  inside : ∀ p ∈ kept, p ∈ nodes T
  apart : ∀ p ∈ kept, ∀ p' ∈ kept, p = p' ∨ ∀ q ∈ p.preOrder, q ∉ p'.preOrder
  outside : ∀ p ∈ kept, ∀ q ∈ pool.flatMap Place.preOrder, q ∉ p.preOrder

namespace Pool.Apart

variable {pool : Pool} {kept ps ends new : List Place} {m m' : Marks}

theorem opened (hkept : pool.Apart T kept) (hps : ps.Sublist (pool.ofHeight k)) :
    ((pool.without k).opened ps).Apart T kept where
  inside := hkept.inside
  apart := hkept.apart
  outside := fun p hp q hq => hkept.outside p hp q ((subperm_opened hps).subset hq)

theorem compared (hkept : pool.Apart (Rose.wrap mix a) kept)
    (hpool : pool.Fresh (Rose.wrap mix a) m) (hcounts : Marks.Counts ends m m')
    (hends : ∀ p ∈ ends, p ∈ pool.ofHeight k) (hnew : ∀ p ∈ new, p ∈ ends) :
    ((pool.without k).opened ((pool.ofHeight k).filter fun p =>
      (m'.lookup p.id).times == 0)).Apart (Rose.wrap mix a) (kept ++ new) := by
  have hnew' : ∀ p ∈ new, p ∈ pool := fun p hp => (mem_ofHeight.1 (hends p (hnew p hp))).1
  have hopened := hkept.opened (k := k)
    (List.filter_sublist (p := fun p => (m'.lookup p.id).times == 0))
  refine ⟨?_, ?_, ?_⟩
  · intro p hp
    exact (List.mem_append.1 hp).elim (hkept.inside p) fun hp => hpool.inside p (hnew' p hp)
  -- what was put off earlier has left the pool, which holds all that is put off now
  · have hcross : ∀ p ∈ kept, ∀ p' ∈ new, ∀ q ∈ p'.preOrder, q ∉ p.preOrder := by
      intro p hp p' hp' q hq
      exact hkept.outside p hp q (mem_flatMap_preOrder (hnew' p' hp') hq)
    intro p hp p' hp'
    rcases List.mem_append.1 hp with hp | hp <;> rcases List.mem_append.1 hp' with hp' | hp'
    · exact hkept.apart p hp p' hp'
    · exact Or.inr fun q hq hq' => hcross p hp p' hp' q hq' hq
    · exact Or.inr (hcross p' hp' p hp)
    · by_cases heq : p = p'
      · exact Or.inl heq
      · exact Or.inr fun q hq hq' =>
          heq (eq_of_mem_preOrder hpool.nodup (hnew' p hp) (hnew' p' hp') hq hq')
  · intro p hp q hq hqp
    rcases List.mem_append.1 hp with hp | hp
    · exact hopened.outside p hp q hq hqp
    · -- A place in a candidate of this comparison was not opened.
      have hpends := hnew p hp
      obtain ⟨r, hr, hqr⟩ := exists_owner hq
      have hrpool : r ∈ pool := hr.elim (fun hr => (mem_without.1 hr).1)
        fun hr => (mem_ofHeight.1 (List.mem_filter.1 hr).1).1
      obtain rfl : r = p := eq_of_mem_preOrder hpool.nodup hrpool (hnew' p hp) hqr hqp
      rcases hr with hr | hr
      · exact (mem_without.1 hr).2 (mem_ofHeight.1 (hends r hpends)).2
      · have htimes := beq_iff_eq.1 (List.mem_filter.1 hr).2
        exact (hpool.times_eq_zero_iff hcounts hends hrpool).1 htimes hpends

end Pool.Apart

structure Pool.Spares (T : Wrapped) (pool : Pool) (kept : List Place) (m : Marks) : Prop where
  inside : ∀ p ∈ kept, p ∈ nodes T
  apart : ∀ p ∈ kept, ∀ p' ∈ kept, p = p' ∨ ∀ q ∈ p.preOrder, q ∉ p'.preOrder
  outside : ∀ p ∈ kept, ∀ q ∈ pool.flatMap Place.preOrder, q ∉ p.preOrder
  free : ∀ p ∈ kept, ∀ q ∈ p.preOrder, (m.lookup q.id).isMapped = false

namespace Pool.Spares

variable {pool : Pool} {kept ps ends new : List Place} {m m' : Marks}

theorem nil (T : Wrapped) (pool : Pool) (m : Marks) : pool.Spares T [] m :=
  ⟨by simp, by simp, by simp, by simp⟩

theorem opened (hkept : pool.Spares T kept m) (hps : ps.Sublist (pool.ofHeight k)) :
    ((pool.without k).opened ps).Spares T kept m where
  inside := hkept.inside
  apart := hkept.apart
  outside := fun p hp q hq => hkept.outside p hp q ((subperm_opened hps).subset hq)
  free := hkept.free

/-- What a comparison does to one side: the places put off before stay untouched, and those put off
by it join them. -/
theorem compared (joined : List Place) (hkept : pool.Spares (Rose.wrap mix a) kept m)
    (hpool : pool.Fresh (Rose.wrap mix a) m) (hcounts : Marks.Counts ends m m')
    (hends : ∀ p ∈ ends, p ∈ pool.ofHeight k) (hjoined : ∀ p ∈ joined, p ∈ pool)
    (hframe : ∀ id, ¬ Marks.Below joined id →
      (m'.lookup id).isMapped = (m.lookup id).isMapped)
    (hnew : ∀ p ∈ new, p ∈ ends ∧ p ∉ joined) :
    ((pool.without k).opened ((pool.ofHeight k).filter fun p =>
      (m'.lookup p.id).times == 0)).Spares (Rose.wrap mix a) (kept ++ new) m' := by
  have hnew' : ∀ p ∈ new, p ∈ pool := fun p hp => (mem_ofHeight.1 (hends p (hnew p hp).1)).1
  have hapart : pool.Apart (Rose.wrap mix a) kept := ⟨hkept.inside, hkept.apart, hkept.outside⟩
  obtain ⟨hinside, hdisjoint, houtside⟩ :=
    hapart.compared hpool hcounts hends fun p hp => (hnew p hp).1
  refine ⟨hinside, hdisjoint, houtside, ?_⟩
  · intro p hp q hq
    rcases List.mem_append.1 hp with hp | hp
    · rw [hframe q.id, hkept.free p hp q hq]
      rintro ⟨r, hr, q', hq', hid⟩
      have hr' := hjoined r hr
      obtain rfl : q' = q := eq_of_id_eq (mem_nodes_of_mem_preOrder (hpool.inside r hr') hq')
        (mem_nodes_of_mem_preOrder (hkept.inside p hp) hq) hid
      exact hkept.outside p hp q' (mem_flatMap_preOrder hr' hq') hq
    · rw [hframe q.id (hpool.not_below hjoined (hnew' p hp) (hnew p hp).2 hq)]
      exact (hpool.idle q (mem_flatMap_preOrder (hnew' p hp) hq)).1

end Pool.Spares

/-- What holds whenever the pools are looked at: they are fresh, and what was put off is still free,
of one shape and higher than the least height. -/
structure State.Sound (S D : Wrapped) (minHeight : Nat) (σ : State) : Prop where
  fresh : σ.Fresh S D
  alike : σ.DefersAlike
  high : ∀ pair ∈ σ.deferred, minHeight < pair.1.height
  src : σ.src.Spares S (σ.deferred.map Prod.fst) σ.store.src
  dst : σ.dst.Spares D (σ.deferred.map Prod.snd) σ.store.dst

theorem State.Sound.on (hσ : σ.Sound (Rose.wrap mix a) (Rose.wrap mix b) minHeight) (side : Side) :
    (side.pool σ).Spares (Rose.wrap mix (side.of (a, b))) (σ.deferred.map side.of)
      (side.marks σ.store) := by
  cases side
  · exact hσ.src
  · exact hσ.dst

theorem State.Sound.pairUp (hσ : σ.Sound (Rose.wrap mix a) (Rose.wrap mix b) minHeight)
    (hmin : minHeight < h) :
    (pairUp σ h).Sound (Rose.wrap mix a) (Rose.wrap mix b) minHeight := by
  have hput : ∀ pair ∈ (candidates σ h).filter (fun p => !isUnique (counted σ h) p),
      pair ∈ candidates σ h ∧ isUnique (counted σ h) pair = false := by
    intro pair hpair
    obtain ⟨hmem, hdefer⟩ := List.mem_filter.1 hpair
    exact ⟨hmem, by simpa using hdefer⟩
  have hspares : ∀ side : Side, (((side.pool σ).without h).opened
      (((side.pool σ).ofHeight h).filter fun p =>
        ((side.marks (linked σ h)).lookup p.id).times == 0)).Spares
      (Rose.wrap mix (side.of (a, b))) ((TopDown.pairUp σ h).deferred.map side.of)
      (side.marks (linked σ h)) := by
    intro side
    rw [TopDown.pairUp, List.map_append]
    refine (hσ.on side).compared ((unique σ h).map side.of) (hσ.fresh.on side)
      (counts_linked side σ h) (fun _ he => mem_ofHeight_of_mem_map side he) ?_ ?_ ?_
    · intro p hp
      obtain ⟨pair, hpair, rfl⟩ := List.mem_map.1 hp
      exact of_mem_pool side (List.mem_filter.1 hpair).1
    · intro id hid
      exact ((grows_foldl side (unique σ h) (counted σ h)).frame id hid).trans
        (isMapped_counted side σ h id)
    · intro p hp
      obtain ⟨pair, hpair, rfl⟩ := List.mem_map.1 hp
      obtain ⟨hmem, hdefer⟩ := hput pair hpair
      exact ⟨List.mem_map_of_mem hmem, notMem_unique hσ.fresh hmem hdefer⟩
  refine ⟨hσ.fresh.pairUp h, ?_, ?_, hspares .src, hspares .dst⟩
  · intro pair hpair
    rcases List.mem_append.1 hpair with hold | hnew
    · exact hσ.alike pair hold
    · exact alike_of_mem_equalPairs (hput pair hnew).1
  · intro pair hpair
    rcases List.mem_append.1 hpair with hold | hnew
    · exact hσ.high pair hold
    · have hheight := (mem_ofHeight.1 (mem_candidates (hput pair hnew).1).1).2
      omega

theorem State.Sound.step (hσ : σ.Sound (Rose.wrap mix a) (Rose.wrap mix b) minHeight)
    (hstep : step? minHeight σ = some σ') :
    σ'.Sound (Rose.wrap mix a) (Rose.wrap mix b) minHeight ∧
      Joined minHeight σ.store σ'.store := by
  rcases step?_eq_some hstep with ⟨-, -, rfl⟩ | ⟨-, -, rfl⟩ | ⟨-, hmin, rfl⟩
  · exact ⟨⟨⟨hσ.fresh.src.opened (List.Sublist.refl _), hσ.fresh.dst⟩, hσ.alike, hσ.high,
      hσ.src.opened (List.Sublist.refl _), hσ.dst⟩, Joined.of_pairs_eq rfl⟩
  · exact ⟨⟨⟨hσ.fresh.src, hσ.fresh.dst.opened (List.Sublist.refl _)⟩, hσ.alike, hσ.high,
      hσ.src, hσ.dst.opened (List.Sublist.refl _)⟩, Joined.of_pairs_eq rfl⟩
  · exact ⟨hσ.pairUp hmin, joined_pairUp hσ.fresh hmin⟩

theorem State.Sound.exhaust (hσ : σ.Sound (Rose.wrap mix a) (Rose.wrap mix b) minHeight) :
    (exhaust minHeight σ).Sound (Rose.wrap mix a) (Rose.wrap mix b) minHeight ∧
      Joined minHeight σ.store (exhaust minHeight σ).store := by
  induction σ using exhaust.induct minHeight with
  | case1 σ hstep =>
    rw [TopDown.exhaust, hstep]
    exact ⟨hσ, Joined.of_pairs_eq rfl⟩
  | case2 σ σ' hstep ih =>
    obtain ⟨hσ', hjoined⟩ := hσ.step hstep
    rw [TopDown.exhaust, hstep]
    exact ⟨(ih hσ').1, hjoined.trans (ih hσ').2⟩

end TopDown

end Relocate.Matching
