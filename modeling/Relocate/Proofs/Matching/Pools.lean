import Mathlib.Data.List.Flatten
import Relocate.Proofs.Matching.Phases
import Relocate.Proofs.Matching.Side

/-!
# Pools and what a comparison leaves alone

The subtrees in a pool do not overlap, and nothing in them was touched: their nodes are free and
have been in no candidate. A comparison counts its candidates, links the unique ones and opens the
places that are in none, so that what stays in the pools is still untouched.
-/

set_option autoImplicit false

namespace Relocate.Matching

namespace Marks

variable {id : Nat}

def Idle (m : Marks) (id : Nat) : Prop :=
  (m.lookup id).isMapped = false ∧ (m.lookup id).times = 0

theorem times_foldl_bumped (ids : List Nat) (m : Marks) (h : id < Array.size m) :
    ((ids.foldl (fun m i => m.adjust i Mark.bumped) m).lookup id).times =
      (m.lookup id).times + ids.count id := by
  induction ids generalizing m with
  | nil => rfl
  | cons i ids ih =>
    rw [List.foldl_cons, ih _ (by rwa [size_adjust]), lookup_adjust m i id _ h, List.count_cons]
    by_cases hid : i = id
    · have hcount : ((m.lookup id).bumped).times = (m.lookup id).times + 1 := rfl
      rw [if_pos hid, if_pos (beq_iff_eq.2 hid), hcount]
      omega
    · rw [if_neg hid, if_neg (by rwa [beq_iff_eq])]
      rfl

theorem size_foldl_bumped (ids : List Nat) (m : Marks) :
    Array.size (ids.foldl (fun (m : Marks) i => m.adjust i Mark.bumped) m) = Array.size m := by
  induction ids generalizing m with
  | nil => rfl
  | cons i ids ih => rw [List.foldl_cons, ih, size_adjust]

theorem isMapped_foldl_bumped (ids : List Nat) (m : Marks) (id : Nat) :
    ((ids.foldl (fun m i => m.adjust i Mark.bumped) m).lookup id).isMapped =
      (m.lookup id).isMapped := by
  induction ids generalizing m with
  | nil => rfl
  | cons i ids ih =>
    rw [List.foldl_cons, ih]
    exact lookup_adjust_frame (f := Mark.bumped) (g := Mark.isMapped) (fun _ => rfl) m i id

theorem isMapped_paired {i : Nat} (h : i ≠ id) (m : Marks) (p : Place) (ns : List Wrapped) :
    (((m.adjust i (·.withPartner p)).flagUpward ns).lookup id).isMapped =
      (m.lookup id).isMapped := by
  rw [lookup_flagUpward_frame (g := Mark.isMapped) (fun _ => rfl), lookup_adjust_of_ne m _ h]

def Below (ps : List Place) (id : Nat) : Prop := ∃ p ∈ ps, ∃ q ∈ p.preOrder, q.id = id

/-- No count changed, and only nodes of the given subtrees were mapped. -/
structure Grows (ps : List Place) (m m' : Marks) : Prop where
  size : Array.size m' = Array.size m
  times : ∀ id, (m'.lookup id).times = (m.lookup id).times
  frame : ∀ id, ¬ Below ps id → (m'.lookup id).isMapped = (m.lookup id).isMapped

namespace Grows

variable {ps : List Place} {m m' m'' : Marks}

theorem refl (ps : List Place) (m : Marks) : Grows ps m m := ⟨rfl, fun _ => rfl, fun _ _ => rfl⟩

theorem trans (h : Grows ps m m') (g : Grows ps m' m'') : Grows ps m m'' where
  size := g.size.trans h.size
  times := fun id => (g.times id).trans (h.times id)
  frame := fun id hid => (g.frame id hid).trans (h.frame id hid)

theorem paired {i : Nat} (h : Below ps i) (m : Marks) (p : Place) (ns : List Wrapped) :
    Grows ps m ((m.adjust i (·.withPartner p)).flagUpward ns) where
  size := by rw [size_flagUpward, size_adjust]
  times := by
    intro id
    rw [lookup_flagUpward_frame (g := Mark.times) (fun _ => rfl)]
    exact lookup_adjust_frame (f := (·.withPartner p)) (g := Mark.times) (fun _ => rfl) m i id
  frame := by
    intro id hid
    have hne : i ≠ id := fun heq => hid (heq ▸ h)
    exact isMapped_paired hne m p ns

end Grows

end Marks

namespace Store

open Marks

variable {l : List (Place × Place)} {st : Store} {s d : Place} {ps : List Place}

theorem grows_link {side : Side} {pair : Place × Place} (h : Below ps (side.of pair).id)
    (st : Store) : Grows ps (side.marks st) (side.marks (st.link pair.1 pair.2)) := by
  rw [link]
  split
  · cases side
    · exact Grows.paired h st.src pair.2 pair.1.above
    · exact Grows.paired h st.dst pair.1 pair.2.above
  · exact Grows.refl ps (side.marks st)

theorem grows_linkSubtrees {side : Side} {pair : Place × Place} (h : side.of pair ∈ ps)
    (st : Store) : Grows ps (side.marks st) (side.marks (st.linkSubtrees pair.1 pair.2)) := by
  apply foldl_rel (R := fun st st' => Grows ps (side.marks st) (side.marks st'))
    (fun st => Grows.refl ps (side.marks st)) Grows.trans
  intro u hu st
  exact grows_link ⟨side.of pair, h, side.of u, Side.of_mem_preOrder hu, rfl⟩ st

theorem isMapped_commit {side : Side} {pair : Place × Place} {q : Place}
    (h : (side.of pair).id ≠ q.id) (st : Store) :
    side.isMapped (st.commit pair.1 pair.2) q = side.isMapped st q := by
  cases side
  · exact Marks.isMapped_paired h st.src pair.2 pair.1.above
  · exact Marks.isMapped_paired h st.dst pair.1 pair.2.above

/-- No link is refused: each pair is admitted when its turn comes. -/
def Accepts (st : Store) : List (Place × Place) → Prop
  | [] => True
  | pair :: pairs =>
    st.admits pair.1 pair.2 = true ∧ (st.link pair.1 pair.2).Accepts pairs

/-- Pairs of free nodes, none of which occurs twice, are all accepted. -/
theorem accepts_of_distinct (hl : ∀ side : Side, (l.map fun pair => (side.of pair).id).Nodup)
    (h : ∀ pair ∈ l, st.admits pair.1 pair.2 = true) : st.Accepts l := by
  induction l generalizing st with
  | nil => trivial
  | cons pair l ih =>
    have hadmits := h pair List.mem_cons_self
    refine ⟨hadmits, ?_⟩
    rw [link, if_pos hadmits]
    apply ih fun side => (List.nodup_cons.1 (hl side)).2
    intro other hother
    rw [admits_iff_free]
    intro side
    have hfree := (admits_iff_free st other).1 (h other (List.mem_cons_of_mem pair hother)) side
    have hne : (side.of pair).id ≠ (side.of other).id := fun heq =>
      (List.nodup_cons.1 (hl side)).1 (List.mem_map.2 ⟨other, hother, heq.symm⟩)
    rw [isMapped_commit hne, hfree]

theorem Accepts.pairs_linkAll (h : st.Accepts l) :
    (st.linkAll l).pairs.toList = st.pairs.toList ++ l := by
  induction l generalizing st with
  | nil => rw [linkAll, List.foldl_nil, List.append_nil]
  | cons pair l ih =>
    have hall := ih h.2
    rw [linkAll] at hall
    rw [linkAll, List.foldl_cons, hall, pairs_link, if_pos h.1, Array.toList_push,
      List.append_assoc, List.singleton_append]

theorem marks_foldl_bump (side : Side) (l : List (Place × Place)) (st : Store) :
    side.marks (l.foldl (fun st p => st.bump p.1 p.2) st) =
      ((l.map side.of).map Place.id).foldl (fun m i => m.adjust i Mark.bumped)
        (side.marks st) := by
  induction l generalizing st with
  | nil => rfl
  | cons pair l ih =>
    have hbump : side.marks (st.bump pair.1 pair.2) =
        (side.marks st).adjust (side.of pair).id Mark.bumped := by
      cases side <;> rfl
    rw [List.foldl_cons, ih, hbump]
    rfl

end Store

namespace Marks

/-- Only nodes of the given subtrees were mapped, and each of their roots was counted as often as it
is listed. -/
structure Counts (ends : List Place) (m m' : Marks) : Prop where
  size : Array.size m' = Array.size m
  times : ∀ id, id < Array.size m →
    (m'.lookup id).times = (m.lookup id).times + (ends.map Place.id).count id
  frame : ∀ id, ¬ Below ends id → (m'.lookup id).isMapped = (m.lookup id).isMapped

namespace Counts

variable {m m' m'' : Marks} {ends : List Place} {id : Nat}

theorem foldl_bumped (m : Marks) (ends : List Place) :
    Counts ends m ((ends.map Place.id).foldl (fun m i => m.adjust i Mark.bumped) m) where
  size := size_foldl_bumped (ends.map Place.id) m
  times := fun _ h => times_foldl_bumped (ends.map Place.id) m h
  frame := fun id _ => isMapped_foldl_bumped (ends.map Place.id) m id

theorem grows (h : Counts ends m m') (g : Grows ends m' m'') : Counts ends m m'' where
  size := g.size.trans h.size
  times := fun id hid => (g.times id).trans (h.times id hid)
  frame := fun id hid => (g.frame id hid).trans (h.frame id hid)

theorem idle (h : Counts ends m m') (hid : id < Array.size m) (hends : ¬ Below ends id)
    (hidle : m.Idle id) : m'.Idle id := by
  refine ⟨(h.frame id hends).trans hidle.1, ?_⟩
  rw [h.times id hid, hidle.2, Nat.zero_add, List.count_eq_zero]
  intro hmem
  obtain ⟨p, hp, hpid⟩ := List.mem_map.1 hmem
  exact hends ⟨p, hp, p, Place.mem_preOrder_self p, hpid⟩

end Counts

end Marks

namespace TopDown

/-- The subtrees of a pool do not overlap, and none of their nodes was touched. -/
structure Pool.Fresh (T : Wrapped) (pool : Pool) (m : Marks) : Prop where
  size : Array.size m = T.size
  inside : ∀ p ∈ pool, p ∈ nodes T
  nodup : (pool.flatMap Place.preOrder).Nodup
  idle : ∀ q ∈ pool.flatMap Place.preOrder, m.Idle q.id

section Fresh

variable {mix : Mix} {t : Ast} {T : Wrapped} {pool : Pool} {m m' : Marks} {k : Nat}
  {ps : List Place} {p p' q : Place}

theorem mem_flatMap_preOrder (hp : p ∈ pool) (hq : q ∈ p.preOrder) :
    q ∈ pool.flatMap Place.preOrder :=
  List.mem_flatMap.2 ⟨p, hp, hq⟩

theorem eq_of_mem_preOrder (h : (pool.flatMap Place.preOrder).Nodup) (hp : p ∈ pool)
    (hp' : p' ∈ pool) (hq : q ∈ p.preOrder) (hq' : q ∈ p'.preOrder) : p = p' := by
  induction pool with
  | nil => cases hp
  | cons r pool ih =>
    rw [List.flatMap_cons, List.nodup_append] at h
    obtain ⟨-, hpool, hdisjoint⟩ := h
    rcases List.mem_cons.1 hp with hpr | hmem
    · rcases List.mem_cons.1 hp' with hpr' | hmem'
      · rw [hpr, hpr']
      · rw [hpr] at hq
        exact absurd rfl (hdisjoint q hq q (mem_flatMap_preOrder hmem' hq'))
    · rcases List.mem_cons.1 hp' with hpr' | hmem'
      · rw [hpr'] at hq'
        exact absurd rfl (hdisjoint q hq' q (mem_flatMap_preOrder hmem hq))
      · exact ih hpool hmem hmem'

theorem nodup_of_nodup_flatMap (h : (pool.flatMap Place.preOrder).Nodup) : pool.Nodup := by
  induction pool with
  | nil => exact List.nodup_nil
  | cons r pool ih =>
    rw [List.flatMap_cons, List.nodup_append] at h
    obtain ⟨-, hpool, hdisjoint⟩ := h
    rw [List.nodup_cons]
    refine ⟨?_, ih hpool⟩
    intro hr
    exact hdisjoint r (Place.mem_preOrder_self r) r
      (mem_flatMap_preOrder hr (Place.mem_preOrder_self r)) rfl

/-- Opening places takes nodes out of the subtrees of a pool and adds none. -/
theorem subperm_opened (hps : ps.Sublist (pool.ofHeight k)) :
    (((pool.without k).opened ps).flatMap Place.preOrder).Subperm
      (pool.flatMap Place.preOrder) := by
  have hbelow : (ps.flatMap fun p => p.children.flatMap Place.preOrder).Sublist
      ((pool.ofHeight k).flatMap Place.preOrder) := by
    apply List.Sublist.trans _ (hps.flatMap Place.preOrder)
    apply List.Sublist.flatMap_right
    intro p _
    rw [Place.preOrder_eq p]
    exact List.sublist_cons_self p _
  have hsplit : (pool.without k ++ pool.ofHeight k).Perm pool :=
    List.perm_append_comm.trans
      (List.filter_append_perm (fun p : Place => p.height == k) pool)
  rw [Pool.opened, List.flatMap_append, List.flatMap_assoc]
  have hsub := hbelow.append_left ((pool.without k).flatMap Place.preOrder)
  rw [← List.flatMap_append] at hsub
  exact hsub.subperm.trans (hsplit.flatMap_right Place.preOrder).subperm

theorem Pool.Fresh.opened (h : pool.Fresh T m) (hps : ps.Sublist (pool.ofHeight k)) :
    ((pool.without k).opened ps).Fresh T m where
  size := h.size
  inside := mem_nodes_of_mem_opened h.inside fun _ hp => hps.subset hp
  nodup := by
    obtain ⟨L, hperm, hsub⟩ := subperm_opened hps
    exact hperm.nodup_iff.1 (hsub.nodup h.nodup)
  idle := fun q hq => h.idle q ((subperm_opened hps).subset hq)

/-- What lies in an opened pool lay below one of its places that was kept or opened. -/
theorem exists_owner (hq : q ∈ ((pool.without k).opened ps).flatMap Place.preOrder) :
    ∃ p, (p ∈ pool.without k ∨ p ∈ ps) ∧ q ∈ p.preOrder := by
  obtain ⟨c, hc, hqc⟩ := List.mem_flatMap.1 hq
  rcases mem_opened.1 hc with hc | ⟨p, hp, hcp⟩
  · exact ⟨c, Or.inl hc, hqc⟩
  · exact ⟨p, Or.inr hp, Place.mem_preOrder_of_mem_children hcp hqc⟩

theorem Pool.Fresh.times_eq_count (h : pool.Fresh (Rose.wrap mix t) m) {ends : List Place}
    (hcounts : Marks.Counts ends m m') (hp : p ∈ pool) :
    (m'.lookup p.id).times = (ends.map Place.id).count p.id := by
  have hlt := id_lt_size (h.inside p hp)
  have hidle := h.idle p (mem_flatMap_preOrder hp (Place.mem_preOrder_self p))
  rw [hcounts.times p.id (by rwa [h.size, Rose.size_wrap]), hidle.2, Nat.zero_add]

theorem Pool.Fresh.times_eq_zero_iff (h : pool.Fresh (Rose.wrap mix t) m) {ends : List Place}
    (hcounts : Marks.Counts ends m m') (hends : ∀ e ∈ ends, e ∈ pool.ofHeight k) (hp : p ∈ pool) :
    (m'.lookup p.id).times = 0 ↔ p ∉ ends := by
  rw [h.times_eq_count hcounts hp, List.count_eq_zero, not_iff_not, List.mem_map]
  constructor
  · rintro ⟨e, he, hid⟩
    have hinside := h.inside e (mem_ofHeight.1 (hends e he)).1
    rwa [← eq_of_id_eq hinside (h.inside p hp) hid]
  · intro hmem
    exact ⟨p, hmem, rfl⟩

/-- The pool is fresh again once the places in no candidate were opened. -/
theorem Pool.Fresh.reopened (h : pool.Fresh (Rose.wrap mix t) m) {ends : List Place}
    (hcounts : Marks.Counts ends m m') (hends : ∀ e ∈ ends, e ∈ pool.ofHeight k) :
    ((pool.without k).opened
      ((pool.ofHeight k).filter fun p => (m'.lookup p.id).times == 0)).Fresh
        (Rose.wrap mix t) m' := by
  have hopened := h.opened (k := k)
    (List.filter_sublist (p := fun p => (m'.lookup p.id).times == 0))
  refine ⟨hcounts.size.trans h.size, hopened.inside, hopened.nodup, ?_⟩
  intro q hq
  obtain ⟨p, hp, hqp⟩ := exists_owner hq
  have hmem : p ∈ pool ∧ p ∉ ends := by
    rcases hp with hp | hp
    · obtain ⟨hpool, hheight⟩ := mem_without.1 hp
      exact ⟨hpool, fun he => hheight (mem_ofHeight.1 (hends p he)).2⟩
    · obtain ⟨hp, htimes⟩ := List.mem_filter.1 hp
      have hpool := (mem_ofHeight.1 hp).1
      exact ⟨hpool, (h.times_eq_zero_iff hcounts hends hpool).1 (beq_iff_eq.1 htimes)⟩
  have hnode := mem_nodes_of_mem_preOrder (h.inside p hmem.1) hqp
  have hlt := id_lt_size hnode
  refine hcounts.idle (by rwa [h.size, Rose.size_wrap]) ?_ (hopened.idle q hq)
  rintro ⟨e, he, r, hr, hid⟩
  have hpool := (mem_ofHeight.1 (hends e he)).1
  have hrq := eq_of_id_eq (mem_nodes_of_mem_preOrder (h.inside e hpool) hr) hnode hid
  rw [hrq] at hr
  exact hmem.2 (by rwa [eq_of_mem_preOrder h.nodup hmem.1 hpool hqp hr])

end Fresh

end TopDown

end Relocate.Matching
