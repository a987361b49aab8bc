import Relocate.Proofs.Matching.Comparison
import Relocate.Proofs.Tree.Shape

/-!
# Subtrees that occur once

A subtree above the least height that occurs once in either tree is matched as a whole. While the
top-down phase runs, it stays below some place of each pool, until the two places above it are
compared and turn out equal: then nothing else equals them, and they are linked node by node. What
comes later takes nothing back.
-/

set_option autoImplicit false

namespace Relocate.Matching

/-- Two places of one shape, which no other place of either tree has. -/
structure Twins (S D : Wrapped) (s d : Place) : Prop where
  src : s ∈ nodes S
  dst : d ∈ nodes D
  shape : s.node.shape = d.node.shape
  onlySrc : ∀ p ∈ nodes S, p.node.shape = s.node.shape → p = s
  onlyDst : ∀ p ∈ nodes D, p.node.shape = d.node.shape → p = d

/-- Each node below `s` is paired with the node at the same address below `d`. -/
def Store.Carries (st : Store) (s d : Place) : Prop :=
  ∀ x p q, s.descend? x = some p → d.descend? x = some q → (p, q) ∈ st.pairs.toList

theorem Store.Carries.mono {S D : Wrapped} {st st' : Store} {s d : Place} (h : st.Carries s d)
    (hreach : Reaches S D st st') : st'.Carries s d := by
  intro x p q hp hq
  exact hreach.prefix_pairs.subset (h x p q hp hq)

namespace Twins

variable {S D : Wrapped} {s d A B : Place}

theorem symm (h : Twins S D s d) : Twins D S d s :=
  ⟨h.dst, h.src, h.shape.symm, h.onlyDst, h.onlySrc⟩

theorem height_eq (h : Twins S D s d) : s.height = d.height := Place.height_eq_of_shape_eq h.shape

theorem descend? (h : Twins S D s d) (hB : B ∈ nodes D) (hshape : A.node.shape = B.node.shape)
    {x : Address} (hx : A.descend? x = some s) : B.descend? x = some d := by
  obtain ⟨e, he, hse⟩ := Place.exists_descend?_of_shape_eq hshape hx
  have hinside := mem_nodes_of_mem_preOrder hB (Place.mem_preOrder_of_descend? he)
  rw [he, h.onlyDst e hinside (hse.symm.trans h.shape)]

theorem mem_preOrder (h : Twins S D s d) (hB : B ∈ nodes D)
    (hshape : A.node.shape = B.node.shape) (hs : s ∈ A.preOrder) : d ∈ B.preOrder := by
  obtain ⟨x, hx⟩ := Place.exists_descend? hs
  exact Place.mem_preOrder_of_descend? (h.descend? hB hshape hx)

theorem mem_preOrder_iff (h : Twins S D s d) (hA : A ∈ nodes S) (hB : B ∈ nodes D)
    (hshape : A.node.shape = B.node.shape) : s ∈ A.preOrder ↔ d ∈ B.preOrder :=
  ⟨h.mem_preOrder hB hshape, h.symm.mem_preOrder hA hshape.symm⟩

end Twins

namespace TopDown

open Store

theorem height_le_top {pool : Pool} {p : Place} (h : p ∈ pool) : p.height ≤ pool.top := by
  induction pool with
  | nil => cases h
  | cons q pool ih =>
    rw [Pool.top]
    rcases List.mem_cons.1 h with rfl | h
    · exact Nat.le_max_left _ _
    · exact Nat.le_trans (ih h) (Nat.le_max_right _ _)

/-- A node below a place of a pool is below one afterwards, unless it is that place and the place is
opened or taken out. -/
theorem exists_kept {pool : Pool} {k : Nat} {ps : List Place} {p q : Place} (hp : p ∈ pool)
    (hq : q ∈ p.preOrder) (hopen : p.height = k → p ∈ ps ∧ q ≠ p) :
    ∃ r ∈ (pool.without k).opened ps, q ∈ r.preOrder := by
  by_cases hk : p.height = k
  · obtain ⟨hps, hne⟩ := hopen hk
    rcases Place.mem_preOrder.1 hq with heq | ⟨c, hc, hqc⟩
    · exact absurd heq hne
    · exact ⟨c, mem_opened.2 (Or.inr ⟨p, hps, hc⟩), hqc⟩
  · exact ⟨p, mem_opened.2 (Or.inl (mem_without.2 ⟨hp, hk⟩)), hq⟩

/-- Where the top-down phase stands with a pair of subtrees: still below places of both pools. -/
structure State.Pending (s d : Place) (σ : State) : Prop where
  src : ∃ p ∈ σ.src, s ∈ p.preOrder
  dst : ∃ p ∈ σ.dst, d ∈ p.preOrder

/-- The pools are fresh, and the two subtrees are still pending or linked already. -/
structure State.Tracks (S D : Wrapped) (s d : Place) (σ : State) : Prop where
  inside : σ.Inside S D
  fresh : σ.Fresh S D
  target : σ.Pending s d ∨ σ.store.Carries s d

section Step

variable {mix : Mix} {a b : Ast} {S D : Wrapped} {σ σ' : State} {h minHeight : Nat}
  {s d A B : Place}

/-- Opening the tallest places of the taller pool leaves a subtree below it that has an equal in the
other pool. -/
theorem exists_opened {pool other : Pool} (hheight : s.height = d.height)
    (hs : ∃ p ∈ pool, s ∈ p.preOrder) (hd : ∃ q ∈ other, d ∈ q.preOrder)
    (hlt : other.top < pool.top) :
    ∃ r ∈ (pool.without pool.top).opened (pool.ofHeight pool.top), s ∈ r.preOrder := by
  obtain ⟨p, hp, hs⟩ := hs
  obtain ⟨q, hq, hd⟩ := hd
  refine exists_kept hp hs ?_
  intro hk
  refine ⟨mem_ofHeight.2 ⟨hp, hk⟩, ?_⟩
  rintro rfl
  have hle := height_le_top hq
  rcases Place.height_le_of_mem_preOrder hd with rfl | hbelow <;> omega

theorem State.Pending.openSrc (hσ : σ.Pending s d) (hheight : s.height = d.height)
    (hlt : σ.dst.top < σ.src.top) :
    State.Pending s d { σ with
      src := (σ.src.without σ.src.top).opened (σ.src.ofHeight σ.src.top) } :=
  ⟨exists_opened hheight hσ.src hσ.dst hlt, hσ.dst⟩

theorem State.Pending.openDst (hσ : σ.Pending s d) (hheight : s.height = d.height)
    (hlt : σ.src.top < σ.dst.top) :
    State.Pending s d { σ with
      dst := (σ.dst.without σ.dst.top).opened (σ.dst.ofHeight σ.dst.top) } :=
  ⟨hσ.src, exists_opened hheight.symm hσ.dst hσ.src hlt⟩

section Compared

variable (htwins : Twins (Rose.wrap mix a) (Rose.wrap mix b) s d)
  (hσ : σ.Fresh (Rose.wrap mix a) (Rose.wrap mix b)) (hA : A ∈ σ.src) (hs : s ∈ A.preOrder)
  (hB : B ∈ σ.dst) (hd : d ∈ B.preOrder)

include htwins hσ hA hs hB hd

/-- The place above the one twin is compared with no other than the place above the other. -/
theorem candidate_eq {side : Side} {e : Place × Place} (he : e ∈ candidates σ h)
    (heq : side.of e = side.of (A, B)) : e = (A, B) := by
  obtain ⟨-, -, hiso⟩ := mem_candidates he
  have hp := hσ.src.inside e.1 (of_mem_pool .src he)
  have hq := hσ.dst.inside e.2 (of_mem_pool .dst he)
  have hboth := htwins.mem_preOrder_iff hp hq ((isomorphic_iff_shape_eq hp hq).1 hiso)
  have hbelow : s ∈ e.1.preOrder ∧ d ∈ e.2.preOrder := by
    cases side
    · have hs' : s ∈ e.1.preOrder := by rwa [show e.1 = A from heq]
      exact ⟨hs', hboth.1 hs'⟩
    · have hd' : d ∈ e.2.preOrder := by rwa [show e.2 = B from heq]
      exact ⟨hboth.2 hd', hd'⟩
  exact Prod.ext
    (eq_of_mem_preOrder hσ.src.nodup (of_mem_pool .src he) hA hbelow.1 hs)
    (eq_of_mem_preOrder hσ.dst.nodup (of_mem_pool .dst he) hB hbelow.2 hd)

/-- When the places above the twins are a candidate, all below them is linked. -/
theorem carries_linked (hpair : (A, B) ∈ candidates σ h) : (linked σ h).Carries s d := by
  obtain ⟨-, -, hiso⟩ := mem_candidates hpair
  have hB' := hσ.dst.inside B hB
  have hshape := (isomorphic_iff_shape_eq (hσ.src.inside A hA) hB').1 hiso
  obtain ⟨x, hx⟩ := Place.exists_descend? hs
  have hx' := htwins.descend? hB' hshape hx
  intro y p q hp hq
  have hp' : A.descend? (x ++ y) = some p := by rw [Place.descend?_append, hx, ← hp]; rfl
  have hq' : B.descend? (x ++ y) = some q := by rw [Place.descend?_append, hx', ← hq]; rfl
  exact mem_pairs_linked hσ hpair (fun _ _ he heq => candidate_eq htwins hσ hA hs hB hd he heq)
    (Place.size_eq_of_shape_eq hshape) (Place.mem_zip_preOrder hshape hp' hq')

theorem notMem_candidates (hpair : (A, B) ∉ candidates σ h) (side : Side) :
    side.of (A, B) ∉ (candidates σ h).map side.of := by
  intro hmem
  obtain ⟨e, he, heq⟩ := List.mem_map.1 hmem
  exact hpair (by rwa [candidate_eq htwins hσ hA hs hB hd he heq] at he)

end Compared

section Pending

variable (hheight : s.height = d.height) (hA : A ∈ σ.src) (hs : s ∈ A.preOrder) (hB : B ∈ σ.dst)
  (hd : d ∈ B.preOrder) (hsrc : σ.src.top = h) (hdst : σ.dst.top = h)

include hheight hA hs hB hd hsrc hdst

theorem mem_candidates_of_eq (side : Side) (hiso : s.node.isomorphic d.node = true)
    (hk : (side.of (A, B)).height = h) (heq : side.of (s, d) = side.of (A, B)) :
    (s, d) ∈ candidates σ h := by
  have hleA := height_le_top hA
  have hleB := height_le_top hB
  have hboth : s = A ∧ A.height = h ∧ d = B ∧ B.height = h := by
    cases side
    · obtain rfl : s = A := heq
      replace hk : s.height = h := hk
      rcases Place.height_le_of_mem_preOrder hd with rfl | hbelow
      · exact ⟨rfl, hk, rfl, by omega⟩
      · omega
    · obtain rfl : d = B := heq
      replace hk : d.height = h := hk
      rcases Place.height_le_of_mem_preOrder hs with rfl | hbelow
      · exact ⟨rfl, by omega, rfl, hk⟩
      · omega
  obtain ⟨rfl, hhA, rfl, hhB⟩ := hboth
  exact mem_equalPairs.2 ⟨mem_ofHeight.2 ⟨hA, hhA⟩, mem_ofHeight.2 ⟨hB, hhB⟩, hiso⟩

/-- If neither of the places above is in a candidate, what is opened still lies above the two. -/
theorem pending_pairUp (hσ : σ.Fresh (Rose.wrap mix a) (Rose.wrap mix b))
    (hiso : s.node.isomorphic d.node = true)
    (hout : ∀ side : Side, side.of (A, B) ∉ (candidates σ h).map side.of) :
    (pairUp σ h).Pending s d := by
  have hkept : ∀ side : Side, ∃ r ∈ ((side.pool σ).without h).opened
      (((side.pool σ).ofHeight h).filter fun p =>
        ((side.marks (linked σ h)).lookup p.id).times == 0), side.of (s, d) ∈ r.preOrder := by
    intro side
    have hmem : side.of (A, B) ∈ side.pool σ := by
      cases side
      · exact hA
      · exact hB
    have hbelow : side.of (s, d) ∈ (side.of (A, B)).preOrder := by
      cases side
      · exact hs
      · exact hd
    refine exists_kept hmem hbelow ?_
    intro hk
    refine ⟨List.mem_filter.2 ⟨mem_ofHeight.2 ⟨hmem, hk⟩, beq_iff_eq.2 ?_⟩, ?_⟩
    · exact ((hσ.on side).times_eq_zero_iff (counts_linked side σ h)
        (fun _ he => mem_ofHeight_of_mem_map side he) hmem).2 (hout side)
    · intro heq
      have hmet := mem_candidates_of_eq hheight hA hs hB hd hsrc hdst side hiso hk heq
      exact hout side (List.mem_map.2 ⟨(s, d), hmet, heq⟩)
  exact ⟨hkept .src, hkept .dst⟩

end Pending

theorem State.Tracks.step (htwins : Twins (Rose.wrap mix a) (Rose.wrap mix b) s d)
    (hσ : σ.Tracks (Rose.wrap mix a) (Rose.wrap mix b) s d)
    (hstep : step? minHeight σ = some σ') :
    σ'.Tracks (Rose.wrap mix a) (Rose.wrap mix b) s d := by
  obtain ⟨hinside, hreach⟩ := hσ.inside.step? hstep
  rcases step?_eq_some hstep with ⟨hlt, -, rfl⟩ | ⟨hlt, -, rfl⟩ | ⟨heq, -, rfl⟩
  · refine ⟨hinside, ⟨hσ.fresh.src.opened (List.Sublist.refl _), hσ.fresh.dst⟩, ?_⟩
    exact hσ.target.imp_left fun hpending => hpending.openSrc htwins.height_eq hlt
  · refine ⟨hinside, ⟨hσ.fresh.src, hσ.fresh.dst.opened (List.Sublist.refl _)⟩, ?_⟩
    exact hσ.target.imp_left fun hpending => hpending.openDst htwins.height_eq hlt
  · refine ⟨hinside, hσ.fresh.pairUp σ.src.top, ?_⟩
    rcases hσ.target with hpending | hcarries
    · obtain ⟨A, hA, hs⟩ := hpending.src
      obtain ⟨B, hB, hd⟩ := hpending.dst
      by_cases hpair : (A, B) ∈ candidates σ σ.src.top
      · exact Or.inr (carries_linked htwins hσ.fresh hA hs hB hd hpair)
      · have hiso := (isomorphic_iff_shape_eq htwins.src htwins.dst).2 htwins.shape
        have hout := notMem_candidates htwins hσ.fresh hA hs hB hd hpair
        exact Or.inl (pending_pairUp htwins.height_eq hA hs hB hd rfl heq.symm hσ.fresh hiso
          hout)
    · exact Or.inr (hcarries.mono hreach.reaches)

theorem State.Tracks.carries_exhaust (htwins : Twins (Rose.wrap mix a) (Rose.wrap mix b) s d)
    (hσ : σ.Tracks (Rose.wrap mix a) (Rose.wrap mix b) s d) (hheight : minHeight < s.height) :
    (exhaust minHeight σ).store.Carries s d := by
  induction σ using exhaust.induct minHeight with
  | case1 σ hstep =>
    rw [exhaust, hstep]
    rcases hσ.target with hpending | hcarries
    · obtain ⟨p, hp, hs⟩ := hpending.src
      have hle := height_le_top hp
      have hmin := (step?_eq_none hstep).1
      rcases Place.height_le_of_mem_preOrder hs with rfl | hbelow <;> omega
    · exact hcarries
  | case2 σ σ' hstep ih =>
    rw [exhaust, hstep]
    exact ih (hσ.step htwins hstep)

theorem fresh_root (mix : Mix) (t : Ast) :
    Pool.Fresh (Rose.wrap mix t) [Place.root (Rose.wrap mix t)]
      (Marks.blank (Rose.wrap mix t)) where
  size := Array.size_replicate
  inside := by
    intro p hp
    rw [List.mem_singleton.1 hp]
    exact root_mem_nodes _
  nodup := by
    rw [List.flatMap_singleton]
    exact nodup_preOrder (root_mem_nodes _)
  idle := by
    intro q _
    rw [Marks.Idle, Marks.lookup, Marks.blank, Array.getElem?_replicate]
    split <;> exact ⟨rfl, rfl⟩

theorem tracks_start (htwins : Twins (Rose.wrap mix a) (Rose.wrap mix b) s d) :
    (start (Store.empty (Rose.wrap mix a) (Rose.wrap mix b)) (Place.root (Rose.wrap mix a))
      (Place.root (Rose.wrap mix b))).Tracks (Rose.wrap mix a) (Rose.wrap mix b) s d where
  inside := inside_start _ (root_mem_nodes _) (root_mem_nodes _)
  fresh := ⟨fresh_root mix a, fresh_root mix b⟩
  target := Or.inl ⟨⟨_, List.mem_singleton_self _, htwins.src⟩,
    ⟨_, List.mem_singleton_self _, htwins.dst⟩⟩

end Step

end TopDown

section Matched

open Store

variable {mix : Mix} {a b : Ast} {s d : Place}

theorem advances_matchWrapped (config : Config) (S D : Wrapped) :
    Advances S D (Store.empty S D) (matchWrapped config S D) :=
  (TopDown.advances_run config.minHeight _ (root_mem_nodes S) (root_mem_nodes D)).trans
    (BottomUp.advances_run config _ (root_mem_nodes S) (root_mem_nodes D))

theorem reaches_matchWrapped (config : Config) (S D : Wrapped) :
    Reaches S D (Store.empty S D) (matchWrapped config S D) :=
  (advances_matchWrapped config S D).reaches

theorem agrees_matchWrapped (mix : Mix) (config : Config) (a b : Ast) :
    (matchWrapped config (Rose.wrap mix a) (Rose.wrap mix b)).Agrees (Rose.wrap mix a)
      (Rose.wrap mix b) :=
  (agrees_empty _ _).reaches (reaches_matchWrapped config _ _)

theorem carries_matchWrapped (config : Config)
    (htwins : Twins (Rose.wrap mix a) (Rose.wrap mix b) s d)
    (hheight : config.minHeight < s.height) :
    (matchWrapped config (Rose.wrap mix a) (Rose.wrap mix b)).Carries s d := by
  have htracks := TopDown.tracks_start htwins
  have hcarries := htracks.carries_exhaust htwins hheight
  have hinside := (htracks.inside.exhaust config.minHeight).1
  apply hcarries.mono
  exact hinside.advances_run.reaches.trans
    (BottomUp.advances_run config _ (root_mem_nodes _) (root_mem_nodes _)).reaches

/-- A subtree above the least height that occurs once in each tree is mapped, and every node below
it to the node at the same address below its partner. -/
theorem matchWith_unique (mix : Mix) (config : Config) (a b : Ast) (s d : Place)
    (htwins : Twins (Rose.wrap mix a) (Rose.wrap mix b) s d)
    (hheight : config.minHeight < s.height) (x : Address) (p : Place)
    (hp : s.descend? x = some p) :
    ∃ q, d.descend? x = some q ∧ (matchWith mix config a b).store.destinationOf? p = some q := by
  obtain ⟨q, hq, -⟩ := Place.exists_descend?_of_shape_eq htwins.shape hp
  refine ⟨q, hq, ?_⟩
  have hagrees := (agrees_empty (Rose.wrap mix a) (Rose.wrap mix b)).reaches
    (reaches_matchWrapped config _ _)
  have hinside := mem_nodes_of_mem_preOrder htwins.src (Place.mem_preOrder_of_descend? hp)
  exact (hagrees.destinationOf?_eq_some_iff hinside).2
    (carries_matchWrapped config htwins hheight x p q hp hq)

end Matched

namespace Moved

def call : Ast := .node ⟨⟨"call", none⟩, none, 1⟩ [.leaf "identifier" (some "a") 1]

def before : Ast := .node ⟨⟨"block", none⟩, none, 1⟩ [call, .leaf "literal" (some "1") 1]

def after : Ast := .node ⟨⟨"body", none⟩, none, 1⟩ [.leaf "literal" (some "2") 1, call]

def callBefore : Place := ⟨Rose.wrapFrom Mix.standard 1 call, [Rose.wrap Mix.standard before]⟩

def callAfter : Place := ⟨Rose.wrapFrom Mix.standard 2 call, [Rose.wrap Mix.standard after]⟩

theorem twins :
    Twins (Rose.wrap Mix.standard before) (Rose.wrap Mix.standard after) callBefore callAfter where
  src := mem_nodes_of_mem_children (root_mem_nodes _) List.mem_cons_self
  dst := mem_nodes_of_mem_children (root_mem_nodes _)
    (List.mem_cons_of_mem _ List.mem_cons_self)
  shape := by rw [callBefore, callAfter, Rose.shape_wrapFrom, Rose.shape_wrapFrom]
  onlySrc := by
    simp [nodes, Place.preOrder_eq, Place.children, Place.root, callBefore, before, call, Rose.leaf,
      Rose.wrap, Rose.wrapFrom, Rose.wrapAllFrom, Rose.size, Rose.totalSize, Rose.shape, Rose.map,
      Rose.mapAll]
  onlyDst := by
    simp [nodes, Place.preOrder_eq, Place.children, Place.root, callAfter, after, call, Rose.leaf,
      Rose.wrap, Rose.wrapFrom, Rose.wrapAllFrom, Rose.size, Rose.totalSize, Rose.shape, Rose.map,
      Rose.mapAll]

end Moved

/-- The call of the two sample trees is above a least height of 1, and its name keeps its place. -/
theorem matchWith_unique_moved :
    Twins (Rose.wrap Mix.standard Moved.before) (Rose.wrap Mix.standard Moved.after)
        Moved.callBefore Moved.callAfter ∧
      (1 : Nat) < Moved.callBefore.height ∧
      ∃ p q, Moved.callBefore.descend? [0] = some p ∧ Moved.callAfter.descend? [0] = some q ∧
        (matchWith Mix.standard { minHeight := 1 } Moved.before
          Moved.after).store.destinationOf? p = some q := by
  have hheight : (1 : Nat) < Moved.callBefore.height := by decide
  obtain ⟨q, hq, hdest⟩ := matchWith_unique Mix.standard { minHeight := 1 } Moved.before
    Moved.after Moved.callBefore Moved.callAfter Moved.twins hheight [0] _ rfl
  exact ⟨Moved.twins, hheight, _, q, rfl, hq, hdest⟩

end Relocate.Matching
