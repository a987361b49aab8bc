import Mathlib.Logic.Relation
import Relocate.Proofs.Matching.Ambiguity
import Relocate.Proofs.Matching.Support

/-!
# Rounds of the top-down phase

A journal of the loop: what entered each pool and by whose opening, what was taken out of it, and
the candidates found. A place leaves its pool before everything lower, so it enters only once; what
is still in a pool or was taken out of it for a candidate lies side by side. Every round takes nodes
out of the pools, so there are no more rounds than nodes.
-/

set_option autoImplicit false

namespace Relocate.Matching.TopDown

/-- What one side has taken out of its pool, in this order: places that were opened, and places of
candidates. -/
structure Ledger where
  opened : List Place := []
  taken : List Place := []

namespace Ledger

/-- Of the places taken out in a round, those that were never counted are opened. -/
def turn (l : Ledger) (out : List Place) (m : Marks) : Ledger where
  opened := l.opened ++ out.filter fun p => (m.lookup p.id).times == 0
  taken := l.taken ++ out.filter fun p => !((m.lookup p.id).times == 0)

/-- The children that were pushed, each with the place whose opening pushed it. -/
def pushes (l : Ledger) : List (Place × Place) :=
  l.opened.flatMap fun p => p.children.map fun c => (p, c)

def entered (root : Place) (l : Ledger) : List Place := root :: l.pushes.map Prod.snd

end Ledger

def State.top (σ : State) : Nat := max σ.src.top σ.dst.top

/-- A state of the loop with the rounds that led to it. -/
structure Journal where
  state : State
  rounds : Nat := 0
  found : List (Place × Place) := []
  src : Ledger := {}
  dst : Ledger := {}

def Journal.next? (minHeight : Nat) (j : Journal) : Option Journal :=
  (step? minHeight j.state).map fun σ =>
    { state := σ
      rounds := j.rounds + 1
      found := j.found ++ candidates j.state j.state.top
      src := j.src.turn (j.state.src.ofHeight j.state.top) σ.store.src
      dst := j.dst.turn (j.state.dst.ofHeight j.state.top) σ.store.dst }

def Journal.Reaches (minHeight : Nat) : Journal → Journal → Prop :=
  Relation.ReflTransGen fun j j' => j.next? minHeight = some j'

section Pools

variable {pool : Pool} {k : Nat}

theorem ofHeight_of_top_lt (h : pool.top < k) : pool.ofHeight k = [] := by
  rw [Pool.ofHeight, List.filter_eq_nil_iff]
  intro p hp
  have := height_le_top hp
  rw [beq_iff_eq]
  omega

theorem without_of_top_lt (h : pool.top < k) : pool.without k = pool := by
  rw [Pool.without, List.filter_eq_self]
  intro p hp
  have := height_le_top hp
  rw [bne_iff_ne]
  omega

theorem ofHeight_perm (pool : Pool) (k : Nat) : (pool.ofHeight k ++ pool.without k).Perm pool :=
  List.filter_append_perm (fun p : Place => p.height == k) pool

theorem filter_uncounted {m : Marks} (h : ∀ p ∈ pool, (m.lookup p.id).times = 0) :
    ((pool.ofHeight k).filter fun p => (m.lookup p.id).times == 0) = pool.ofHeight k := by
  rw [List.filter_eq_self]
  intro p hp
  rw [beq_iff_eq]
  exact h p (mem_ofHeight.1 hp).1

theorem pool_of_top_lt (h : pool.top < k) : (pool.without k).opened (pool.ofHeight k) = pool := by
  rw [ofHeight_of_top_lt h, without_of_top_lt h]
  exact List.append_nil pool

end Pools

namespace Ledger

/-- The books of one side balance: whatever entered the pool is in it or left it, and what left it
is higher than what is in it. -/
structure Balances (root : Place) (pool : Pool) (l : Ledger) : Prop where
  higher : ∀ p ∈ l.opened ++ l.taken, ∀ q ∈ pool, q.height < p.height
  nodup : (l.opened ++ l.taken).Nodup
  balance : (l.entered root).Perm (pool ++ (l.opened ++ l.taken))

variable {root : Place} {pool : Pool} {l : Ledger} {k : Nat} {m : Marks}

theorem entered_eq (root : Place) (l : Ledger) :
    l.entered root = root :: l.opened.flatMap Place.children := by
  simp [entered, pushes, List.map_flatMap, Function.comp_def]

theorem lower_of_mem_pushes {e : Place × Place} (h : e ∈ l.pushes) : e.2.height < e.1.height := by
  obtain ⟨p, -, he⟩ := List.mem_flatMap.1 h
  obtain ⟨c, hc, rfl⟩ := List.mem_map.1 he
  exact Place.height_lt_of_mem_children hc

theorem turn_perm (l : Ledger) (out : List Place) (m : Marks) :
    ((l.turn out m).opened ++ (l.turn out m).taken).Perm ((l.opened ++ l.taken) ++ out) := by
  have hout := List.filter_append_perm (fun p : Place => (m.lookup p.id).times == 0) out
  simp only [turn]
  refine List.Perm.trans ?_ (hout.append_left (l.opened ++ l.taken))
  simp only [List.append_assoc]
  apply List.Perm.append_left
  rw [← List.append_assoc, ← List.append_assoc]
  exact List.perm_append_comm.append_right _

theorem Balances.start (root : Place) : Balances root [root] {} where
  higher := by simp
  nodup := by simp
  balance := by simp [entered, pushes]

theorem Balances.turn (h : Balances root pool l) (hpool : pool.Nodup) (htop : pool.top ≤ k) :
    Balances root
      ((pool.without k).opened ((pool.ofHeight k).filter fun p => (m.lookup p.id).times == 0))
      (l.turn (pool.ofHeight k) m) where
  higher := by
    intro p hp q hq
    rw [(turn_perm l _ m).mem_iff, List.mem_append] at hp
    have hq' : (q ∈ pool ∨ ∃ r ∈ pool, r.height = k ∧ q.height < r.height) ∧ q.height < k := by
      rcases mem_opened.1 hq with hq | ⟨r, hr, hqr⟩
      · obtain ⟨hmem, hne⟩ := mem_without.1 hq
        have := height_le_top hmem
        exact ⟨Or.inl hmem, by omega⟩
      · obtain ⟨hmem, hheight⟩ := mem_ofHeight.1 (List.mem_filter.1 hr).1
        have hlt := Place.height_lt_of_mem_children hqr
        exact ⟨Or.inr ⟨r, hmem, hheight, hlt⟩, hheight ▸ hlt⟩
    rcases hp with hp | hp
    · rcases hq'.1 with hmem | ⟨r, hr, -, hlt⟩
      · exact h.higher p hp q hmem
      · exact hlt.trans (h.higher p hp r hr)
    · rw [(mem_ofHeight.1 hp).2]
      exact hq'.2
  nodup := by
    rw [(turn_perm l _ m).nodup_iff, List.nodup_append]
    refine ⟨h.nodup, hpool.filter _, ?_⟩
    rintro p hp q hq rfl
    exact Nat.lt_irrefl _ (h.higher p hp p (mem_ofHeight.1 hq).1)
  balance := by
    have hentered : (l.turn (pool.ofHeight k) m).entered root = l.entered root ++
        ((pool.ofHeight k).filter fun p => (m.lookup p.id).times == 0).flatMap Place.children := by
      rw [entered_eq, entered_eq, Ledger.turn, List.flatMap_append, List.cons_append]
    rw [hentered, Pool.opened, ← Multiset.coe_eq_coe]
    have hbooks := Multiset.coe_eq_coe.2 h.balance
    have hturn := Multiset.coe_eq_coe.2 (turn_perm l (pool.ofHeight k) m)
    have hpools := Multiset.coe_eq_coe.2 (ofHeight_perm pool k)
    simp only [← Multiset.coe_add] at hbooks hturn hpools ⊢
    -- the children go to the pool, and all that was taken out to the books
    rw [hbooks, hturn, ← hpools]
    ac_rfl

end Ledger

section Step

variable {mix : Mix} {a b : Ast} {σ σ' : State} {minHeight : Nat}

theorem candidates_top (σ : State) : candidates σ σ.top =
    if σ.src.top = σ.dst.top then candidates σ σ.src.top else [] := by
  split
  · rename_i heq
    rw [State.top, ← heq, Nat.max_self]
  · rename_i hne
    rw [candidates, equalPairs, State.top]
    rcases Nat.lt_or_gt_of_ne hne with hlt | hlt
    · rw [Nat.max_eq_right hlt.le, ofHeight_of_top_lt hlt, List.flatMap_nil]
    · rw [Nat.max_eq_left hlt.le, ofHeight_of_top_lt hlt]
      simp

theorem counts_step (side : Side) (hstep : step? minHeight σ = some σ') :
    Marks.Counts ((candidates σ σ.top).map side.of) (side.marks σ.store)
      (side.marks σ'.store) := by
  rw [candidates_top]
  rcases step?_eq_some hstep with ⟨hlt, -, rfl⟩ | ⟨hlt, -, rfl⟩ | ⟨heq, -, rfl⟩
  · rw [if_neg (Nat.ne_of_gt hlt)]
    exact .foldl_bumped _ []
  · rw [if_neg (Nat.ne_of_lt hlt)]
    exact .foldl_bumped _ []
  · rw [if_pos heq]
    exact counts_linked side σ _

variable (hσ : σ.Fresh (Rose.wrap mix a) (Rose.wrap mix b))
  (hstep : step? minHeight σ = some σ') {p : Place}

include hσ hstep

theorem times_step (side : Side) (hp : p ∈ side.pool σ) :
    ((side.marks σ'.store).lookup p.id).times = 0 ↔ p ∉ (candidates σ σ.top).map side.of :=
  (hσ.on side).times_eq_zero_iff (counts_step side hstep)
    (fun _ he => mem_ofHeight_of_mem_map side he) hp

/-- In every round both sides take out the places of one height and open those that were never
counted. -/
theorem pool_step (side : Side) : side.pool σ' = ((side.pool σ).without σ.top).opened
    (((side.pool σ).ofHeight σ.top).filter fun p =>
      ((side.marks σ'.store).lookup p.id).times == 0) := by
  have hall : σ.src.top ≠ σ.dst.top → ((side.pool σ).ofHeight σ.top).filter (fun p =>
      ((side.marks σ'.store).lookup p.id).times == 0) = (side.pool σ).ofHeight σ.top := by
    intro hne
    apply filter_uncounted
    intro p hp
    rw [times_step hσ hstep side hp, candidates_top, if_neg hne]
    exact List.not_mem_nil
  rcases step?_eq_some hstep with ⟨hlt, -, rfl⟩ | ⟨hlt, -, rfl⟩ | ⟨heq, -, rfl⟩
  · rw [hall (Nat.ne_of_gt hlt), State.top, Nat.max_eq_left hlt.le]
    cases side
    · rfl
    · exact (pool_of_top_lt hlt).symm
  · rw [hall (Nat.ne_of_lt hlt), State.top, Nat.max_eq_right hlt.le]
    cases side
    · exact (pool_of_top_lt hlt).symm
    · rfl
  · rw [State.top, ← heq, Nat.max_self]
    cases side
    · rfl
    · rw [heq]
      rfl

end Step

structure Ledger.Orderly (root : Place) (pool : Pool) (l : Ledger) (ends : List Place) : Prop where
  /-- What is in the pool or was taken out of it for a candidate does not overlap. -/
  apart : ∀ p ∈ pool ++ l.taken, ∀ q ∈ pool ++ l.taken, p ∉ q.ancestors
  once : (l.entered root).Nodup
  lower : ∀ e ∈ l.pushes, e.2.height < e.1.height
  /-- Whatever entered the pool is in it, was opened, or was taken out for a candidate. -/
  balance : (l.entered root).Perm (pool ++ (l.opened ++ l.taken))
  candidates : ∀ p, p ∈ l.taken ↔ p ∈ ends

structure Journal.Kept (mix : Mix) (a b : Ast) (j : Journal) : Prop where
  trail : j.state.Trail (Rose.wrap mix a) (Rose.wrap mix b) j.found
  src : j.src.Balances (Place.root (Rose.wrap mix a)) j.state.src
  dst : j.dst.Balances (Place.root (Rose.wrap mix b)) j.state.dst
  takenSrc : ∀ p, p ∈ j.src.taken ↔ p ∈ j.found.map Prod.fst
  takenDst : ∀ p, p ∈ j.dst.taken ↔ p ∈ j.found.map Prod.snd
  bound : j.rounds + j.state.weight ≤ a.size + b.size

section Run

variable {mix : Mix} {a b : Ast} {j j' : Journal} {minHeight : Nat}

theorem Ledger.mem_turn_taken {l : Ledger} {pool : Pool} {k : Nat} {m : Marks}
    {seen ends : List Place} (h : ∀ p, p ∈ l.taken ↔ p ∈ seen)
    (hends : ∀ p ∈ ends, p ∈ pool.ofHeight k)
    (htimes : ∀ p ∈ pool, (m.lookup p.id).times = 0 ↔ p ∉ ends) (p : Place) :
    p ∈ (l.turn (pool.ofHeight k) m).taken ↔ p ∈ seen ++ ends := by
  rw [Ledger.turn, List.mem_append, List.mem_append, h p, List.mem_filter]
  apply or_congr_right
  constructor
  · rintro ⟨hp, hcounted⟩
    by_contra hout
    simp [(htimes p (mem_ofHeight.1 hp).1).2 hout] at hcounted
  · intro hp
    have hcounted := (not_congr (htimes p (mem_ofHeight.1 (hends p hp)).1)).2 (not_not_intro hp)
    exact ⟨hends p hp, by simpa using hcounted⟩

theorem Journal.Kept.next (h : j.Kept mix a b) (hnext : j.next? minHeight = some j') :
    j'.Kept mix a b := by
  obtain ⟨σ, hstep, rfl⟩ := Option.map_eq_some_iff.1 hnext
  have hfresh := h.trail.fresh
  have hweight := step?_weight_lt hstep
  have hbound := h.bound
  have hsrc : σ.src = _ := pool_step hfresh hstep .src
  have hdst : σ.dst = _ := pool_step hfresh hstep .dst
  refine ⟨?_, ?_, ?_, ?_, ?_, by simp only; omega⟩
  · have htrail := h.trail.step hstep
    rwa [← candidates_top] at htrail
  · simp only [hsrc]
    exact h.src.turn (nodup_of_nodup_flatMap hfresh.src.nodup) (Nat.le_max_left _ _)
  · simp only [hdst]
    exact h.dst.turn (nodup_of_nodup_flatMap hfresh.dst.nodup) (Nat.le_max_right _ _)
  · simp only [List.map_append]
    exact Ledger.mem_turn_taken h.takenSrc (fun _ hp => mem_ofHeight_of_mem_map .src hp)
      fun p hp => times_step hfresh hstep .src hp
  · simp only [List.map_append]
    exact Ledger.mem_turn_taken h.takenDst (fun _ hp => mem_ofHeight_of_mem_map .dst hp)
      fun p hp => times_step hfresh hstep .dst hp

theorem Journal.Kept.reaches (h : j.Kept mix a b) (hj : j.Reaches minHeight j') :
    j'.Kept mix a b := by
  induction hj with
  | refl => exact h
  | tail _ hnext ih => exact ih.next hnext

theorem kept_freshStart (mix : Mix) (a b : Ast) :
    Journal.Kept mix a b { state := freshStart mix a b } where
  trail := trail_freshStart mix a b
  src := .start _
  dst := .start _
  takenSrc := fun _ => Iff.rfl
  takenDst := fun _ => Iff.rfl
  bound := by
    simp [State.weight, freshStart, start, Place.totalSize, Place.size, Place.root]

theorem Pool.Seen.not_mem_ancestors {pool : Pool} {seen : List Place} {m : Marks} {p q : Place}
    (h : pool.Seen (Rose.wrap mix a) seen m) (hpool : pool.Fresh (Rose.wrap mix a) m)
    (hp : p ∈ pool ++ seen) (hq : q ∈ pool ++ seen) : p ∉ q.ancestors := by
  have hinside : ∀ r ∈ pool ++ seen, r ∈ nodes (Rose.wrap mix a) := fun r hr =>
    (List.mem_append.1 hr).elim (hpool.inside r) (h.inside r)
  intro habove
  have hne : p ≠ q := by
    rintro rfl
    exact Nat.lt_irrefl _ (id_lt_of_mem_ancestors (hinside p hp) habove)
  have hbelow := Place.mem_preOrder_of_mem_descendants
    (mem_nodes_of_mem_ancestors (hinside q hq) habove).2
  have hself := Place.mem_preOrder_self q
  rcases List.mem_append.1 hp with hp | hp <;> rcases List.mem_append.1 hq with hq | hq
  · exact hne (eq_of_mem_preOrder hpool.nodup hp hq hbelow hself)
  · exact h.outside q hq q (mem_flatMap_preOrder hp hbelow) hself
  · exact h.outside p hp q (mem_flatMap_preOrder hq hself) hbelow
  · exact (h.apart p hp q hq).elim hne fun hdisjoint => hdisjoint q hbelow hself

theorem Ledger.Balances.orderly {root : Place} {pool : Pool} {l : Ledger} {seen : List Place}
    {m : Marks} (h : l.Balances root pool) (hpool : pool.Fresh (Rose.wrap mix a) m)
    (hseen : pool.Seen (Rose.wrap mix a) seen m) (htaken : ∀ p, p ∈ l.taken ↔ p ∈ seen) :
    l.Orderly root pool seen where
  apart := by
    have hmem : ∀ p ∈ pool ++ l.taken, p ∈ pool ++ seen := by
      intro p hp
      rwa [List.mem_append, ← htaken p, ← List.mem_append]
    intro p hp q hq
    exact hseen.not_mem_ancestors hpool (hmem p hp) (hmem q hq)
  once := by
    rw [h.balance.nodup_iff, List.nodup_append]
    refine ⟨nodup_of_nodup_flatMap hpool.nodup, h.nodup, ?_⟩
    rintro q hq p hp rfl
    exact Nat.lt_irrefl _ (h.higher q hp q hq)
  lower := fun _ he => lower_of_mem_pushes he
  balance := h.balance
  candidates := htaken

/-- From every state the rounds come to an end. -/
theorem exists_last (minHeight : Nat) (j : Journal) : ∃ last, j.Reaches minHeight last ∧
    last.next? minHeight = none ∧ last.state = exhaust minHeight j.state := by
  generalize hσ : j.state = σ
  induction σ using exhaust.induct minHeight generalizing j with
  | case1 σ hstep =>
    refine ⟨j, .refl, ?_, ?_⟩
    · rw [Journal.next?, hσ, hstep]
      rfl
    · rw [exhaust, hstep, hσ]
  | case2 σ σ' hstep ih =>
    have hnext : ∃ j', j.next? minHeight = some j' ∧ j'.state = σ' := by
      rw [Journal.next?, hσ, hstep]
      exact ⟨_, rfl, rfl⟩
    obtain ⟨j', hj', hstate⟩ := hnext
    obtain ⟨last, hreach, hlast, hend⟩ := ih j' hstate
    have hrun : exhaust minHeight σ = exhaust minHeight σ' := by
      rw [exhaust, hstep]
    exact ⟨last, .head hj' hreach, hlast, hend.trans hrun.symm⟩

end Run

/-- Between two freshly wrapped trees the loop of the phase comes to an end, whatever the least
height, and there are no more rounds than nodes. After every round, on both sides, what is in the
pool or was taken out of it for a candidate lies side by side, every place has entered the pool at
most once, and each one that was pushed is lower than the place whose opening pushed it. -/
theorem rounds_freshStart (mix : Mix) (minHeight : Nat) (a b : Ast) :
    let first : Journal := { state := freshStart mix a b }
    (∃ last, first.Reaches minHeight last ∧ last.next? minHeight = none ∧
      last.state = exhaust minHeight (freshStart mix a b)) ∧
    ∀ j, first.Reaches minHeight j → j.rounds ≤ a.size + b.size ∧
      j.src.Orderly (Place.root (Rose.wrap mix a)) j.state.src (j.found.map Prod.fst) ∧
      j.dst.Orderly (Place.root (Rose.wrap mix b)) j.state.dst (j.found.map Prod.snd) := by
  intro first
  refine ⟨exists_last minHeight first, ?_⟩
  intro j hj
  have hkept := (kept_freshStart mix a b).reaches hj
  have hbound := hkept.bound
  exact ⟨by omega, hkept.src.orderly hkept.trail.fresh.src hkept.trail.src hkept.takenSrc,
    hkept.dst.orderly hkept.trail.fresh.dst hkept.trail.dst hkept.takenDst⟩

end Relocate.Matching.TopDown
