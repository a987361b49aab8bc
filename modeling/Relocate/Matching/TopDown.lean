import Relocate.Matching.Similarity

/-!
# The top-down phase

Matches identical subtrees from the tallest down to a least height. Two pools hold the subtrees
still to be compared. In each step the taller pool opens its tallest subtrees, or, at equal heights,
the tallest of both are compared: those that have no equal on the other side are opened, a pair
whose two sides have no other equal is committed, and the other equal pairs are put off. At the end
these are committed in the order of their parents' similarity, as far as their places are still
free.
-/

set_option autoImplicit false

namespace Relocate.Matching.TopDown

/-- Subtrees to be compared, in the order in which they were added. -/
abbrev Pool := List Place

def Pool.top : Pool → Nat
  | [] => 0
  | p :: ps => max p.height (Pool.top ps)

def Pool.ofHeight (pool : Pool) (h : Nat) : List Place := pool.filter (fun p => p.height == h)

def Pool.without (pool : Pool) (h : Nat) : Pool := pool.filter (fun p => p.height != h)

def Pool.opened (pool : Pool) (ps : List Place) : Pool := pool ++ ps.flatMap Place.children

structure State where
  src : Pool
  dst : Pool
  /-- Equal pairs that are not unique, in the order in which they were found. -/
  deferred : List (Place × Place)
  store : Store

/-- The equal pairs of two lists of places, by source and then by destination. -/
def equalPairs (srcs dsts : List Place) : List (Place × Place) :=
  srcs.flatMap fun s => (dsts.filter (fun d => s.node.isomorphic d.node)).map (fun d => (s, d))

def isUnique (st : Store) (pair : Place × Place) : Bool :=
  (st.src.lookup pair.1.id).times == 1 && (st.dst.lookup pair.2.id).times == 1

def pairUp (s : State) (h : Nat) : State :=
  let srcs := s.src.ofHeight h
  let dsts := s.dst.ofHeight h
  let candidates := equalPairs srcs dsts
  let counted := candidates.foldl (fun st p => st.bump p.1 p.2) s.store
  let unique := candidates.filter (isUnique counted)
  let linked := unique.foldl (fun st p => st.linkSubtrees p.1 p.2) counted
  { src := (s.src.without h).opened (srcs.filter (fun p => (linked.src.lookup p.id).times == 0))
    dst := (s.dst.without h).opened (dsts.filter (fun p => (linked.dst.lookup p.id).times == 0))
    deferred := s.deferred ++ candidates.filter (fun p => !isUnique counted p)
    store := linked }

/-- One step, or nothing when both pools are down to the least height. -/
def step? (minHeight : Nat) (s : State) : Option State :=
  let hs := s.src.top
  let hd := s.dst.top
  if hs ≤ minHeight ∧ hd ≤ minHeight then none
  else if hd < hs then some { s with src := (s.src.without hs).opened (s.src.ofHeight hs) }
  else if hs < hd then some { s with dst := (s.dst.without hd).opened (s.dst.ofHeight hd) }
  else some (pairUp s hs)

def State.weight (s : State) : Nat := Place.totalSize s.src + Place.totalSize s.dst

theorem totalSize_split (pool : Pool) (h : Nat) :
    Place.totalSize (pool.ofHeight h) + Place.totalSize (pool.without h) =
      Place.totalSize pool := by
  induction pool with
  | nil => rfl
  | cons p ps ih =>
    simp only [Pool.ofHeight, Pool.without] at ih ⊢
    by_cases hp : p.height = h <;> simp [hp, Place.totalSize] <;> omega

theorem totalSize_flatMap_children (ps : List Place) :
    Place.totalSize (ps.flatMap Place.children) + ps.length = Place.totalSize ps := by
  induction ps with
  | nil => rfl
  | cons p ps ih =>
    simp only [List.flatMap_cons, Place.totalSize_append, List.length_cons, Place.totalSize,
      Place.size_eq p]
    omega

theorem totalSize_filter_le (q : Place → Bool) (ps : List Place) :
    Place.totalSize (ps.filter q) ≤ Place.totalSize ps := by
  induction ps with
  | nil => exact Nat.le_refl _
  | cons p ps ih =>
    by_cases hp : q p <;> simp [hp, Place.totalSize] <;> omega

theorem exists_mem_of_top_pos {pool : Pool} (h : 0 < pool.top) :
    ∃ p ∈ pool, p.height = pool.top := by
  induction pool with
  | nil => simp [Pool.top] at h
  | cons p ps ih =>
    simp only [Pool.top] at h ⊢
    rcases Nat.le_total (Pool.top ps) p.height with hle | hle
    · exact ⟨p, List.mem_cons_self, (Nat.max_eq_left hle).symm⟩
    · by_cases hz : 0 < Pool.top ps
      · obtain ⟨q, hq, hqh⟩ := ih hz
        exact ⟨q, List.mem_cons_of_mem _ hq, by rw [hqh, Nat.max_eq_right hle]⟩
      · have := Rose.height_pos p.node
        simp only [Place.height] at *
        omega

theorem ofHeight_top_length_pos {pool : Pool} (h : 0 < pool.top) :
    0 < (pool.ofHeight pool.top).length := by
  obtain ⟨p, hp, hph⟩ := exists_mem_of_top_pos h
  exact List.length_pos_of_mem (List.mem_filter.2 ⟨hp, by simp [hph]⟩)

theorem length_le_totalSize (ps : List Place) : ps.length ≤ Place.totalSize ps := by
  have := totalSize_flatMap_children ps; omega

/-- Opening some of the tallest subtrees takes at least one node out of the pool. -/
theorem totalSize_opened_lt {pool : Pool} (h : 0 < pool.top) (q : Place → Bool) :
    Place.totalSize ((pool.without pool.top).opened ((pool.ofHeight pool.top).filter q)) <
      Place.totalSize pool := by
  have split := totalSize_split pool pool.top
  have taken := totalSize_flatMap_children ((pool.ofHeight pool.top).filter q)
  have kept := totalSize_filter_le q (pool.ofHeight pool.top)
  have some := ofHeight_top_length_pos h
  have total := length_le_totalSize (pool.ofHeight pool.top)
  simp only [Pool.opened, Place.totalSize_append]
  by_cases hz : ((pool.ofHeight pool.top).filter q).length = 0
  · rw [List.length_eq_zero_iff] at hz
    simp only [hz, List.flatMap_nil, Place.totalSize]
    omega
  · omega

theorem totalSize_opened_all_lt {pool : Pool} (h : 0 < pool.top) :
    Place.totalSize ((pool.without pool.top).opened (pool.ofHeight pool.top)) <
      Place.totalSize pool := by
  have := totalSize_opened_lt h (fun _ => true)
  rwa [List.filter_eq_self.2 (fun _ _ => rfl)] at this

theorem step?_weight_lt {minHeight : Nat} {s s' : State} (h : step? minHeight s = some s') :
    s'.weight < s.weight := by
  simp only [step?] at h
  split at h
  · cases h
  · rename_i hmin
    split at h
    · cases h
      have := @totalSize_opened_all_lt s.src (by omega)
      simp only [State.weight]; omega
    · split at h
      · cases h
        have := @totalSize_opened_all_lt s.dst (by omega)
        simp only [State.weight]; omega
      · cases h
        have heq : s.src.top = s.dst.top := by omega
        have hs := @totalSize_opened_lt s.src (by omega)
          (fun p => ((pairUp s s.src.top).store.src.lookup p.id).times == 0)
        have hd := @totalSize_opened_lt s.dst (by omega)
          (fun p => ((pairUp s s.src.top).store.dst.lookup p.id).times == 0)
        simp only [← heq] at hd
        simp only [State.weight]
        exact Nat.add_lt_add hs hd

/-- Steps until none is left; every step takes nodes out of the pools. -/
def exhaust (minHeight : Nat) (s : State) : State :=
  match _h : step? minHeight s with
  | none => s
  | some s' => exhaust minHeight s'
termination_by s.weight
decreasing_by exact step?_weight_lt _h

/-- The candidates by falling similarity of their parents, equal ones in the order found. -/
def ranked (st : Store) (pairs : List (Place × Place)) : List (Score × Place × Place) :=
  (pairs.map (fun p => (st.parentDice p.1 p.2, p))).mergeSort (fun a b => !(a.1.below b.1))

def settle (st : Store) (s d : Place) : Store :=
  if st.admits s d then st.linkSubtrees s d else st

def start (st : Store) (src dst : Place) : State := ⟨[src], [dst], [], st⟩

def run (minHeight : Nat) (src dst : Place) (st : Store) : Store :=
  let final := exhaust minHeight (start st src dst)
  (ranked final.store final.deferred).foldl (fun st c => settle st c.2.1 c.2.2) final.store

end Relocate.Matching.TopDown
