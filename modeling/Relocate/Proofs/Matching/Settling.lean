import Relocate.Proofs.Matching.Joining

/-!
# Settling what was put off

A place that was put off is settled as a whole or not at all. So whenever the phase links two
subtrees, early or late, none of the links is refused, and every committed pair lies at one address
in two joined subtrees, its children with it.
-/

set_option autoImplicit false

namespace Relocate.Matching

/-- A free root stands for a free subtree. -/
def Marks.Whole (m : Marks) (p : Place) : Prop :=
  (m.lookup p.id).isMapped = false → ∀ q ∈ p.preOrder, (m.lookup q.id).isMapped = false

namespace TopDown

open Store

variable {mix : Mix} {a b : Ast} {S D : Wrapped} {σ : State} {minHeight : Nat} {st : Store}
  {s d p : Place}

/-- What every settlement meets: of the places that were put off, none is mapped in part. -/
structure State.Settles (S D : Wrapped) (σ : State) (st : Store) : Prop where
  agrees : st.Agrees S D
  src : ∀ p ∈ σ.deferred.map Prod.fst, st.src.Whole p
  dst : ∀ p ∈ σ.deferred.map Prod.snd, st.dst.Whole p

theorem State.Settles.on (h : σ.Settles S D st) (side : Side) :
    ∀ p ∈ σ.deferred.map side.of, (side.marks st).Whole p := by
  cases side
  · exact h.src
  · exact h.dst

section Settle

variable (hσ : σ.Sound (Rose.wrap mix a) (Rose.wrap mix b) minHeight)
  {pair : Place × Place} (hpair : pair ∈ σ.deferred)

include hσ hpair

theorem of_inside (side : Side) : side.of pair ∈ nodes (Rose.wrap mix (side.of (a, b))) :=
  (hσ.on side).inside _ (List.mem_map_of_mem hpair)

theorem accepts_settle (h : σ.Settles (Rose.wrap mix a) (Rose.wrap mix b) st)
    (hadmits : st.admits pair.1 pair.2 = true) : st.Accepts (lockstep pair) :=
  accepts_subtrees (of_inside hσ hpair) (Place.size_eq_of_shape_eq (hσ.alike pair hpair))
    fun side => h.on side _ (List.mem_map_of_mem hpair)
      ((admits_iff_free st pair).1 hadmits side)

theorem joined_settle (h : σ.Settles (Rose.wrap mix a) (Rose.wrap mix b) st) :
    Joined minHeight st (settle st pair.1 pair.2) := by
  rw [settle]
  split
  · rename_i hadmits
    exact Joined.of_accepts (accepts_settle hσ hpair h hadmits) (hσ.high pair hpair)
      (hσ.alike pair hpair)
  · exact Joined.of_pairs_eq rfl

theorem State.Settles.settle (h : σ.Settles (Rose.wrap mix a) (Rose.wrap mix b) st) :
    σ.Settles (Rose.wrap mix a) (Rose.wrap mix b) (settle st pair.1 pair.2) := by
  have hinside := of_inside hσ hpair
  rw [TopDown.settle]
  split
  case isFalse => exact h
  case isTrue hadmits =>
    have hagrees : (st.linkSubtrees pair.1 pair.2).Agrees (Rose.wrap mix a) (Rose.wrap mix b) :=
      h.agrees.reaches (advances_linkSubtrees st (hinside .src) (hinside .dst)).reaches
    have hpairs : (st.linkSubtrees pair.1 pair.2).pairs.toList =
        st.pairs.toList ++ lockstep pair :=
      (accepts_settle hσ hpair h hadmits).pairs_linkAll
    have hlinked : pair ∈ (st.linkSubtrees pair.1 pair.2).pairs.toList := by
      rw [hpairs]
      exact List.mem_append_right _ (mem_lockstep_self pair)
    have hwhole : ∀ side : Side, ∀ p ∈ σ.deferred.map side.of,
        (side.marks (st.linkSubtrees pair.1 pair.2)).Whole p := by
      intro side p hp hfree q hq
      rcases (hσ.on side).apart p hp (side.of pair) (List.mem_map_of_mem hpair) with rfl | hout
      · exact absurd hfree (ne_false_of_eq_true (hagrees.isMapped_of_mem hlinked side))
      · have hframe : ∀ q ∈ p.preOrder,
            side.isMapped (st.linkSubtrees pair.1 pair.2) q = side.isMapped st q := fun q hq =>
          isMapped_linkSubtrees (hinside side)
            (mem_nodes_of_mem_preOrder ((hσ.on side).inside p hp) hq) (hout q hq)
        have hroot := (hframe p (Place.mem_preOrder_self p)).symm.trans hfree
        exact (hframe q hq).trans (h.on side p hp hroot q hq)
    exact ⟨hagrees, hwhole .src, hwhole .dst⟩

end Settle

theorem State.Settles.foldl (hσ : σ.Sound (Rose.wrap mix a) (Rose.wrap mix b) minHeight)
    (h : σ.Settles (Rose.wrap mix a) (Rose.wrap mix b) st) {l : List (Score × Place × Place)}
    (hl : ∀ c ∈ l, c.2 ∈ σ.deferred) :
    σ.Settles (Rose.wrap mix a) (Rose.wrap mix b)
        (l.foldl (fun st c => TopDown.settle st c.2.1 c.2.2) st) ∧
      Joined minHeight st (l.foldl (fun st c => TopDown.settle st c.2.1 c.2.2) st) := by
  induction l generalizing st with
  | nil => exact ⟨h, Joined.of_pairs_eq rfl⟩
  | cons c l ih =>
    have hc := hl c List.mem_cons_self
    obtain ⟨hsettles, hjoined⟩ :=
      ih (h.settle hσ hc) fun c' hc' => hl c' (List.mem_cons_of_mem c hc')
    exact ⟨hsettles, (joined_settle hσ hc h).trans hjoined⟩

inductive Passes (minHeight : Nat) (first : State) : State → Prop
  | first : Passes minHeight first first
  | step {σ σ' : State} (h : Passes minHeight first σ) (hstep : step? minHeight σ = some σ') :
      Passes minHeight first σ'

theorem Passes.exhaust_eq {first : State} (h : Passes minHeight first σ) :
    exhaust minHeight σ = exhaust minHeight first := by
  induction h with
  | first => rfl
  | step h hstep ih =>
    rw [← ih]
    conv_rhs => rw [exhaust, hstep]

/-- The calls of a run that link two subtrees, each with the store that it meets: one for every
unique candidate of a comparison, and, once no step is left, one for every pair put off whose places
are still free. -/
inductive Calls (minHeight : Nat) (src dst : Place) (st : Store) : Store → Place × Place → Prop
  | unique {σ : State} {before after : List (Place × Place)} {pair : Place × Place}
      (hpass : Passes minHeight (start st src dst) σ) (htop : σ.src.top = σ.dst.top)
      (hmin : minHeight < σ.src.top)
      (hsplit : unique σ σ.src.top = before ++ pair :: after) :
      Calls minHeight src dst st
        (before.foldl (fun st p => st.linkSubtrees p.1 p.2) (counted σ σ.src.top)) pair
  | deferred {σ : State} {before after : List (Score × Place × Place)}
      {c : Score × Place × Place} (hpass : Passes minHeight (start st src dst) σ)
      (hlast : step? minHeight σ = none)
      (hsplit : ranked σ.store σ.deferred = before ++ c :: after)
      (hfree : (before.foldl (fun st c => settle st c.2.1 c.2.2) σ.store).admits c.2.1 c.2.2) :
      Calls minHeight src dst st
        (before.foldl (fun st c => settle st c.2.1 c.2.2) σ.store) c.2

theorem State.Sound.passes {first : State}
    (hfirst : first.Sound (Rose.wrap mix a) (Rose.wrap mix b) minHeight)
    (hpass : Passes minHeight first σ) :
    σ.Sound (Rose.wrap mix a) (Rose.wrap mix b) minHeight := by
  induction hpass with
  | first => exact hfirst
  | step _ hstep ih => exact (ih.step hstep).1

section Run

variable (mix : Mix) (minHeight : Nat) (a b : Ast)

def freshRun : Store :=
  run minHeight (Place.root (Rose.wrap mix a)) (Place.root (Rose.wrap mix b))
    (Store.empty (Rose.wrap mix a) (Rose.wrap mix b))

def freshStart : State :=
  start (Store.empty (Rose.wrap mix a) (Rose.wrap mix b)) (Place.root (Rose.wrap mix a))
    (Place.root (Rose.wrap mix b))

theorem sound_freshStart :
    (freshStart mix a b).Sound (Rose.wrap mix a) (Rose.wrap mix b) minHeight where
  fresh := ⟨fresh_root mix a, fresh_root mix b⟩
  alike := fun _ hpair => absurd hpair List.not_mem_nil
  high := fun _ hpair => absurd hpair List.not_mem_nil
  src := Pool.Spares.nil _ _ _
  dst := Pool.Spares.nil _ _ _

theorem settles_exhaust :
    (exhaust minHeight (freshStart mix a b)).Settles (Rose.wrap mix a) (Rose.wrap mix b)
      (exhaust minHeight (freshStart mix a b)).store := by
  have hσ := (sound_freshStart mix minHeight a b).exhaust.1
  have hinside := inside_start (Store.empty (Rose.wrap mix a) (Rose.wrap mix b))
    (root_mem_nodes (Rose.wrap mix a)) (root_mem_nodes (Rose.wrap mix b))
  exact ⟨(agrees_empty _ _).reaches (hinside.exhaust minHeight).2.reaches,
    fun p hp _ => hσ.src.free p hp, fun p hp _ => hσ.dst.free p hp⟩

theorem joined_freshRun :
    Joined minHeight (Store.empty (Rose.wrap mix a) (Rose.wrap mix b))
      (freshRun mix minHeight a b) := by
  obtain ⟨hσ, hjoined⟩ := (sound_freshStart mix minHeight a b).exhaust
  exact hjoined.trans
    ((settles_exhaust mix minHeight a b).foldl hσ fun _ hc => mem_ranked hc).2

theorem accepts_of_calls {met : Store} {pair : Place × Place}
    (h : Calls minHeight (Place.root (Rose.wrap mix a)) (Place.root (Rose.wrap mix b))
      (Store.empty (Rose.wrap mix a) (Rose.wrap mix b)) met pair) :
    met.Accepts (lockstep pair) := by
  cases h with
  | unique hpass _ _ hsplit =>
    exact accepts_unique ((sound_freshStart mix minHeight a b).passes hpass).fresh hsplit
  | @deferred σ before after c hpass hlast hsplit hfree =>
    obtain rfl : σ = exhaust minHeight (freshStart mix a b) := by
      have hstop : exhaust minHeight σ = σ := by rw [exhaust, hlast]
      exact hstop.symm.trans hpass.exhaust_eq
    have hσ := (sound_freshStart mix minHeight a b).exhaust.1
    have hl : ∀ c' ∈ before ++ c :: after,
        c'.2 ∈ (exhaust minHeight (freshStart mix a b)).deferred := by
      intro c' hc'
      rw [← hsplit] at hc'
      exact mem_ranked hc'
    have hsettles := ((settles_exhaust mix minHeight a b).foldl hσ
      fun c' hc' => hl c' (List.mem_append_left _ hc')).1
    exact accepts_settle hσ (hl c (by simp)) hsettles hfree

end Run

/-- Every pair of the phase joins equal nodes together with their children, at one address in a
pair that is higher than the least height; and no link of the phase is refused. -/
theorem freshRun_joins_whole (mix : Mix) (minHeight : Nat) (a b : Ast) :
    (∀ s d, (s, d) ∈ (freshRun mix minHeight a b).pairs.toList →
      s.node.isomorphic d.node = true ∧ s.children.length = d.children.length ∧
      (∀ (i : Nat) (c : Place), s.children[i]? = some c → ∃ e, d.children[i]? = some e ∧
        (freshRun mix minHeight a b).destinationOf? c = some e) ∧
      ∃ A B x, (A, B) ∈ (freshRun mix minHeight a b).pairs.toList ∧ minHeight < A.height ∧
        minHeight < B.height ∧ A.descend? x = some s ∧ B.descend? x = some d) ∧
    ∀ met pair, Calls minHeight (Place.root (Rose.wrap mix a)) (Place.root (Rose.wrap mix b))
        (Store.empty (Rose.wrap mix a) (Rose.wrap mix b)) met pair →
      met.Accepts (pair.1.preOrder.zip pair.2.preOrder) := by
  refine ⟨?_, fun met pair h => accepts_of_calls mix minHeight a b h⟩
  intro s d hpair
  have hagrees : (freshRun mix minHeight a b).Agrees (Rose.wrap mix a) (Rose.wrap mix b) :=
    (agrees_empty _ _).reaches
      (reaches_run minHeight _ (root_mem_nodes (Rose.wrap mix a))
        (root_mem_nodes (Rose.wrap mix b)))
  obtain ⟨blocks, hpairs, hblocks⟩ := joined_freshRun mix minHeight a b
  have hall : ∀ block ∈ blocks, ∀ u ∈ lockstep block,
      u ∈ (freshRun mix minHeight a b).pairs.toList := by
    intro block hblock u hu
    rw [hpairs]
    exact List.mem_append_right _ (List.mem_flatMap.2 ⟨block, hblock, hu⟩)
  -- the pair is in a block that was linked, at one address below both roots of the block
  have hmem : (s, d) ∈ blocks.flatMap lockstep := by
    rw [hpairs] at hpair
    exact (List.mem_append.1 hpair).resolve_left (by simp [Store.empty])
  obtain ⟨⟨A, B⟩, hblock, hzip⟩ := List.mem_flatMap.1 hmem
  obtain ⟨hheight, halike⟩ := hblocks _ hblock
  obtain ⟨x, hs, hd⟩ := Place.exists_descend?_of_mem_zip halike hzip
  have hshape := Place.shape_eq_of_mem_zip halike hzip
  have hs' := hagrees.src.inside _ hpair
  have hd' : d ∈ nodes (Rose.wrap mix b) := hagrees.dst.inside (d, s) (List.mem_map_of_mem hpair)
  refine ⟨(isomorphic_iff_shape_eq hs' hd').2 hshape, Place.length_children_of_shape_eq hshape,
    ?_, A, B, x, ?_, hheight, ?_, hs, hd⟩
  · intro i c hc
    obtain ⟨e, he, -⟩ := Place.exists_child_of_shape_eq hshape hc
    refine ⟨e, he, ?_⟩
    have hc' : A.descend? (x ++ [i]) = some c := by
      rw [Place.descend?_append, hs]
      exact Place.descend?_cons_eq_some.2 ⟨c, hc, rfl⟩
    have he' : B.descend? (x ++ [i]) = some e := by
      rw [Place.descend?_append, hd]
      exact Place.descend?_cons_eq_some.2 ⟨e, he, rfl⟩
    have hin := mem_nodes_of_mem_children hs' (List.mem_of_getElem? hc)
    exact (hagrees.destinationOf?_eq_some_iff hin).2
      (hall _ hblock _ (Place.mem_zip_preOrder halike hc' he'))
  · exact hall _ hblock _ (mem_lockstep_self (A, B))
  · rwa [← Place.height_eq_of_shape_eq halike]

/-- The call of the two sample trees is joined with its copy, and so is the name below it. -/
theorem freshRun_joins_whole_moved :
    ∃ s d, (s, d) ∈ (freshRun Mix.standard 1 Moved.before Moved.after).pairs.toList ∧ s.id = 1 ∧
      s.node.isomorphic d.node = true ∧ ∃ c e, s.children[0]? = some c ∧
        d.children[0]? = some e ∧
        (freshRun Mix.standard 1 Moved.before Moved.after).destinationOf? c = some e := by
  have hpairs : ∃ pair ∈ (freshRun Mix.standard 1 Moved.before Moved.after).pairs.toList,
      pair.1.id = 1 ∧ pair.1.children[0]?.isSome := by
    decide +kernel
  obtain ⟨⟨s, d⟩, hpair, hid, hchild⟩ := hpairs
  obtain ⟨c, hc⟩ := Option.isSome_iff_exists.1 hchild
  obtain ⟨hiso, -, hchildren, -⟩ :=
    (freshRun_joins_whole Mix.standard 1 Moved.before Moved.after).1 s d hpair
  obtain ⟨e, he, hdest⟩ := hchildren 0 c hc
  exact ⟨s, d, hpair, hid, hiso, c, e, hc, he, hdest⟩

end TopDown

end Relocate.Matching
