import Mathlib.Data.List.Permutation
import Relocate.Proofs.Matching.Ranking
import Relocate.Proofs.Matching.Recording

/-!
# Several equal subtrees

Of several equal subtrees on either side, each is in one candidate with each one of the other side.
As many of them are committed as the smaller side has subtrees, and a candidate that is not loses
one of its places to a candidate whose parents are more similar, or as similar and found earlier.
-/

set_option autoImplicit false

namespace Relocate.Matching

/-- One-to-one pairs that leave no two of the given numbers without a partner are as many as the
shorter of the two lists has numbers. -/
theorem length_eq_min_of_maximal {α : Type} {f g : α → Nat} {l : List α} {ss ds : List Nat}
    (hss : ss.Nodup) (hds : ds.Nodup) (hs : (l.map f).Subperm ss) (hd : (l.map g).Subperm ds)
    (hmax : ∀ s ∈ ss, ∀ d ∈ ds, s ∈ l.map f ∨ d ∈ l.map g) :
    l.length = min ss.length ds.length := by
  have hle : l.length ≤ ss.length := by simpa using hs.length_le
  have hle' : l.length ≤ ds.length := by simpa using hd.length_le
  by_cases hall : ss ⊆ l.map f
  · have hge : ss.length ≤ l.length := by simpa using (hss.subperm hall).length_le
    omega
  · have hall' : ds ⊆ l.map g := by
      intro d hd
      by_contra hout
      exact hall fun s hs => (hmax s hs d hd).resolve_right hout
    have hge : ds.length ≤ l.length := by simpa using (hds.subperm hall').length_le
    omega

namespace TopDown

open Store

def groupOf (l : List (Place × Place)) (c : Place × Place) : List (Place × Place) :=
  l.filter fun e => c.1.node.isomorphic e.1.node

def sources (l : List (Place × Place)) : List Nat := (l.map fun c => c.1.id).dedup

def destinations (l : List (Place × Place)) : List Nat := (l.map fun c => c.2.id).dedup

section Fresh

variable (mix : Mix) (minHeight : Nat) (a b : Ast)

def found : List (Place × Place) := recorded minHeight (freshStart mix a b)

def compared : State := exhaust minHeight (freshStart mix a b)

def taken : List (Place × Place) :=
  (found mix minHeight a b).filter fun c => (freshRun mix minHeight a b).has c.1 c.2

/-- What is put off, in the order in which it is settled. -/
def queue : List (Place × Place) :=
  (ranked (compared mix minHeight a b).store (compared mix minHeight a b).deferred).map Prod.snd

/-- The candidates in the order in which they are committed. -/
def committed : List (Place × Place) :=
  (found mix minHeight a b).filter (isUnique (compared mix minHeight a b).store) ++
    settled (compared mix minHeight a b).store (queue mix minHeight a b)

theorem seen_root (mix : Mix) (t : Ast) :
    Pool.Seen (Rose.wrap mix t) [Place.root (Rose.wrap mix t)] []
      (Marks.blank (Rose.wrap mix t)) where
  inside := by simp
  apart := by simp
  outside := by simp
  lower := by simp
  times := by
    intro p hp
    exact ((fresh_root mix t).idle p (mem_flatMap_preOrder (List.mem_singleton_self _) hp)).2

theorem trail_freshStart :
    (freshStart mix a b).Trail (Rose.wrap mix a) (Rose.wrap mix b) [] where
  fresh := ⟨fresh_root mix a, fresh_root mix b⟩
  src := seen_root mix a
  dst := seen_root mix b
  nodup := List.nodup_nil
  alike := by simp
  whole := by simp
  deferred := rfl
  pairs := rfl

theorem trail_compared :
    (compared mix minHeight a b).Trail (Rose.wrap mix a) (Rose.wrap mix b)
      (found mix minHeight a b) :=
  (trail_freshStart mix a b).exhaust

theorem sound_compared :
    (compared mix minHeight a b).Sound (Rose.wrap mix a) (Rose.wrap mix b) minHeight :=
  (sound_freshStart mix minHeight a b).exhaust.1

theorem settles_compared :
    (compared mix minHeight a b).Settles (Rose.wrap mix a) (Rose.wrap mix b)
      (compared mix minHeight a b).store :=
  settles_exhaust mix minHeight a b

theorem freshRun_eq : freshRun mix minHeight a b =
    settleAll (compared mix minHeight a b).store (queue mix minHeight a b) := by
  rw [settleAll, queue, List.foldl_map]
  rfl

theorem agrees_freshRun :
    (freshRun mix minHeight a b).Agrees (Rose.wrap mix a) (Rose.wrap mix b) :=
  (agrees_empty _ _).reaches
    (reaches_run minHeight _ (root_mem_nodes (Rose.wrap mix a)) (root_mem_nodes (Rose.wrap mix b)))

variable {mix minHeight a b} {c e : Place × Place}

theorem mem_queue : c ∈ queue mix minHeight a b ↔ c ∈ found mix minHeight a b ∧
    isUnique (compared mix minHeight a b).store c = false := by
  rw [queue, map_snd_ranked, List.mem_mergeSort, (trail_compared mix minHeight a b).deferred,
    List.mem_filter, Bool.not_eq_true']

theorem mem_deferred_of_mem_queue (hc : c ∈ queue mix minHeight a b) :
    c ∈ (compared mix minHeight a b).deferred := by
  rwa [queue, map_snd_ranked, List.mem_mergeSort] at hc

theorem mem_found_of_mem_committed (hc : c ∈ committed mix minHeight a b) :
    c ∈ found mix minHeight a b := by
  rcases List.mem_append.1 hc with hc | hc
  · exact (List.mem_filter.1 hc).1
  · exact (mem_queue.1 ((settled_sublist _ _).subset hc)).1

theorem inside_found (hc : c ∈ found mix minHeight a b) :
    c.1 ∈ nodes (Rose.wrap mix a) ∧ c.2 ∈ nodes (Rose.wrap mix b) :=
  ⟨(trail_compared mix minHeight a b).src.inside c.1 (List.mem_map_of_mem hc),
    (trail_compared mix minHeight a b).dst.inside c.2 (List.mem_map_of_mem hc)⟩

theorem of_inside_found (side : Side) (hc : c ∈ found mix minHeight a b) :
    side.of c ∈ nodes (Rose.wrap mix (side.of (a, b))) :=
  ((trail_compared mix minHeight a b).on side).inside _ (List.mem_map_of_mem hc)

theorem pairs_freshRun : (freshRun mix minHeight a b).pairs.toList =
    (committed mix minHeight a b).flatMap lockstep := by
  rw [freshRun_eq, pairs_settleAll (sound_compared mix minHeight a b)
    (settles_compared mix minHeight a b) (fun _ hc => mem_deferred_of_mem_queue hc),
    (trail_compared mix minHeight a b).pairs, committed, List.flatMap_append]

theorem mem_pairs_of_mem_committed (hc : c ∈ committed mix minHeight a b) :
    c ∈ (freshRun mix minHeight a b).pairs.toList := by
  rw [pairs_freshRun]
  exact List.mem_flatMap.2 ⟨c, hc, mem_lockstep_self c⟩

/-- The places of a candidate lie in no other one, so they are mapped only if they are committed. -/
theorem mem_committed_of_mem_pairs (side : Side) (hc : c ∈ found mix minHeight a b)
    (he : e ∈ (freshRun mix minHeight a b).pairs.toList) (heq : side.of e = side.of c) :
    e ∈ committed mix minHeight a b := by
  have hpair := he
  rw [pairs_freshRun] at hpair
  obtain ⟨block, hblock, hzip⟩ := List.mem_flatMap.1 hpair
  have hmem := mem_found_of_mem_committed hblock
  have hbelow : side.of c ∈ (side.of block).preOrder := by
    rw [← heq]
    exact Side.of_mem_preOrder hzip
  rcases ((trail_compared mix minHeight a b).on side).apart (side.of c) (List.mem_map_of_mem hc)
    (side.of block) (List.mem_map_of_mem hmem) with hsame | hout
  · rwa [(agrees_freshRun mix minHeight a b).eq_of_mem_pairs side he
      (mem_pairs_of_mem_committed hblock) (congrArg Place.id (heq.trans hsame))]
  · exact absurd hbelow (hout (side.of c) (Place.mem_preOrder_self (side.of c)))

theorem has_freshRun_iff (hc : c ∈ found mix minHeight a b) :
    (freshRun mix minHeight a b).has c.1 c.2 = true ↔ c ∈ committed mix minHeight a b := by
  obtain ⟨hs, hd⟩ := inside_found hc
  rw [(agrees_freshRun mix minHeight a b).has_iff hs hd]
  exact ⟨fun hpair => mem_committed_of_mem_pairs .src hc hpair rfl, mem_pairs_of_mem_committed⟩

theorem mem_taken : c ∈ taken mix minHeight a b ↔ c ∈ committed mix minHeight a b := by
  rw [taken, List.mem_filter]
  constructor
  · rintro ⟨hc, hhas⟩
    exact (has_freshRun_iff hc).1 hhas
  · intro hc
    have hfound := mem_found_of_mem_committed hc
    exact ⟨hfound, (has_freshRun_iff hfound).2 hc⟩

theorem nodup_taken : (taken mix minHeight a b).Nodup :=
  (trail_compared mix minHeight a b).nodup.filter _

theorem nodup_committed : (committed mix minHeight a b).Nodup := by
  have hroots : (committed mix minHeight a b).Sublist
      (freshRun mix minHeight a b).pairs.toList := by
    rw [pairs_freshRun]
    have hflat := List.Sublist.flatMap_right (l := committed mix minHeight a b) (f := fun c => [c])
      (g := lockstep) fun c _ => List.singleton_sublist.2 (mem_lockstep_self c)
    simpa using hflat
  exact hroots.nodup (List.Nodup.of_map _ (agrees_freshRun mix minHeight a b).src.distinct)

theorem committed_perm_taken : (committed mix minHeight a b).Perm (taken mix minHeight a b) :=
  (List.perm_ext_iff_of_nodup nodup_committed nodup_taken).2 fun _ => mem_taken.symm

/-- A candidate that is not taken gave way to one that was settled before it. -/
theorem exists_blocking (hc : c ∈ found mix minHeight a b) (hout : c ∉ taken mix minHeight a b) :
    ∃ e ∈ taken mix minHeight a b, (e.1 = c.1 ∨ e.2 = c.2) ∧
      ListedBefore (queue mix minHeight a b) e c := by
  rw [mem_taken] at hout
  have hdefer : isUnique (compared mix minHeight a b).store c = false := by
    by_contra hunique
    rw [Bool.not_eq_false] at hunique
    exact hout (List.mem_append_left _ (List.mem_filter.2 ⟨hc, hunique⟩))
  have hqueue := mem_queue.2 ⟨hc, hdefer⟩
  have hmem := mem_deferred_of_mem_queue hqueue
  have hsound := sound_compared mix minHeight a b
  have hsrc := hsound.src.free c.1 (List.mem_map_of_mem hmem) c.1 (Place.mem_preOrder_self c.1)
  have hdst := hsound.dst.free c.2 (List.mem_map_of_mem hmem) c.2 (Place.mem_preOrder_self c.2)
  rcases settled_or_blocked hsound (compared mix minHeight a b).store
    (fun _ he => mem_deferred_of_mem_queue he) hqueue with hin | hmapped | hmapped | hblocked
  · exact absurd (List.mem_append_right _ hin) hout
  · rw [isMappedSrc, hsrc] at hmapped
    cases hmapped
  · rw [isMappedDst, hdst] at hmapped
    cases hmapped
  · obtain ⟨e, he, hshared, hbefore⟩ := hblocked
    exact ⟨e, mem_taken.2 (List.mem_append_right _ he), hshared, hbefore⟩

theorem mem_groupOf {l : List (Place × Place)} (hl : ∀ e ∈ l, e ∈ found mix minHeight a b)
    (hc : c ∈ found mix minHeight a b) : e ∈ groupOf l c ↔ e ∈ l ∧ Alike c.1 e.1 := by
  rw [groupOf, List.mem_filter]
  apply and_congr_right
  intro he
  exact isomorphic_iff_shape_eq (inside_found hc).1 (inside_found (hl e he)).1

theorem countP_eq_length_dedup {α : Type} {l g : List α} {own other : α → Nat} {i : Nat}
    (hl : l.Nodup) (hinj : ∀ e ∈ l, ∀ e' ∈ l, own e = own e' → other e = other e' → e = e')
    (hmem : ∀ k, (∃ e ∈ l, own e = i ∧ other e = k) ↔ ∃ e ∈ g, other e = k) :
    l.countP (fun e => own e == i) = (g.map other).dedup.length := by
  rw [List.countP_eq_length_filter, ← List.length_map (f := other)]
  apply List.Perm.length_eq
  apply (List.perm_ext_iff_of_nodup ?_ (List.nodup_dedup _)).2
  · intro k
    rw [List.mem_dedup, List.mem_map, List.mem_map, ← hmem k]
    simp only [List.mem_filter, beq_iff_eq, and_assoc]
  · apply List.Nodup.map_on _ (hl.filter _)
    intro e he e' he' hother
    obtain ⟨he, hown⟩ := List.mem_filter.1 he
    obtain ⟨he', hown'⟩ := List.mem_filter.1 he'
    exact hinj e he e' he' ((beq_iff_eq.1 hown).trans (beq_iff_eq.1 hown').symm) hother

theorem alike_of_shared (side : Side) (hc : c ∈ found mix minHeight a b)
    (he : e ∈ found mix minHeight a b) (heq : side.of e = side.of c) : Alike c.1 e.1 := by
  have htrail := trail_compared mix minHeight a b
  cases side
  · exact congrArg (fun p : Place => p.node.shape) heq.symm
  · have hshape : Alike c.2 e.2 := congrArg (fun p : Place => p.node.shape) heq.symm
    exact (htrail.alike c hc).trans (hshape.trans (htrail.alike e he).symm)

theorem exists_crossed (side : Side) (hc : c ∈ found mix minHeight a b)
    (he : e ∈ found mix minHeight a b) (halike : Alike c.1 e.1) :
    ∃ x ∈ found mix minHeight a b,
      side.of x = side.of c ∧ side.other.of x = side.other.of e := by
  have htrail := trail_compared mix minHeight a b
  cases side
  · exact ⟨(c.1, e.2), htrail.whole c hc e he halike, rfl, rfl⟩
  · exact ⟨(e.1, c.2), htrail.whole e he c hc halike.symm, rfl, rfl⟩

def numbers (side : Side) (l : List (Place × Place)) : List Nat :=
  (l.map fun c => (side.of c).id).dedup

theorem times_compared (side : Side) (hc : c ∈ found mix minHeight a b) :
    ((side.marks (compared mix minHeight a b).store).lookup (side.of c).id).times =
      (numbers side.other (groupOf (found mix minHeight a b) c)).length := by
  have htrail := trail_compared mix minHeight a b
  rw [(htrail.on side).times _ (of_inside_found side hc), List.map_map, List.count, List.countP_map]
  apply countP_eq_length_dedup htrail.nodup
  · intro e he e' he' hown hother
    exact Side.eq_of_both
      (eq_of_id_eq (of_inside_found side he) (of_inside_found side he') hown)
      (eq_of_id_eq (of_inside_found side.other he) (of_inside_found side.other he') hother)
  · intro k
    constructor
    · rintro ⟨e, he, hid, rfl⟩
      have heq := eq_of_id_eq (of_inside_found side he) (of_inside_found side hc) hid
      exact ⟨e, (mem_groupOf (fun _ => id) hc).2 ⟨he, alike_of_shared side hc he heq⟩, rfl⟩
    · rintro ⟨e, he, rfl⟩
      obtain ⟨he, halike⟩ := (mem_groupOf (fun _ => id) hc).1 he
      obtain ⟨x, hx, hown, hother⟩ := exists_crossed side hc he halike
      exact ⟨x, hx, congrArg Place.id hown, congrArg Place.id hother⟩

theorem mem_found_of_mem_taken (hc : c ∈ taken mix minHeight a b) : c ∈ found mix minHeight a b :=
  (List.mem_filter.1 hc).1

theorem mem_groupOf_found (hc : c ∈ found mix minHeight a b)
    (he : e ∈ groupOf (taken mix minHeight a b) c) : e ∈ groupOf (found mix minHeight a b) c := by
  obtain ⟨he, halike⟩ := (mem_groupOf (fun _ => mem_found_of_mem_taken) hc).1 he
  exact (mem_groupOf (fun _ => id) hc).2 ⟨mem_found_of_mem_taken he, halike⟩

theorem mem_pairs_of_mem_groupOf (he : e ∈ groupOf (taken mix minHeight a b) c) :
    e ∈ (freshRun mix minHeight a b).pairs.toList :=
  mem_pairs_of_mem_committed (mem_taken.1 (List.mem_filter.1 he).1)

theorem numbers_subperm (side : Side) (hc : c ∈ found mix minHeight a b) :
    ((groupOf (taken mix minHeight a b) c).map fun e => (side.of e).id).Subperm
      (numbers side (groupOf (found mix minHeight a b) c)) := by
  apply List.Nodup.subperm
  · apply List.Nodup.map_on _ (nodup_taken.filter _)
    intro e he e' he'
    exact (agrees_freshRun mix minHeight a b).eq_of_mem_pairs side (mem_pairs_of_mem_groupOf he)
      (mem_pairs_of_mem_groupOf he')
  · intro i hi
    obtain ⟨e, he, rfl⟩ := List.mem_map.1 hi
    exact List.mem_dedup.2 (List.mem_map.2 ⟨e, mem_groupOf_found hc he, rfl⟩)

/-- As many candidates of a group are taken as the smaller of its two sides has places: a place of
either side without a partner would make a candidate that nothing blocks. -/
theorem length_groupOf_taken (hc : c ∈ found mix minHeight a b) :
    (groupOf (taken mix minHeight a b) c).length =
      min (sources (groupOf (found mix minHeight a b) c)).length
        (destinations (groupOf (found mix minHeight a b) c)).length := by
  have htrail := trail_compared mix minHeight a b
  apply length_eq_min_of_maximal (List.nodup_dedup _) (List.nodup_dedup _)
    (numbers_subperm .src hc) (numbers_subperm .dst hc)
  intro s hs d hd
  obtain ⟨e, he, rfl⟩ := List.mem_map.1 (List.mem_dedup.1 hs)
  obtain ⟨e', he', rfl⟩ := List.mem_map.1 (List.mem_dedup.1 hd)
  obtain ⟨he, halike⟩ := (mem_groupOf (fun _ => id) hc).1 he
  obtain ⟨he', halike'⟩ := (mem_groupOf (fun _ => id) hc).1 he'
  have hpair := htrail.whole e he e' he' (halike.symm.trans halike')
  have hgroup : ∀ x ∈ taken mix minHeight a b, Alike c.1 x.1 →
      x ∈ groupOf (taken mix minHeight a b) c := fun x hx hxc =>
    (mem_groupOf (fun _ => mem_found_of_mem_taken) hc).2 ⟨hx, hxc⟩
  by_cases htaken : (e.1, e'.2) ∈ taken mix minHeight a b
  · exact Or.inl (List.mem_map.2 ⟨_, hgroup _ htaken halike, rfl⟩)
  · obtain ⟨x, hx, hshared, -⟩ := exists_blocking hpair htaken
    rcases hshared with hfst | hsnd
    · have hxc : Alike c.1 x.1 := by rwa [hfst]
      exact Or.inl (List.mem_map.2 ⟨x, hgroup x hx hxc, congrArg Place.id hfst⟩)
    · have hxe : Alike x.1 x.2 := htrail.alike x (mem_found_of_mem_taken hx)
      have hxc : Alike c.1 x.1 := by
        rw [hsnd] at hxe
        exact halike'.trans ((htrail.alike e' he').trans hxe.symm)
      exact Or.inr (List.mem_map.2 ⟨x, hgroup x hx hxc, congrArg Place.id hsnd⟩)

theorem times_freshRun (side : Side) (mix : Mix) (minHeight : Nat) (a b : Ast) (id : Nat) :
    ((side.marks (freshRun mix minHeight a b)).lookup id).times =
      ((side.marks (compared mix minHeight a b).store).lookup id).times := by
  rw [freshRun_eq]
  apply foldl_rel (R := fun st st' =>
    ((side.marks st').lookup id).times = ((side.marks st).lookup id).times) (fun _ => rfl)
    (fun h g => g.trans h)
  intro c _ st
  rw [settle]
  split
  · exact (grows_linkSubtrees (List.mem_singleton_self (side.of c)) st).times id
  · rfl

end Fresh

/-- What is committed are the subtrees of the candidates that are taken. Of a group with so many
source and destination places, each place is counted once for every place of the other side, and as
many candidates are taken as the smaller side has places. A candidate that is not taken shares a
place with one that is, whose parents are at least as similar before anything was settled, and which
was found earlier if they are just as similar. -/
theorem freshRun_settles_ambiguous (mix : Mix) (minHeight : Nat) (a b : Ast) :
    (freshRun mix minHeight a b).pairs.toList.Perm ((taken mix minHeight a b).flatMap lockstep) ∧
    (∀ c ∈ found mix minHeight a b,
      ((freshRun mix minHeight a b).src.lookup c.1.id).times =
          (destinations (groupOf (found mix minHeight a b) c)).length ∧
        ((freshRun mix minHeight a b).dst.lookup c.2.id).times =
          (sources (groupOf (found mix minHeight a b) c)).length ∧
        (groupOf (taken mix minHeight a b) c).length =
          min (sources (groupOf (found mix minHeight a b) c)).length
            (destinations (groupOf (found mix minHeight a b) c)).length) ∧
    ∀ c ∈ found mix minHeight a b, c ∉ taken mix minHeight a b →
      ∃ e ∈ taken mix minHeight a b, (e.1 = c.1 ∨ e.2 = c.2) ∧
        ((compared mix minHeight a b).store.parentDice e.1 e.2).below
          ((compared mix minHeight a b).store.parentDice c.1 c.2) = false ∧
        (((compared mix minHeight a b).store.parentDice c.1 c.2).below
          ((compared mix minHeight a b).store.parentDice e.1 e.2) = false →
          ListedBefore (found mix minHeight a b) e c) := by
  have htrail := trail_compared mix minHeight a b
  refine ⟨?_, ?_, ?_⟩
  · rw [pairs_freshRun]
    exact committed_perm_taken.flatMap_right lockstep
  · intro c hc
    exact ⟨(times_freshRun .src mix minHeight a b c.1.id).trans (times_compared .src hc),
      (times_freshRun .dst mix minHeight a b c.2.id).trans (times_compared .dst hc),
      length_groupOf_taken hc⟩
  · intro c hc hout
    obtain ⟨e, he, hshared, hbefore⟩ := exists_blocking hc hout
    have hranks : ranks (compared mix minHeight a b).store e c = true :=
      ranks_of_listedBefore hbefore
    refine ⟨e, he, hshared, by simpa [ranks] using hranks, ?_⟩
    intro hequal
    have hdeferred : (compared mix minHeight a b).deferred.Sublist (found mix minHeight a b) := by
      rw [htrail.deferred]
      exact List.filter_sublist
    have hfirst := listedBefore_of_ranks (hdeferred.nodup htrail.nodup) hbefore
      (by simpa [ranks] using hequal)
    exact hfirst.trans hdeferred

end TopDown

namespace Doubled

def before : Ast := .node ⟨⟨"block", none⟩, none, 1⟩ [Moved.call]

def after : Ast := .node ⟨⟨"body", none⟩, none, 1⟩ [Moved.call, Moved.call]

end Doubled

namespace TopDown

/-- The call has two equals, counts twice, and the second of them finds no partner. -/
theorem freshRun_settles_ambiguous_doubled :
    ∃ c ∈ found Mix.standard 1 Doubled.before Doubled.after,
      c ∉ taken Mix.standard 1 Doubled.before Doubled.after ∧
      ((freshRun Mix.standard 1 Doubled.before Doubled.after).src.lookup c.1.id).times =
        (destinations (groupOf (found Mix.standard 1 Doubled.before Doubled.after) c)).length ∧
      ∃ e ∈ taken Mix.standard 1 Doubled.before Doubled.after, e.1 = c.1 ∨ e.2 = c.2 := by
  have hsecond : ((found Mix.standard 1 Doubled.before Doubled.after)[1]?.map fun c =>
      (freshRun Mix.standard 1 Doubled.before Doubled.after).has c.1 c.2) = some false := by
    cbv
  obtain ⟨c, hget, hhas⟩ := Option.map_eq_some_iff.1 hsecond
  have hc := List.mem_of_getElem? hget
  have hout : c ∉ taken Mix.standard 1 Doubled.before Doubled.after := by
    intro hin
    rw [(List.mem_filter.1 hin).2] at hhas
    cases hhas
  obtain ⟨-, htimes, hblocked⟩ :=
    freshRun_settles_ambiguous Mix.standard 1 Doubled.before Doubled.after
  obtain ⟨e, he, hshared, -⟩ := hblocked c hc hout
  exact ⟨c, hc, hout, (htimes c hc).1, e, he, hshared⟩

end TopDown

end Relocate.Matching
