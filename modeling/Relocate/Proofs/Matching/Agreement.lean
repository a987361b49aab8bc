import Mathlib.Data.List.Perm.Subperm
import Mathlib.Logic.Relation
import Relocate.Matching.Matcher
import Relocate.Proofs.Tree.Nodes

/-!
# Agreement of pairs and marks

The marks of either tree and the list of committed pairs say the same: which nodes are mapped, and
where to. Everything that changes a store is made of four elementary steps, and each of them keeps
the two in agreement and the list a continuation of what it was.
-/

set_option autoImplicit false

namespace Relocate.Matching

namespace Marks

section Frame

variable {α : Type} {f : Mark → Mark} {g : Mark → α}

theorem lookup_adjust_frame (hf : ∀ k, g (f k) = g k) (m : Marks) (id other : Nat) :
    g ((m.adjust id f).lookup other) = g (m.lookup other) := by
  by_cases h : other < Array.size m
  · rw [lookup_adjust m id other f h]
    split
    · exact hf (m.lookup other)
    · rfl
  · have hsize := size_adjust m id f
    rw [lookup, lookup, Array.getElem?_eq_none (by omega), Array.getElem?_eq_none (by omega)]

theorem lookup_flagUpward_frame (hg : ∀ k, g (Mark.flagged k) = g k) (m : Marks)
    (ns : List Wrapped) (id : Nat) : g ((m.flagUpward ns).lookup id) = g (m.lookup id) := by
  induction ns generalizing m with
  | nil => rfl
  | cons n ns ih =>
    rw [flagUpward]
    split
    · rfl
    · rw [ih, lookup_adjust_frame hg]

end Frame

/-- The marks of a tree name the first places of the pairs as mapped, and the second ones as their
partners. -/
structure Records (T : Wrapped) (m : Marks) (pairs : List (Place × Place)) : Prop where
  size : Array.size m = T.size
  inside : ∀ pair ∈ pairs, pair.1 ∈ nodes T
  distinct : (pairs.map fun pair => pair.1.id).Nodup
  mapped : ∀ p ∈ nodes T, ((m.lookup p.id).isMapped = true ↔ ∃ q, (p, q) ∈ pairs)
  partner : ∀ p ∈ nodes T, ∀ q, ((m.lookup p.id).partner = some q ↔ (p, q) ∈ pairs)

namespace Records

variable {mix : Mix} {t : Ast} {T : Wrapped} {m m' : Marks} {pairs : List (Place × Place)}
  {p q : Place}

theorem blank (T : Wrapped) : (Marks.blank T).Records T [] where
  size := Array.size_replicate
  inside := by simp
  distinct := List.nodup_nil
  mapped := by
    intro p _
    simp [Marks.blank, lookup, Array.getElem?_replicate]
    split <;> rfl
  partner := by
    intro p _ q
    simp [Marks.blank, lookup, Array.getElem?_replicate]
    split <;> simp

theorem frame (h : m.Records T pairs) (hsize : Array.size m' = Array.size m)
    (hmapped : ∀ id, (m'.lookup id).isMapped = (m.lookup id).isMapped)
    (hpartner : ∀ id, (m'.lookup id).partner = (m.lookup id).partner) : m'.Records T pairs where
  size := hsize.trans h.size
  inside := h.inside
  distinct := h.distinct
  mapped := by
    intro p hp
    rw [hmapped, h.mapped p hp]
  partner := by
    intro p hp q
    rw [hpartner, h.partner p hp]

theorem flagUpward (h : m.Records T pairs) (ns : List Wrapped) :
    (m.flagUpward ns).Records T pairs :=
  h.frame (size_flagUpward m ns) (lookup_flagUpward_frame (fun _ => rfl) m ns)
    (lookup_flagUpward_frame (fun _ => rfl) m ns)

theorem bumped (h : m.Records T pairs) (id : Nat) : (m.adjust id Mark.bumped).Records T pairs :=
  h.frame (size_adjust m id _) (lookup_adjust_frame (f := Mark.bumped) (fun _ => rfl) m id)
    (lookup_adjust_frame (f := Mark.bumped) (fun _ => rfl) m id)

theorem not_mem_of_free (h : m.Records T pairs) (hp : p ∈ nodes T)
    (hfree : (m.lookup p.id).isMapped = false) (q : Place) : (p, q) ∉ pairs := by
  intro hq
  have := (h.mapped p hp).2 ⟨q, hq⟩
  rw [hfree] at this
  exact Bool.noConfusion this

theorem withPartner (h : m.Records (Rose.wrap mix t) pairs) (hp : p ∈ nodes (Rose.wrap mix t))
    (hfree : (m.lookup p.id).isMapped = false) (q : Place) :
    (m.adjust p.id (·.withPartner q)).Records (Rose.wrap mix t) (pairs ++ [(p, q)]) := by
  have hself : (m.adjust p.id (·.withPartner q)).lookup p.id = (m.lookup p.id).withPartner q := by
    have hlt := id_lt_size hp
    rw [lookup_adjust m p.id p.id _ (by rw [h.size, Rose.size_wrap]; exact hlt), if_pos rfl]
  -- numbers tell nodes apart, so no other mark changes
  have hother : ∀ r ∈ nodes (Rose.wrap mix t), r ≠ p →
      (m.adjust p.id (·.withPartner q)).lookup r.id = m.lookup r.id := by
    intro r hr hne
    exact lookup_adjust_of_ne m _ fun heq => hne (eq_of_id_eq hr hp heq.symm)
  refine ⟨(size_adjust m p.id _).trans h.size, ?_, ?_, ?_, ?_⟩
  · intro pair hpair
    rcases List.mem_append.1 hpair with hpair | hpair
    · exact h.inside pair hpair
    · rw [List.mem_singleton.1 hpair]
      exact hp
  · rw [List.map_append, List.nodup_append]
    refine ⟨h.distinct, List.nodup_singleton _, ?_⟩
    intro id hid other hmem heq
    obtain ⟨pair, hpair, rfl⟩ := List.mem_map.1 hid
    rw [List.map_singleton, List.mem_singleton] at hmem
    have hfst := eq_of_id_eq (h.inside pair hpair) hp (heq.trans hmem)
    exact h.not_mem_of_free hp hfree pair.2 (by rw [← hfst]; exact hpair)
  · intro r hr
    by_cases hrp : r = p
    · subst hrp
      rw [hself]
      simp [Mark.withPartner]
    · rw [hother r hr hrp, h.mapped r hr]
      simp [hrp]
  · intro r hr r'
    by_cases hrp : r = p
    · subst hrp
      rw [hself]
      simp [Mark.withPartner, h.not_mem_of_free hp hfree, eq_comm]
    · rw [hother r hr hrp, h.partner r hr]
      simp [hrp]

theorem nodup_fst (h : m.Records T pairs) : (pairs.map Prod.fst).Nodup := by
  apply List.Nodup.of_map Place.id
  rw [List.map_map]
  exact h.distinct

theorem length_eq_iff (h : m.Records (Rose.wrap mix t) pairs) :
    pairs.length = t.size ↔ ∀ p ∈ nodes (Rose.wrap mix t), (m.lookup p.id).isMapped = true := by
  have hsub : pairs.map Prod.fst ⊆ nodes (Rose.wrap mix t) := by
    intro p hp
    obtain ⟨pair, hpair, rfl⟩ := List.mem_map.1 hp
    exact h.inside pair hpair
  have hperm := List.subperm_of_subset h.nodup_fst hsub
  rw [← length_nodes mix t, ← List.length_map Prod.fst]
  constructor
  · intro hlen p hp
    have hmem := (hperm.perm_of_length_le (Nat.le_of_eq hlen.symm)).mem_iff.2 hp
    obtain ⟨⟨p, q⟩, hpair, rfl⟩ := List.mem_map.1 hmem
    exact (h.mapped p hp).2 ⟨q, hpair⟩
  · intro hall
    apply Nat.le_antisymm hperm.length_le
    apply List.Subperm.length_le
    apply List.subperm_of_subset (nodup_preOrder (root_mem_nodes _))
    intro p hp
    obtain ⟨q, hq⟩ := (h.mapped p hp).1 (hall p hp)
    exact List.mem_map.2 ⟨(p, q), hq, rfl⟩

end Records

end Marks

namespace Store

/-- Both trees' marks record the committed pairs. -/
structure Agrees (S D : Wrapped) (st : Store) : Prop where
  src : st.src.Records S st.pairs.toList
  dst : st.dst.Records D (st.pairs.toList.map Prod.swap)

/-- What everything that is done to a store consists of. -/
inductive Step (S D : Wrapped) : Store → Store → Prop where
  | commit {st : Store} {s d : Place} (hs : s ∈ nodes S) (hd : d ∈ nodes D)
      (h : st.admits s d = true) : Step S D st (st.commit s d)
  | markSrc (st : Store) (s : Place) : Step S D st (st.markSrc s)
  | markDst (st : Store) (d : Place) : Step S D st (st.markDst d)
  | bump (st : Store) (s d : Place) : Step S D st (st.bump s d)

def Reaches (S D : Wrapped) : Store → Store → Prop := Relation.ReflTransGen (Step S D)

/-- The steps of linking and of the two phases: they flag nothing but what is above a new pair. -/
inductive Move (S D : Wrapped) : Store → Store → Prop where
  | commit {st : Store} {s d : Place} (hs : s ∈ nodes S) (hd : d ∈ nodes D)
      (h : st.admits s d = true) : Move S D st (st.commit s d)
  | bump (st : Store) (s d : Place) : Move S D st (st.bump s d)

def Advances (S D : Wrapped) : Store → Store → Prop := Relation.ReflTransGen (Move S D)

theorem Move.step {S D : Wrapped} {st st' : Store} (h : Move S D st st') : Step S D st st' := by
  cases h with
  | commit hs hd hadmits => exact .commit hs hd hadmits
  | bump s d => exact .bump _ s d

theorem Advances.reaches {S D : Wrapped} {st st' : Store} (h : Advances S D st st') :
    Reaches S D st st' :=
  Relation.ReflTransGen.mono (fun _ _ => Move.step) _ _ h

theorem agrees_empty (S D : Wrapped) : (empty S D).Agrees S D where
  src := Marks.Records.blank S
  dst := Marks.Records.blank D

theorem admits_iff (st : Store) (s d : Place) :
    st.admits s d = true ↔ st.isMappedSrc s = false ∧ st.isMappedDst d = false := by
  rw [admits, Bool.and_eq_true, Bool.not_eq_true', Bool.not_eq_true']

section Agreement

variable {mix : Mix} {a b : Ast} {S D : Wrapped} {st st' : Store} {s d : Place}

theorem Agrees.commit (h : st.Agrees (Rose.wrap mix a) (Rose.wrap mix b))
    (hs : s ∈ nodes (Rose.wrap mix a)) (hd : d ∈ nodes (Rose.wrap mix b))
    (hadmits : st.admits s d = true) :
    (st.commit s d).Agrees (Rose.wrap mix a) (Rose.wrap mix b) := by
  obtain ⟨hfree, hfree'⟩ := (admits_iff st s d).1 hadmits
  refine ⟨?_, ?_⟩
  · rw [Store.commit, Array.toList_push]
    exact (h.src.withPartner hs hfree d).flagUpward s.above
  · rw [Store.commit, Array.toList_push, List.map_append]
    exact (h.dst.withPartner hd hfree' s).flagUpward d.above

theorem Agrees.step (h : st.Agrees (Rose.wrap mix a) (Rose.wrap mix b))
    (hstep : Step (Rose.wrap mix a) (Rose.wrap mix b) st st') :
    st'.Agrees (Rose.wrap mix a) (Rose.wrap mix b) := by
  cases hstep with
  | commit hs hd hadmits => exact h.commit hs hd hadmits
  | markSrc s => exact ⟨h.src.flagUpward _, h.dst⟩
  | markDst d => exact ⟨h.src, h.dst.flagUpward _⟩
  | bump s d => exact ⟨h.src.bumped s.id, h.dst.bumped d.id⟩

theorem Agrees.reaches (h : st.Agrees (Rose.wrap mix a) (Rose.wrap mix b))
    (hreach : Reaches (Rose.wrap mix a) (Rose.wrap mix b) st st') :
    st'.Agrees (Rose.wrap mix a) (Rose.wrap mix b) := by
  induction hreach with
  | refl => exact h
  | tail _ hstep ih => exact ih.step hstep

theorem Step.prefix_pairs (h : Step S D st st') : st.pairs.toList <+: st'.pairs.toList := by
  cases h with
  | commit hs hd hadmits =>
    rw [Store.commit, Array.toList_push]
    exact List.prefix_append _ _
  | markSrc s => exact List.prefix_rfl
  | markDst d => exact List.prefix_rfl
  | bump s d => exact List.prefix_rfl

theorem Reaches.prefix_pairs (h : Reaches S D st st') : st.pairs.toList <+: st'.pairs.toList := by
  induction h with
  | refl => exact List.prefix_rfl
  | tail _ hstep ih => exact ih.trans hstep.prefix_pairs

theorem Agrees.isMappedSrc_iff (h : st.Agrees S D) (hs : s ∈ nodes S) :
    st.isMappedSrc s = true ↔ ∃ d, (s, d) ∈ st.pairs.toList :=
  h.src.mapped s hs

theorem Agrees.isMappedDst_iff (h : st.Agrees S D) (hd : d ∈ nodes D) :
    st.isMappedDst d = true ↔ ∃ s, (s, d) ∈ st.pairs.toList := by
  rw [isMappedDst, h.dst.mapped d hd]
  simp

theorem Agrees.destinationOf?_eq_some_iff (h : st.Agrees S D) (hs : s ∈ nodes S) :
    st.destinationOf? s = some d ↔ (s, d) ∈ st.pairs.toList := by
  rw [destinationOf?, Mark.partner?]
  split
  · exact h.src.partner s hs d
  · rename_i hfree
    rw [h.src.mapped s hs] at hfree
    simp [not_exists.1 hfree d]

theorem Agrees.sourceOf?_eq_some_iff (h : st.Agrees S D) (hd : d ∈ nodes D) :
    st.sourceOf? d = some s ↔ (s, d) ∈ st.pairs.toList := by
  have hswap : (d, s) ∈ st.pairs.toList.map Prod.swap ↔ (s, d) ∈ st.pairs.toList := by simp
  rw [sourceOf?, Mark.partner?, ← hswap]
  split
  · exact h.dst.partner d hd s
  · rename_i hfree
    rw [h.dst.mapped d hd] at hfree
    simp only [reduceCtorEq, false_iff]
    exact not_exists.1 hfree s

theorem Agrees.has_iff (h : st.Agrees (Rose.wrap mix a) (Rose.wrap mix b))
    (hs : s ∈ nodes (Rose.wrap mix a)) (hd : d ∈ nodes (Rose.wrap mix b)) :
    st.has s d = true ↔ (s, d) ∈ st.pairs.toList := by
  rw [has]
  cases hdest : st.destinationOf? s with
  | none =>
    simp only [Bool.false_eq_true, false_iff]
    intro hmem
    rw [(h.destinationOf?_eq_some_iff hs).2 hmem] at hdest
    exact Option.some_ne_none d hdest
  | some q =>
    have hmem := (h.destinationOf?_eq_some_iff hs).1 hdest
    have hq : q ∈ nodes (Rose.wrap mix b) := h.dst.inside (q, s) (List.mem_map.2 ⟨_, hmem, rfl⟩)
    have hmapped : st.isMappedDst q = true := (h.isMappedDst_iff hq).2 ⟨s, hmem⟩
    simp only [hmapped, Bool.and_true, beq_iff_eq]
    constructor
    · intro hid
      rwa [← eq_of_id_eq hq hd hid]
    · intro hsd
      rw [(h.destinationOf?_eq_some_iff hs).2 hsd] at hdest
      rw [Option.some.inj hdest]

theorem Agrees.isComplete_iff (h : st.Agrees (Rose.wrap mix a) (Rose.wrap mix b)) :
    (Result.mk (Rose.wrap mix a) (Rose.wrap mix b) st).isComplete = true ↔
      (∀ s ∈ nodes (Rose.wrap mix a), st.isMappedSrc s = true) ∧
        ∀ d ∈ nodes (Rose.wrap mix b), st.isMappedDst d = true := by
  rw [Result.isComplete, Bool.and_eq_true, beq_iff_eq, beq_iff_eq, size, Rose.size_wrap,
    Rose.size_wrap]
  have hsrc := h.src.length_eq_iff
  have hdst := h.dst.length_eq_iff
  rw [List.length_map] at hdst
  exact and_congr hsrc hdst

end Agreement

end Store

end Relocate.Matching
