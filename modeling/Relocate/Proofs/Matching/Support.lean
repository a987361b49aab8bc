import Relocate.Proofs.EditDistance.Reading
import Relocate.Proofs.Matching.Alike
import Relocate.Proofs.Matching.Threshold

/-!
# What speaks for a pair

Apart from the two roots, paired places are of one kind, and unless their values agree, too, their
similarity passes the threshold. A container pair passes it when it is committed, and every later
pair can only raise the similarity, so it still passes it in the end.
-/

set_option autoImplicit false

namespace Relocate

/-- A cheapest script aligns for nothing only what has the same content. -/
theorem EditDistance.content_eq_of_freePair? {takenA takenB : Nat → Bool} {a b : Place}
    {op : PlaceOp} (hop : op ∈ placeScript (alignment (.ofPlace takenA a) (.ofPlace takenB b)))
    {s d : Place} (h : op.freePair? = some (s, d)) : s.node.content = d.node.content := by
  obtain ⟨-, haligns⟩ := aligns_script (numbered_ofPlace takenA a) (numbered_ofPlace takenB b)
    (leftmost_size takenA a) (leftmost_size takenB b)
  obtain ⟨e, he, hplaced⟩ := List.mem_filterMap.1 hop
  obtain ⟨i, j, x, y, rfl, hx, hy, rfl, rfl⟩ := eq_change_of_freePair? hplaced h
  have hcost := haligns.costs i j 0 he
  rw [Problem.changeCost, hx, hy] at hcost
  simpa [alignment, Rose.sameContent] using hcost

namespace Matching

theorem mem_descendants_iff_encloses {mix : Mix} {t : Ast} {p q : Place}
    (hp : p ∈ nodes (Rose.wrap mix t)) (hq : q ∈ nodes (Rose.wrap mix t)) :
    q ∈ p.descendants ↔ encloses p q = true := by
  rw [encloses, Bool.and_eq_true, decide_eq_true_eq, decide_eq_true_eq]
  constructor
  · intro h
    have hmem := List.mem_map_of_mem (f := Place.id) h
    have hsize := p.node.size_pos
    rw [map_id_descendants hp, List.mem_range'_1] at hmem
    simp only [Place.size] at hmem ⊢
    omega
  · intro h
    have hmem := (mem_preOrder_iff_covers hp hq).2 ⟨Nat.le_of_lt h.1, h.2⟩
    rw [Place.preOrder_eq_cons_descendants, List.mem_cons] at hmem
    rcases hmem with rfl | hmem
    · exact absurd h.1 (Nat.lt_irrefl _)
    · exact hmem

theorem id_lt_of_mem_ancestors {mix : Mix} {t : Ast} {p q : Place}
    (hp : p ∈ nodes (Rose.wrap mix t)) (hq : q ∈ p.ancestors) : q.id < p.id := by
  obtain ⟨hq', hbelow⟩ := mem_nodes_of_mem_ancestors hp hq
  have h := (mem_descendants_iff_encloses hq' hp).1 hbelow
  rw [encloses, Bool.and_eq_true, decide_eq_true_eq] at h
  exact h.1

namespace Store

variable {mix : Mix} {a b : Ast} {S D : Wrapped} {st st' : Store} {s d p q : Place}

theorem Agrees.destinationOf?_mono (h : st.Agrees (Rose.wrap mix a) (Rose.wrap mix b))
    (hreach : Reaches (Rose.wrap mix a) (Rose.wrap mix b) st st')
    (hp : p ∈ nodes (Rose.wrap mix a)) (hq : st.destinationOf? p = some q) :
    st'.destinationOf? p = some q :=
  ((h.reaches hreach).destinationOf?_eq_some_iff hp).2
    (hreach.prefix_pairs.subset ((h.destinationOf?_eq_some_iff hp).1 hq))

theorem Agrees.common_mono (h : st.Agrees (Rose.wrap mix a) (Rose.wrap mix b))
    (hreach : Reaches (Rose.wrap mix a) (Rose.wrap mix b) st st')
    (hs : s ∈ nodes (Rose.wrap mix a)) (d : Place) : st.common s d ≤ st'.common s d := by
  apply List.countP_mono_left
  intro p hp hleads
  have hp' := mem_nodes_of_mem_descendants hs hp
  rw [leadsInto] at hleads ⊢
  split at hleads
  · rename_i q hq
    rwa [h.destinationOf?_mono hreach hp' hq]
  · cases hleads

theorem Agrees.dice_mono (h : st.Agrees (Rose.wrap mix a) (Rose.wrap mix b))
    (hreach : Reaches (Rose.wrap mix a) (Rose.wrap mix b) st st')
    (hs : s ∈ nodes (Rose.wrap mix a)) (d : Place) :
    (st.dice s d).common ≤ (st'.dice s d).common ∧ (st'.dice s d).total = (st.dice s d).total := by
  have hcommon := h.common_mono hreach hs d
  rw [dice, dice]
  split
  · exact ⟨Nat.le_refl _, rfl⟩
  · exact ⟨Nat.mul_le_mul_left 2 hcommon, rfl⟩

theorem dice_total_pos (st : Store) (s d : Place) : 0 < (st.dice s d).total := by
  have hs := s.node.size_pos
  rw [dice]
  split
  · exact Nat.one_pos
  · rename_i h
    simp only [Place.size] at h ⊢
    omega

theorem children_ne_nil_of_common_pos (h : 0 < (st.dice s d).common) :
    s.children ≠ [] ∧ d.children ≠ [] := by
  rw [dice] at h
  split at h
  · cases h
  · rename_i hsize
    rw [not_or] at hsize
    constructor
    · intro hnil
      exact hsize.1 (by rw [Place.size_eq, hnil, Place.totalSize])
    · intro hnil
      exact hsize.2 (by rw [Place.size_eq, hnil, Place.totalSize])

theorem common_pos (hp : p ∈ s.descendants) (hq : q ∈ d.descendants)
    (hdest : st.destinationOf? p = some q) (hencloses : encloses d q = true) :
    0 < (st.dice s d).common := by
  have hs := Place.length_descendants s
  have hd := Place.length_descendants d
  have hs' := List.length_pos_of_mem hp
  have hd' := List.length_pos_of_mem hq
  have hcount : 0 < st.common s d := by
    apply List.countP_pos_iff.2
    refine ⟨p, hp, ?_⟩
    rwa [leadsInto, hdest]
  rw [dice, if_neg (by omega)]
  exact Nat.mul_pos Nat.two_pos hcount

/-- What a pair needs unless it is the pair of the roots. -/
structure Supported (config : Config) (st : Store) (s d : Place) : Prop where
  kind : s.kind = d.kind
  overlaps : s.value ≠ d.value → 0 < (st.dice s d).common
  passes : s.value ≠ d.value → config.minDice.passes (st.dice s d) = true

variable {config : Config}

theorem Supported.of_content_eq (h : s.node.content = d.node.content) :
    Supported config st s d where
  kind := congrArg Content.kind h
  overlaps := fun hne => absurd (congrArg Content.value h) hne
  passes := fun hne => absurd (congrArg Content.value h) hne

theorem Supported.mono (hsupp : Supported config st s d)
    (h : st.Agrees (Rose.wrap mix a) (Rose.wrap mix b))
    (hreach : Reaches (Rose.wrap mix a) (Rose.wrap mix b) st st')
    (hs : s ∈ nodes (Rose.wrap mix a)) : Supported config st' s d where
  kind := hsupp.kind
  overlaps := fun hne =>
    Nat.lt_of_lt_of_le (hsupp.overlaps hne) (h.dice_mono hreach hs d).1
  passes := fun hne =>
    Threshold.passes_mono (h.dice_mono hreach hs d).2 (h.dice_mono hreach hs d).1
      (hsupp.passes hne)

structure Supports (config : Config) (S D : Wrapped) (st st' : Store) : Prop where
  reaches : Reaches S D st st'
  added : st.Agrees S D → Adds (fun s d => (s, d) = (Place.root S, Place.root D) ∨
    Supported config st' s d) st st'

theorem Supports.refl (st : Store) : Supports config S D st st := ⟨.refl, fun _ => Adds.refl st⟩

theorem Supports.trans {st'' : Store}
    (h : Supports config (Rose.wrap mix a) (Rose.wrap mix b) st st')
    (g : Supports config (Rose.wrap mix a) (Rose.wrap mix b) st' st'') :
    Supports config (Rose.wrap mix a) (Rose.wrap mix b) st st'' where
  reaches := h.reaches.trans g.reaches
  added := by
    intro hagrees pair hpair
    have hagrees' := hagrees.reaches h.reaches
    rcases g.added hagrees' pair hpair with hold | hnew
    · have hinside := hagrees'.src.inside pair hold
      rcases h.added hagrees pair hold with hold | hroots | hsupp
      · exact Or.inl hold
      · exact Or.inr (Or.inl hroots)
      · exact Or.inr (Or.inr (hsupp.mono hagrees' g.reaches hinside))
    · exact Or.inr hnew

theorem Supports.of_content_eq {f : Store → Store} (hreach : Reaches S D st (f st))
    (h : Adds (fun s d => s.node.content = d.node.content) st (f st)) :
    Supports config S D st (f st) where
  reaches := hreach
  added := fun _ pair hpair => (h pair hpair).imp_right fun hcontent =>
    Or.inr (Supported.of_content_eq hcontent)

end Store

end Matching

end Relocate
