import Relocate.Proofs.Matching.Support

/-!
# Mirrored stores

A store is diagonal when nodes are only mapped to nodes with their number. Linking nodes with one
number keeps it so, and leaves them mapped to each other. A store that mirrors two trees of one size
maps every node in this way, so the match is complete and the roots overlap entirely.
-/

set_option autoImplicit false

namespace Relocate.Matching

namespace Store

variable {mix : Mix} {a b : Ast} {st st' : Store} {s d : Place} {l : List (Place × Place)}

def Diagonal (st : Store) : Prop := ∀ pair ∈ st.pairs.toList, pair.1.id = pair.2.id

theorem Diagonal.adds (h : st.Diagonal) (hadds : Adds (fun s d => s.id = d.id) st st') :
    st'.Diagonal :=
  fun pair hpair => (hadds pair hpair).elim (h pair) fun hid => hid

/-- Two nodes with one number are mapped to each other, or one of them was before. -/
theorem Diagonal.mem_link (h : st.Diagonal)
    (hagrees : st.Agrees (Rose.wrap mix a) (Rose.wrap mix b)) (hs : s ∈ nodes (Rose.wrap mix a))
    (hd : d ∈ nodes (Rose.wrap mix b)) (hid : s.id = d.id) :
    (s, d) ∈ (st.link s d).pairs.toList := by
  rw [pairs_link]
  split
  · rw [Array.toList_push]
    exact List.mem_append_right _ (List.mem_singleton_self _)
  · rename_i hadmits
    rw [admits_iff, not_and_or, Bool.not_eq_false, Bool.not_eq_false] at hadmits
    rcases hadmits with hmapped | hmapped
    · obtain ⟨e, he⟩ := (hagrees.isMappedSrc_iff hs).1 hmapped
      have hinside : e ∈ nodes (Rose.wrap mix b) :=
        hagrees.dst.inside (e, s) (List.mem_map_of_mem he)
      rwa [← eq_of_id_eq hinside hd ((h (s, e) he).symm.trans hid)]
    · obtain ⟨e, he⟩ := (hagrees.isMappedDst_iff hd).1 hmapped
      have hinside := hagrees.src.inside (e, d) he
      rwa [← eq_of_id_eq hinside hs ((h (e, d) he).trans hid.symm)]

theorem Diagonal.linkAll (h : st.Diagonal)
    (hagrees : st.Agrees (Rose.wrap mix a) (Rose.wrap mix b))
    (hl : ∀ pair ∈ l, pair.1 ∈ nodes (Rose.wrap mix a) ∧ pair.2 ∈ nodes (Rose.wrap mix b))
    (hid : ∀ pair ∈ l, pair.1.id = pair.2.id) :
    (st.linkAll l).Diagonal ∧ ∀ pair ∈ l, pair ∈ (st.linkAll l).pairs.toList := by
  induction l generalizing st with
  | nil => exact ⟨h, fun _ hpair => absurd hpair List.not_mem_nil⟩
  | cons pair l ih =>
    obtain ⟨hs, hd⟩ := hl pair List.mem_cons_self
    have hreach := (advances_link st hs hd).reaches
    have hrest := fun other hother => hl other (List.mem_cons_of_mem pair hother)
    obtain ⟨hdiagonal, hmem⟩ :=
      ih (h.adds (Adds.link (hid pair List.mem_cons_self) st)) (hagrees.reaches hreach)
        hrest fun other hother => hid other (List.mem_cons_of_mem pair hother)
    refine ⟨hdiagonal, ?_⟩
    intro other hother
    rcases List.mem_cons.1 hother with rfl | hother
    · apply (advances_linkAll hrest (st.link other.1 other.2)).reaches.prefix_pairs.subset
      exact h.mem_link hagrees hs hd (hid other List.mem_cons_self)
    · exact hmem other hother

structure Mirrors (S D : Wrapped) (st : Store) : Prop where
  diagonal : st.Diagonal
  total : ∀ s ∈ nodes S, ∃ d, (s, d) ∈ st.pairs.toList

namespace Mirrors

variable (h : st.Mirrors (Rose.wrap mix a) (Rose.wrap mix b))
  (hagrees : st.Agrees (Rose.wrap mix a) (Rose.wrap mix b))

include h hagrees

theorem exists_destination (hs : s ∈ nodes (Rose.wrap mix a)) :
    ∃ d ∈ nodes (Rose.wrap mix b), d.id = s.id ∧ st.destinationOf? s = some d := by
  obtain ⟨d, hd⟩ := h.total s hs
  exact ⟨d, hagrees.dst.inside (d, s) (List.mem_map_of_mem hd), (h.diagonal (s, d) hd).symm,
    (hagrees.destinationOf?_eq_some_iff hs).2 hd⟩

theorem isComplete (hsize : a.size = b.size) :
    (Result.mk (Rose.wrap mix a) (Rose.wrap mix b) st).isComplete = true := by
  refine hagrees.isComplete_iff.2 ⟨fun s hs => (hagrees.isMappedSrc_iff hs).2 (h.total s hs), ?_⟩
  intro d hd
  have hid : d.id ∈ (nodes (Rose.wrap mix a)).map Place.id := by
    rw [map_id_nodes, hsize, ← map_id_nodes mix b]
    exact List.mem_map_of_mem hd
  obtain ⟨s, hs, hsd⟩ := List.mem_map.1 hid
  obtain ⟨e, he⟩ := h.total s hs
  have hinside : e ∈ nodes (Rose.wrap mix b) := hagrees.dst.inside (e, s) (List.mem_map_of_mem he)
  obtain rfl : e = d := eq_of_id_eq hinside hd ((h.diagonal (s, e) he).symm.trans hsd)
  exact (hagrees.isMappedDst_iff hd).2 ⟨s, he⟩

theorem dice_roots (hsize : a.size = b.size) (hn : 1 < a.size) :
    let roots := st.dice (Place.root (Rose.wrap mix a)) (Place.root (Rose.wrap mix b))
    roots.common = roots.total ∧ 0 < roots.total := by
  have hs : (Place.root (Rose.wrap mix a)).size = a.size := Rose.size_wrap mix a
  have hd : (Place.root (Rose.wrap mix b)).size = a.size := (Rose.size_wrap mix b).trans hsize.symm
  have hcommon : st.common (Place.root (Rose.wrap mix a)) (Place.root (Rose.wrap mix b)) =
      a.size - 1 := by
    have hlength := Place.length_descendants (Place.root (Rose.wrap mix a))
    rw [common, List.countP_eq_length.2, Nat.eq_sub_of_add_eq (hlength.trans hs)]
    intro p hp
    have hp' := Place.mem_preOrder_of_mem_descendants hp
    obtain ⟨q, hq, hid, hdest⟩ := h.exists_destination hagrees hp'
    have hbelow := (mem_descendants_iff_encloses (root_mem_nodes _) hp').1 hp
    rw [leadsInto, hdest]
    simp only [encloses, Bool.and_eq_true, decide_eq_true_eq, hid, hs, hd] at hbelow ⊢
    simpa [Place.id, Place.root, Rose.id_wrap] using hbelow
  intro roots
  have hroots : roots = ⟨2 * (a.size - 1), (a.size - 1) + (a.size - 1)⟩ := by
    simp only [roots, dice]
    rw [if_neg (by omega), hcommon, hs, hd]
  rw [hroots]
  simp only
  omega

end Mirrors

end Store

end Relocate.Matching
