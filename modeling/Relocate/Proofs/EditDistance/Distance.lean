import Relocate.Proofs.EditDistance.Keyroots
import Relocate.Proofs.EditDistance.Mapping

/-!
# The edit distance of reduced trees

The distance read off the completed tables is the least cost of an edit mapping.
-/

set_option autoImplicit false

namespace Relocate.EditDistance

variable {A B : Reduced}

theorem numbered_ofPlace (taken : Nat → Bool) (a : Place) :
    (Reduced.ofPlace taken a).Numbered :=
  Rose.numbered_numberPost _

theorem listed_items (hA : A.Numbered) : Listed A.items := by
  have h := hA.orders
  rw [Rose.length_spots] at h
  rw [Listed, Reduced.items, List.length_map, Rose.length_postOrder, ← h, ← Rose.map_snd_spots,
    List.map_map]
  rfl

theorem numbered_alignment (hA : A.Numbered) (hB : B.Numbered) :
    Tables.Numbered (alignment A B) where
  toOrdered := ordered_alignment hA hB
  srcListed := listed_items hA
  dstListed := listed_items hB

theorem leftmost_size (taken : Nat → Bool) (a : Place) :
    (Reduced.ofPlace taken a).leftmost (Reduced.ofPlace taken a).size = 1 := by
  generalize hA : Reduced.ofPlace taken a = A
  have hlast : (A.postOrder.map Rose.label)[A.size - 1]? = some A.label := by
    obtain ⟨l, cs⟩ := A
    have hlen := Rose.length_postOrder (.node l cs)
    simp only [Rose.postOrder, List.length_append, List.length_singleton] at hlen
    rw [← hlen, Rose.postOrder, Nat.add_sub_cancel, List.getElem?_map]
    simp
  rw [Rose.leftmost, hlast, ← hA]
  exact Rose.leftmost_numberPost 0 _

theorem distance_alignment (takenA takenB : Nat → Bool) (a b : Place) :
    (alignment (.ofPlace takenA a) (.ofPlace takenB b)).distance =
      (alignment (.ofPlace takenA a) (.ofPlace takenB b)).least
        1 (Reduced.ofPlace takenA a).size 1 (Reduced.ofPlace takenB b).size := by
  have hp := numbered_alignment (numbered_ofPlace takenA a) (numbered_ofPlace takenB b)
  have hs := Rose.size_pos (Reduced.ofPlace takenA a)
  have hd := Rose.size_pos (Reduced.ofPlace takenB b)
  rw [Tables.distance_eq_treeCost hp (by rwa [size_src_alignment]) (by rwa [size_dst_alignment]),
    Problem.treeCost, size_src_alignment, size_dst_alignment, srcLeftmost_alignment,
    dstLeftmost_alignment, leftmost_size, leftmost_size]

/-- The distance of two reduced trees is the least cost of an edit mapping between them. -/
theorem distance_isLeast_mappingCost (takenA takenB : Nat → Bool) (a b : Place) :
    IsLeast {c | ∃ M, EditMapping (Reduced.ofPlace takenA a) (Reduced.ofPlace takenB b) M ∧
        mappingCost (.ofPlace takenA a) (.ofPlace takenB b) M = c}
      (alignment (.ofPlace takenA a) (.ofPlace takenB b)).distance := by
  rw [distance_alignment]
  exact isLeast_least (numbered_ofPlace takenA a) (numbered_ofPlace takenB b)

end Relocate.EditDistance
