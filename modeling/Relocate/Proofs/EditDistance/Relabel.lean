import Relocate.Proofs.Tree.Relabel

/-!
# Scripts between relabelled trees

The tables and the script depend on an edit problem through its numbers only: how many nodes there
are, where their intervals begin and which nodes align for nothing. So relabelling both trees leaves
a script as it is, as long as it keeps apart what differs and together what is equal.
-/

set_option autoImplicit false

namespace Relocate.EditDistance

variable {α β : Type} {p : Problem α} {q : Problem β}

structure Problem.Similar (p : Problem α) (q : Problem β) : Prop where
  srcSize : p.src.size = q.src.size
  dstSize : p.dst.size = q.dst.size
  srcLeftmost : p.srcLeftmost = q.srcLeftmost
  dstLeftmost : p.dstLeftmost = q.dstLeftmost
  changeCost : p.changeCost = q.changeCost
  schedule : Tables.schedule p = Tables.schedule q

namespace Problem.Similar

variable (h : p.Similar q)

include h

theorem fillBlock_eq (i j : Nat) (t : Tables) : t.fillBlock p i j = t.fillBlock q i j := by
  have hcell : Tables.fillCell p = Tables.fillCell q := by
    funext li lj di dj t
    simp only [Tables.fillCell, h.srcLeftmost, h.dstLeftmost, h.changeCost]
  rw [Tables.fillBlock, Tables.fillBlock, hcell, h.srcLeftmost, h.dstLeftmost]

theorem complete_eq : Tables.complete p = Tables.complete q := by
  have hblank : Tables.blank p = Tables.blank q := by
    rw [Tables.blank, Tables.blank, h.srcSize, h.dstSize]
  have hfill : (fun (t : Tables) (ij : Nat × Nat) => t.fillBlock p ij.1 ij.2) =
      fun t ij => t.fillBlock q ij.1 ij.2 := by
    funext t ij
    exact h.fillBlock_eq ij.1 ij.2 t
  rw [Tables.complete, Tables.complete, h.schedule, hblank, hfill]

theorem traceBack_eq (t : Tables) (firstRow firstCol fuel row col : Nat) :
    traceBack p t firstRow firstCol fuel row col =
      traceBack q t firstRow firstCol fuel row col := by
  induction fuel generalizing row col with
  | zero => rfl
  | succ fuel ih =>
    rw [traceBack, traceBack, ih, ih, ih, ih, h.srcLeftmost, h.dstLeftmost, h.changeCost]

theorem readBlock_eq (t : Tables) (i j : Nat) : readBlock p t i j = readBlock q t i j := by
  rw [readBlock, readBlock, h.traceBack_eq, h.srcLeftmost, h.dstLeftmost]

theorem readPending_eq (fuel : Nat) (stack : List (Nat × Nat)) (t : Tables) :
    readPending p fuel stack t = readPending q fuel stack t := by
  induction fuel generalizing stack t with
  | zero => rfl
  | succ fuel ih =>
    cases stack with
    | nil => rfl
    | cons u stack =>
      obtain ⟨i, j⟩ := u
      simp only [readPending, h.fillBlock_eq, h.readBlock_eq, ih]

theorem script_eq : p.script = q.script := by
  rw [Problem.script, Problem.script, scriptFrom, scriptFrom, h.readPending_eq, h.complete_eq,
    h.srcSize, h.dstSize]

end Problem.Similar

theorem keyrootsFrom_map (f : α → β) (seen : List Nat) (items : List (Item α)) :
    keyrootsFrom seen (items.map (Item.map f)) = keyrootsFrom seen items := by
  induction items generalizing seen with
  | nil => rfl
  | cons i items ih =>
    rw [List.map_cons, keyrootsFrom, keyrootsFrom, ih, ih]
    rfl

theorem keyroots_map (f : α → β) (items : List (Item α)) :
    keyroots (items.map (Item.map f)) = keyroots items := by
  rw [keyroots, keyroots, ← List.map_reverse, keyrootsFrom_map]

namespace PlaceOp

def relabel (ρ : Relabelling) : PlaceOp → PlaceOp
  | delete s => delete (s.relabel ρ)
  | insert d => insert (d.relabel ρ)
  | change s d cost => change (s.relabel ρ) (d.relabel ρ) cost

theorem freePair?_relabel (ρ : Relabelling) (op : PlaceOp) :
    (op.relabel ρ).freePair? = op.freePair?.map (Prod.map (Place.relabel ρ) (Place.relabel ρ)) := by
  cases op with
  | delete s => rfl
  | insert d => rfl
  | change s d cost => cases cost <;> rfl

end PlaceOp

section Relabel

variable {ρ : Relabelling} {A B A' B' : Reduced}
  (hA : A'.items = A.items.map (Item.map (Place.relabel ρ)))
  (hB : B'.items = B.items.map (Item.map (Place.relabel ρ)))

include hA hB

theorem similar_alignment (hsame : ∀ s d : Place,
      (s.relabel ρ).node.sameContent (d.relabel ρ).node = s.node.sameContent d.node) :
    (alignment A B).Similar (alignment A' B') where
  srcSize := by simp [alignment, hA]
  dstSize := by simp [alignment, hB]
  srcLeftmost := by
    funext k
    simp only [Problem.srcLeftmost, alignment, List.getElem?_toArray, hA, List.getElem?_map]
    cases A.items[k - 1]? <;> rfl
  dstLeftmost := by
    funext k
    simp only [Problem.dstLeftmost, alignment, List.getElem?_toArray, hB, List.getElem?_map]
    cases B.items[k - 1]? <;> rfl
  changeCost := by
    funext i j
    simp only [Problem.changeCost, alignment, List.getElem?_toArray, hA, hB, List.getElem?_map]
    cases A.items[i - 1]? with
    | none => rfl
    | some x =>
      cases B.items[j - 1]? with
      | none => rfl
      | some y =>
        simp only [Option.map_some, Item.map, hsame]
        rfl
  schedule := by simp only [Tables.schedule, alignment, hA, hB, keyroots_map]

theorem placeOp?_relabel (op : EditOp) : placeOp? (alignment A' B') op =
    (placeOp? (alignment A B) op).map (PlaceOp.relabel ρ) := by
  cases op with
  | delete i =>
    simp only [placeOp?, alignment, List.getElem?_toArray, hA, List.getElem?_map, Option.map_map]
    rfl
  | insert j =>
    simp only [placeOp?, alignment, List.getElem?_toArray, hB, List.getElem?_map, Option.map_map]
    rfl
  | change i j cost =>
    simp only [placeOp?, alignment, List.getElem?_toArray, hA, hB, List.getElem?_map]
    cases A.items[i - 1]? <;> cases B.items[j - 1]? <;> rfl

theorem freePairs_relabel (hsame : ∀ s d : Place,
      (s.relabel ρ).node.sameContent (d.relabel ρ).node = s.node.sameContent d.node) :
    (placeScript (alignment A' B')).filterMap PlaceOp.freePair? =
      ((placeScript (alignment A B)).filterMap PlaceOp.freePair?).map
        (Prod.map (Place.relabel ρ) (Place.relabel ρ)) := by
  have hscript := (similar_alignment hA hB hsame).script_eq
  rw [placeScript, placeScript, ← hscript, List.filterMap_filterMap, List.filterMap_filterMap,
    List.map_filterMap]
  congr 1
  funext op
  rw [placeOp?_relabel hA hB]
  cases placeOp? (alignment A B) op with
  | none => rfl
  | some placed => exact PlaceOp.freePair?_relabel ρ placed

end Relabel

end Relocate.EditDistance
