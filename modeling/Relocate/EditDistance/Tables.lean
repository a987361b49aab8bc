import Relocate.EditDistance.Grid
import Relocate.Tree.Reduced

/-!
# Tree edit distance

The distance between two trees numbered in post-order, by dynamic programming over pairs of
keyroots. Deleting, inserting and relabelling a node cost 1, aligning equal nodes costs nothing. For
each pair of keyroots a block of the forest table is filled, with the step that led to each cell; a
cell that stands for two whole trees also settles the distance of these trees. Ties go to the
alignment, then to the deletion.
-/

set_option autoImplicit false

namespace Relocate.EditDistance

variable {α : Type}

/-- Two trees, each as its nodes in post-order, and when two nodes count as equal. -/
structure Problem (α : Type) where
  src : Array (Item α)
  dst : Array (Item α)
  same : α → α → Bool

inductive Step where
  | start
  | delete
  | insert
  /-- Both prefixes are whole trees and their roots are aligned. -/
  | change
  /-- The last subtrees of both forests are aligned as a block. -/
  | block
  deriving DecidableEq, Inhabited

structure Tables where
  /-- Distances of whole trees, by the numbers of their roots; absent until settled. -/
  trees : Grid (Option Nat)
  forests : Grid Nat
  steps : Grid Step
  deriving Inhabited

namespace Problem

def srcLeftmost (p : Problem α) (i : Nat) : Nat := (p.src[i - 1]?).elim 0 Item.leftmost

def dstLeftmost (p : Problem α) (j : Nat) : Nat := (p.dst[j - 1]?).elim 0 Item.leftmost

def changeCost (p : Problem α) (i j : Nat) : Nat :=
  match p.src[i - 1]?, p.dst[j - 1]? with
  | some a, some b => if p.same a.label b.label then 0 else 1
  | _, _ => 1

end Problem

/-- Numbers of the highest node of each leftmost leaf, reading the nodes from the last one on. -/
def keyrootsFrom (seen : List Nat) : List (Item α) → List Nat
  | [] => []
  | i :: rest =>
    if seen.contains i.leftmost then keyrootsFrom seen rest
    else i.order :: keyrootsFrom (i.leftmost :: seen) rest

def keyroots (items : List (Item α)) : List Nat := (keyrootsFrom [] items.reverse).reverse

def span (first last : Nat) : List Nat := List.range' first (last + 1 - first)

theorem mem_span {first last i : Nat} : i ∈ span first last ↔ first ≤ i ∧ i ≤ last := by
  simp only [span, List.mem_range'_1]; omega

namespace Tables

def blank (p : Problem α) : Tables where
  trees := .blank (p.src.size + 1) (p.dst.size + 1)
  forests := .blank (p.src.size + 1) (p.dst.size + 1)
  steps := .blank (p.src.size + 1) (p.dst.size + 1)

def setCell (t : Tables) (i j cost : Nat) (step : Step) : Tables :=
  { t with forests := t.forests.set i j cost, steps := t.steps.set i j step }

def setTree (t : Tables) (i j cost : Nat) : Tables :=
  { t with trees := t.trees.set i j (some cost) }

def treeDistance (t : Tables) (i j : Nat) : Nat := (t.trees.get i j).getD 0

/-- The cheapest of three ways to a cell; the first wins a tie, then the second. -/
def cheapest (align : Nat × Step) (delete insert : Nat) : Nat × Step :=
  let best := if delete < align.1 then (delete, Step.delete) else align
  if insert < best.1 then (insert, Step.insert) else best

def fillCell (p : Problem α) (li lj di dj : Nat) (t : Tables) : Tables :=
  let delete := t.forests.get (di - 1) dj + 1
  let insert := t.forests.get di (dj - 1) + 1
  if p.srcLeftmost di = li ∧ p.dstLeftmost dj = lj then
    let align := (t.forests.get (di - 1) (dj - 1) + p.changeCost di dj, Step.change)
    let (cost, step) := cheapest align delete insert
    (t.setCell di dj cost step).setTree di dj cost
  else
    let before := t.forests.get (p.srcLeftmost di - 1) (p.dstLeftmost dj - 1)
    let (cost, step) := cheapest (before + t.treeDistance di dj, Step.block) delete insert
    t.setCell di dj cost step

def fillBorder (li lj i j : Nat) (t : Tables) : Tables :=
  let corner := t.setCell (li - 1) (lj - 1) 0 .start
  let column := (span li i).foldl (fun t di =>
    t.setCell di (lj - 1) (t.forests.get (di - 1) (lj - 1) + 1) .delete) corner
  (span lj j).foldl (fun t dj =>
    t.setCell (li - 1) dj (t.forests.get (li - 1) (dj - 1) + 1) .insert) column

def fillBlock (p : Problem α) (i j : Nat) (t : Tables) : Tables :=
  let li := p.srcLeftmost i
  let lj := p.dstLeftmost j
  (span li i).foldl (fun t di =>
    (span lj j).foldl (fun t dj => fillCell p li lj di dj t) t) (fillBorder li lj i j t)

/-- All pairs of keyroots, the source's in the outer loop. -/
def schedule (p : Problem α) : List (Nat × Nat) :=
  (keyroots p.src.toList).flatMap fun i => (keyroots p.dst.toList).map fun j => (i, j)

def complete (p : Problem α) : Tables :=
  (schedule p).foldl (fun t ij => fillBlock p ij.1 ij.2 t) (blank p)

def distance (p : Problem α) (t : Tables) : Nat := t.treeDistance p.src.size p.dst.size

end Tables

def Problem.distance (p : Problem α) : Nat := (Tables.complete p).distance p

end Relocate.EditDistance
