import Relocate.EditDistance.Tables

/-!
# Edit scripts

A cheapest edit script, read off the steps of the forest table from the last cell backwards. Where
two subtrees are aligned as a block, the block is put on a stack and read later, after its part of
the table has been filled again.
-/

set_option autoImplicit false

namespace Relocate.EditDistance

variable {α : Type}

inductive EditOp where
  | delete (i : Nat)
  | insert (j : Nat)
  | change (i j : Nat) (cost : Nat)
  deriving DecidableEq, Inhabited

namespace EditOp

def cost : EditOp → Nat
  | delete _ => 1
  | insert _ => 1
  | change _ _ c => c

def freePair? : EditOp → Option (Nat × Nat)
  | change i j 0 => some (i, j)
  | _ => none

end EditOp

/-- What reading one block gives: operations, and the blocks met on the way. -/
structure Trace where
  ops : List EditOp := []
  blocks : List (Nat × Nat) := []
  deriving Inhabited

namespace Trace

def withOp (op : EditOp) (t : Trace) : Trace := { t with ops := op :: t.ops }

def withBlock (block : Nat × Nat) (t : Trace) : Trace := { t with blocks := block :: t.blocks }

end Trace

/-- Follows the steps back to the corner of the block. Every step lowers the row or the column, so
their sum is fuel enough. -/
def traceBack (p : Problem α) (t : Tables) (firstRow firstCol : Nat) : Nat → Nat → Nat → Trace
  | 0, _, _ => {}
  | fuel + 1, row, col =>
    if firstRow < row ∨ firstCol < col then
      match t.steps.get row col with
      | .start => {}
      | .delete =>
        (traceBack p t firstRow firstCol fuel (row - 1) col).withOp (.delete row)
      | .insert =>
        (traceBack p t firstRow firstCol fuel row (col - 1)).withOp (.insert col)
      | .change =>
        (traceBack p t firstRow firstCol fuel (row - 1) (col - 1)).withOp
          (.change row col (p.changeCost row col))
      | .block =>
        (traceBack p t firstRow firstCol fuel (p.srcLeftmost row - 1)
          (p.dstLeftmost col - 1)).withBlock (row, col)
    else {}

def readBlock (p : Problem α) (t : Tables) (i j : Nat) : Trace :=
  traceBack p t (p.srcLeftmost i - 1) (p.dstLeftmost j - 1) (i + j) i j

/-- Reads the blocks on the stack, each after filling it again; blocks met on the way go on top, the
one met last topmost. Every block yields an operation, so the number of nodes is fuel enough. -/
def readPending (p : Problem α) : Nat → List (Nat × Nat) → Tables → List EditOp × Tables
  | 0, _, t => ([], t)
  | _ + 1, [], t => ([], t)
  | fuel + 1, (i, j) :: stack, t =>
    let filled := t.fillBlock p i j
    let trace := readBlock p filled i j
    let (ops, last) := readPending p fuel (trace.blocks.reverse ++ stack) filled
    (trace.ops ++ ops, last)

def scriptFrom (p : Problem α) (t : Tables) : List EditOp × Tables :=
  readPending p (p.src.size + p.dst.size + 1) [(p.src.size, p.dst.size)] t

def Problem.script (p : Problem α) : List EditOp := (scriptFrom p (.complete p)).1

def scriptCost : List EditOp → Nat
  | [] => 0
  | op :: ops => op.cost + scriptCost ops

end Relocate.EditDistance
