import Relocate.Source.Derivation

/-!
# Stacks that share

A reader that follows several readings of a text at a time keeps a stack for each of them. Stacks
share what they have in common: a cell lies on one or more others, and each way down from it is a
stack. Two cells in the same state at the same place of the text are merged, since they can only
continue in the same way.
-/

set_option autoImplicit false

namespace Relocate.Source

structure Link where
  derivation : Derivation
  below : Nat
  deriving Inhabited

structure Cell where
  state : Nat
  links : List Link
  spot : Spot
  /-- The weight of all that lies below. -/
  weight : Nat
  deriving Inhabited

structure Stacks where
  cells : Array Cell

namespace Stacks

def base (state : Nat) (spot : Spot) : Stacks := ⟨#[⟨state, [], spot, 0⟩]⟩

def cell (s : Stacks) (i : Nat) : Cell := s.cells.getD i default

def push (s : Stacks) (below : Nat) (d : Derivation) (state : Nat) (spot : Spot) :
    Stacks × Nat :=
  let top := s.cells.size
  (⟨s.cells.push ⟨state, [⟨d, below⟩], spot, (s.cell below).weight + d.weight⟩⟩, top)

def maxWays : Nat := 64

def lower (s : Stacks) (ways : List (Nat × List Derivation)) : List (Nat × List Derivation) :=
  let go := fun (ds : List Derivation) (l : Link) => (l.below, l.derivation :: ds)
  let firsts := ways.flatMap fun (i, ds) => ((s.cell i).links.take 1).map (go ds)
  let others := ways.flatMap fun (i, ds) => ((s.cell i).links.drop 1).map (go ds)
  (firsts ++ others).take (max firsts.length maxWays)

def waysFrom (s : Stacks) : Nat → List (Nat × List Derivation) → List (Nat × List Derivation)
  | 0, ways => ways
  | n + 1, ways => waysFrom s n (s.lower ways)

def ways (s : Stacks) (n i : Nat) : List (Nat × List Derivation) := s.waysFrom n [(i, [])]

def cellsBelow (s : Stacks) : Nat → List Nat → List Nat
  | 0, is => is
  | n + 1, is => cellsBelow s n (is.flatMap fun i => (s.cell i).links.map Link.below)

/-! ## Merging -/

def meets (s : Stacks) (i j : Nat) : Bool :=
  (s.cell i).state == (s.cell j).state && (s.cell i).spot.offset == (s.cell j).spot.offset

def maxLinks : Nat := 8

def linkWeight (s : Stacks) (l : Link) : Nat := (s.cell l.below).weight + l.derivation.weight

def raise (s : Stacks) (i weight : Nat) : Stacks :=
  ⟨s.cells.modify i fun c => { c with weight := max c.weight weight }⟩

/-- A further way down from a cell. Where there is one like it already, to the same cell, the
heavier is kept, the first on a tie; to a cell that meets it, the two cells are merged. -/
def addLink : Nat → Stacks → Nat → Link → Stacks
  | 0, s, _, _ => s
  | fuel + 1, s, i, l =>
    let links := (s.cell i).links
    if l.below = i then s else
    let isKnown := fun (k : Link) =>
      k.derivation.isLike l.derivation && (k.below == l.below || s.meets k.below l.below)
    match links.findIdx? isKnown with
    | some n =>
      let known := links.getD n default
      if known.below = l.below then
        if known.derivation.weight < l.derivation.weight then
          ⟨s.cells.modify i fun c => { c with links := links.set n l, weight := s.linkWeight l }⟩
        else s
      else
        let merged := (s.cell l.below).links.foldl (fun s k => addLink fuel s known.below k) s
        merged.raise i (s.linkWeight l)
    | none =>
      if links.length < maxLinks then
        raise ⟨s.cells.modify i fun c => { c with links := links ++ [l] }⟩ i (s.linkWeight l)
      else s

def merge (s : Stacks) (i j : Nat) : Stacks :=
  (s.cell j).links.foldl (fun s l => addLink s.cells.size s i l) s

end Stacks

end Relocate.Source
