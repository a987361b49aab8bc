import Relocate.Matching.Matcher

/-!
# Where a line goes

A line of the old revision goes to the line of the new one that most of its mapped nodes lead to,
the lowest one on a tie. The anchor is the first of these nodes in commit order.
-/

set_option autoImplicit false

namespace Relocate.Vote

open Relocate.Matching

def ballots (pairs : List (Place × Place)) (line : Nat) : List Nat :=
  (pairs.filter (fun p => p.1.line == line)).map (fun p => p.2.line)

/-- More votes, or as many for a lower line. -/
def beats (votes : List Nat) (a b : Nat) : Bool :=
  votes.count b < votes.count a || (votes.count a == votes.count b && a < b)

def leader (votes : List Nat) (best : Option Nat) (line : Nat) : Option Nat :=
  match best with
  | none => some line
  | some b => if beats votes line b then some line else some b

def winner? (votes : List Nat) : Option Nat := votes.foldl (leader votes) none

def anchor? (pairs : List (Place × Place)) (line target : Nat) : Option Place :=
  (pairs.find? (fun p => p.1.line == line && p.2.line == target)).map Prod.snd

def ofLine? (r : Result) (line : Nat) : Option (Nat × Place) :=
  match winner? (ballots r.pairs line) with
  | some target => (anchor? r.pairs line target).map fun p => (target, p)
  | none => none

end Relocate.Vote
