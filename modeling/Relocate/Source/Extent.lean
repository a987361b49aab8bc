/-!
# Places in a text

Where tokens and nodes stand, and the place that a reader has come to. Lines count from 1,
characters from 0.
-/

set_option autoImplicit false

namespace Relocate.Source

structure Extent where
  line : Nat
  start : Nat
  stop : Nat
  deriving DecidableEq, Inhabited

namespace Extent

def through (first last : Extent) : Extent := { first with stop := last.stop }

end Extent

/-- Something in the text that has a name of its own and no parts. -/
structure Piece where
  kind : String
  extent : Extent
  deriving DecidableEq, Inhabited

/-- The next character, and all text from there on. -/
structure Spot where
  line : Nat
  offset : Nat
  rest : List Char
  deriving DecidableEq, Inhabited

namespace Spot

/-- The first place of a text. A byte order mark in front is passed over. -/
def ofText : List Char → Spot
  | '\uFEFF' :: source => ⟨1, 1, source⟩
  | source => ⟨1, 0, source⟩

def skip (n : Nat) (p : Spot) : Spot :=
  ⟨p.line + (p.rest.take n).count '\n', p.offset + n, p.rest.drop n⟩

def extent (n : Nat) (p : Spot) : Extent := ⟨p.line, p.offset, p.offset + n⟩

end Spot

end Relocate.Source
