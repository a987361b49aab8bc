/-!
# Blank characters

The white space of Unicode: the 25 code points with the property `White_Space`.
-/

set_option autoImplicit false

namespace Relocate.Text

def blankPoints : List Nat :=
  [0x9, 0xA, 0xB, 0xC, 0xD, 0x20, 0x85, 0xA0, 0x1680, 0x2000, 0x2001, 0x2002, 0x2003, 0x2004,
   0x2005, 0x2006, 0x2007, 0x2008, 0x2009, 0x200A, 0x2028, 0x2029, 0x202F, 0x205F, 0x3000]

def isBlank (c : Char) : Bool := blankPoints.contains c.toNat

example : blankPoints.length = 25 := rfl

def dropEnd (p : Char → Bool) (cs : List Char) : List Char :=
  (cs.reverse.dropWhile p).reverse

def trim (cs : List Char) : List Char := dropEnd isBlank (cs.dropWhile isBlank)

def allBlank (cs : List Char) : Bool := cs.all isBlank

def squeeze (cs : List Char) : List Char := cs.filter (fun c => !isBlank c)

end Relocate.Text
