import Relocate.Text.Blank

/-!
# Lines of a text

A line ends at a line feed; one carriage return directly before it belongs to the line end. A line
end at the very end of the text opens no further line.
-/

set_option autoImplicit false

namespace Relocate.Text

def withoutReturn (line : List Char) : List Char :=
  match line.reverse with
  | '\r' :: rest => rest.reverse
  | _ => line

/-- Reads lines; `current` holds the characters of the line being read, last first. -/
def linesFrom (current : List Char) : List Char → List (List Char)
  | [] => if current.isEmpty then [] else [current.reverse]
  | '\n' :: rest => withoutReturn current.reverse :: linesFrom [] rest
  | c :: rest => linesFrom (c :: current) rest

def lines (cs : List Char) : List (List Char) := linesFrom [] cs

def lineText? (source : String) (line : Nat) : Option String :=
  match line with
  | 0 => none
  | index + 1 => (lines source.toList)[index]?.map (fun cs => String.ofList (trim cs))

end Relocate.Text
