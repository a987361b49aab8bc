import Relocate.Markup.Entity
import Relocate.Markup.Event

/-!
# Attributes of a tag

Attributes are read one by one behind the name of a tag. White space between them is optional, a
value is in quotes, and no name comes twice. Positions count bytes of the tag's content. The first
fault ends the list, and the attributes before it stay.
-/

set_option autoImplicit false

namespace Relocate.Markup

open Relocate.Text

inductive AttributeFault where
  | expectedEquals (position : Nat)
  | expectedValue (position : Nat)
  | unquotedValue (position : Nat)
  | expectedQuote (position : Nat) (quote : Char)
  | duplicate (position previous : Nat)
  deriving DecidableEq, Inhabited

namespace AttributeFault

def message : AttributeFault → String
  | expectedEquals p =>
    s!"position {p}: attribute key must be directly followed by `=` or space"
  | expectedValue p => s!"position {p}: `=` must be followed by an attribute value"
  | unquotedValue p => s!"position {p}: attribute value must be enclosed in `\"` or `'`"
  | expectedQuote p q => s!"position {p}: missing closing quote `{q}` in attribute value"
  | duplicate p previous =>
    s!"position {p}: duplicated attribute, previous declaration at position {previous}"

end AttributeFault

structure Attribute where
  name : List Symbol
  /-- The text between the quotes, as written. -/
  value : List Symbol
  deriving DecidableEq, Inhabited

structure AttributeList where
  attributes : List Attribute := []
  fault : Option AttributeFault := none
  deriving DecidableEq, Inhabited

namespace AttributeList

def failed (f : AttributeFault) : AttributeList := { fault := some f }

def before (a : Attribute) (l : AttributeList) : AttributeList :=
  { l with attributes := a :: l.attributes }

structure Cursor where
  position : Nat
  rest : List Symbol
  deriving Inhabited

namespace Cursor

def skip (p : Symbol → Bool) (c : Cursor) : Cursor where
  position := c.position + Symbols.width (c.rest.takeWhile p)
  rest := c.rest.dropWhile p

def advance (c : Cursor) : Cursor where
  position := c.position + Symbols.width (c.rest.take 1)
  rest := c.rest.drop 1

def upTo (c : Cursor) (later : Cursor) : List Symbol :=
  c.rest.take (c.rest.length - later.rest.length)

theorem length_skip_le (p : Symbol → Bool) (c : Cursor) :
    (c.skip p).rest.length ≤ c.rest.length :=
  (List.dropWhile_sublist p).length_le

theorem length_advance_le (c : Cursor) : c.advance.rest.length ≤ c.rest.length := by
  simp only [advance, List.length_drop]; omega

theorem length_advance_lt {c : Cursor} (h : c.rest ≠ []) :
    c.advance.rest.length < c.rest.length := by
  have := List.length_pos_iff.2 h
  simp only [advance, List.length_drop]; omega

end Cursor

def isEquals (s : Symbol) : Bool := s == .char '='

def readName (total : Nat) (c : Cursor) : Except AttributeFault (List Symbol × Cursor) :=
  let behind := c.advance.skip (fun s => !isEquals s && !isSpace s)
  let equals := behind.skip isSpace
  match equals.rest with
  | [] => .error (.expectedEquals total)
  | s :: _ =>
    if isEquals s then .ok (c.upTo behind, equals) else .error (.expectedEquals equals.position)

def readValue (total : Nat) (equals : Cursor) : Except AttributeFault (List Symbol × Cursor) :=
  let opening := equals.advance.skip isSpace
  match opening.rest with
  | [] => .error (.expectedValue total)
  | s :: _ =>
    match s with
    | .char '"' | .char '\'' =>
      let inside := opening.advance
      let closing := inside.skip (fun t => t != s)
      match closing.rest with
      | [] => .error (.expectedQuote total (if s = .char '"' then '"' else '\''))
      | _ => .ok (inside.upTo closing, closing.advance)
    | _ => .error (.unquotedValue opening.position)

theorem readName_length {total : Nat} {c equals : Cursor} {name : List Symbol}
    (h : readName total c = .ok (name, equals)) :
    equals.rest.length ≤ c.rest.length ∧ equals.rest ≠ [] := by
  simp only [readName] at h
  split at h
  · cases h
  · rename_i s ss heq
    split at h
    · cases h
      refine ⟨Nat.le_trans (Cursor.length_skip_le _ _)
        (Nat.le_trans (Cursor.length_skip_le _ _) (Cursor.length_advance_le c)), ?_⟩
      rw [heq]; simp
    · cases h

theorem readValue_length {total : Nat} {equals c : Cursor} {value : List Symbol}
    (hne : equals.rest ≠ []) (h : readValue total equals = .ok (value, c)) :
    c.rest.length < equals.rest.length := by
  simp only [readValue] at h
  split at h
  · cases h
  · split at h
    · split at h
      · cases h
      · cases h
        exact Nat.lt_of_le_of_lt (Nat.le_trans (Cursor.length_advance_le _)
          (Nat.le_trans (Cursor.length_skip_le _ _) (Nat.le_trans (Cursor.length_advance_le _)
            (Cursor.length_skip_le _ _)))) (Cursor.length_advance_lt hne)
    · split at h
      · cases h
      · cases h
        exact Nat.lt_of_le_of_lt (Nat.le_trans (Cursor.length_advance_le _)
          (Nat.le_trans (Cursor.length_skip_le _ _) (Nat.le_trans (Cursor.length_advance_le _)
            (Cursor.length_skip_le _ _)))) (Cursor.length_advance_lt hne)
    · cases h

def positionOf? (name : List Symbol) (seen : List (List Symbol × Nat)) : Option Nat :=
  (seen.find? (fun s => s.1 == name)).map Prod.snd

/-- Reads attributes from the cursor on; `seen` holds the names before it and where they stand. -/
def readFrom (total : Nat) (seen : List (List Symbol × Nat)) (c : Cursor) : AttributeList :=
  let start := c.skip isSpace
  if start.rest = [] then {}
  else
    match _hn : readName total start with
    | .error f => failed f
    | .ok (name, equals) =>
      match positionOf? name seen with
      | some previous => failed (.duplicate start.position previous)
      | none =>
        match _hv : readValue total equals with
        | .error f => failed f
        | .ok (value, next) =>
          (readFrom total (seen ++ [(name, start.position)]) next).before ⟨name, value⟩
termination_by c.rest.length
decreasing_by
  have hname := readName_length _hn
  exact Nat.lt_of_lt_of_le (readValue_length hname.2 _hv)
    (Nat.le_trans hname.1 (Cursor.length_skip_le isSpace c))

end AttributeList

def StartTag.attributes (t : StartTag) : AttributeList :=
  AttributeList.readFrom (Symbols.width t.content) []
    ⟨Symbols.width t.name, t.content.drop t.name.length⟩

end Relocate.Markup
