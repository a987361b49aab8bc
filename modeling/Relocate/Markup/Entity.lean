import Relocate.Number.Unsigned
import Relocate.Text.Encoding

/-!
# Entities and character references

The five predefined entities, character references by number, and the escaping of text that uses
them. Positions count bytes.
-/

set_option autoImplicit false

namespace Relocate.Markup

open Relocate.Text

inductive ReferenceFault where
  | sign
  | empty
  | digit
  | tooLarge
  | zero
  | noCharacter (code : Nat)
  deriving DecidableEq, Inhabited

namespace ReferenceFault

def message : ReferenceFault → String
  | sign => "invalid character reference: unexpected number sign"
  | empty => "invalid character reference: cannot parse integer from empty string"
  | digit => "invalid character reference: invalid digit found in string"
  | tooLarge => "invalid character reference: number too large to fit in target type"
  | zero => "invalid character reference: 0x0 character is not permitted in XML"
  | noCharacter code => s!"invalid character reference: `{code}` is not a valid codepoint"

end ReferenceFault

inductive EscapeFault where
  /-- An unknown name from one byte of the text up to another. -/
  | unknown (first last : Nat) (name : String)
  /-- An ampersand at a byte of a text of some length, with no semicolon of its own. -/
  | unterminated (first last : Nat)
  | reference (fault : ReferenceFault)
  deriving DecidableEq, Inhabited

namespace EscapeFault

def message : EscapeFault → String
  | unknown first last name => s!"at {first}..{last}: unrecognized entity `{name}`"
  | unterminated first last =>
    s!"Error while escaping character at range {first}..{last}: Cannot find ';' after '&'"
  | reference fault => fault.message

end EscapeFault

def predefined? : List Char → Option Char
  | ['l', 't'] => some '<'
  | ['g', 't'] => some '>'
  | ['a', 'm', 'p'] => some '&'
  | ['a', 'p', 'o', 's'] => some '\''
  | ['q', 'u', 'o', 't'] => some '"'
  | _ => none

def digit? (base : Nat) (c : Char) : Option Nat :=
  let d :=
    if Number.isDigit c then c.toNat - '0'.toNat
    else if 'a' ≤ c && c ≤ 'f' then c.toNat - 'a'.toNat + 10
    else if 'A' ≤ c && c ≤ 'F' then c.toNat - 'A'.toNat + 10
    else base
  if d < base then some d else none

/-- Reads digits one by one; the first that is wrong or leaves 32 bits decides. -/
def readDigits (base value : Nat) : List Char → Except ReferenceFault Nat
  | [] => .ok value
  | c :: cs =>
    match digit? base c with
    | none => .error .digit
    | some d =>
      let next := value * base + d
      if next < 4294967296 then readDigits base next cs else .error .tooLarge

def readCode (base : Nat) (cs : List Char) : Except ReferenceFault Nat :=
  match cs with
  | [] => .error .empty
  | '+' :: _ => .error .sign
  | '-' :: _ => .error .sign
  | cs => readDigits base 0 cs

def charOf (code : Nat) : Except ReferenceFault Char :=
  if code = 0 then .error .zero
  else if code.isValidChar then .ok (.ofNat code)
  else .error (.noCharacter code)

def readReference (cs : List Char) : Except ReferenceFault Char :=
  match cs with
  | 'x' :: hex => (readCode 16 hex).bind charOf
  | cs => (readCode 10 cs).bind charOf

def byteLength : List Char → Nat
  | [] => 0
  | c :: cs => c.utf8Size + byteLength cs

def entityName? (cs : List Char) : Option (List Char × List Char) :=
  match cs.dropWhile (fun c => c != ';' && c != '&') with
  | ';' :: rest => some (cs.takeWhile (fun c => c != ';' && c != '&'), rest)
  | _ => none

theorem length_dropWhile_le {α : Type} (p : α → Bool) (cs : List α) :
    (cs.dropWhile p).length ≤ cs.length :=
  (List.dropWhile_sublist p).length_le

theorem length_lt_of_entityName? {cs name rest : List Char}
    (h : entityName? cs = some (name, rest)) : rest.length < cs.length := by
  have := length_dropWhile_le (fun c => c != ';' && c != '&') cs
  simp only [entityName?] at h
  split at h
  · rename_i heq
    cases h
    rw [heq] at this
    exact this
  · cases h

def resolveName (position : Nat) (name : List Char) : Except EscapeFault Char :=
  match name with
  | '#' :: number => (readReference number).mapError .reference
  | _ =>
    match predefined? name with
    | some c => .ok c
    | none => .error (.unknown position (position + byteLength name) (String.ofList name))

def unescapeFrom (total position : Nat) : List Char → Except EscapeFault (List Char)
  | [] => .ok []
  | c :: cs =>
    if c = '&' then
      match _h : entityName? cs with
      | some (name, rest) =>
        match resolveName (position + 1) name with
        | .ok r =>
          (unescapeFrom total (position + 2 + byteLength name) rest).map (r :: ·)
        | .error e => .error e
      | none => .error (.unterminated position total)
    else (unescapeFrom total (position + c.utf8Size) cs).map (c :: ·)
termination_by cs => cs.length
decreasing_by
  · have := length_lt_of_entityName? _h
    simp only [List.length_cons]; omega
  · simp

def unescape (cs : List Char) : Except EscapeFault (List Char) :=
  unescapeFrom (byteLength cs) 0 cs

def escapeChar (c : Char) : List Char :=
  if c = '<' then ['&', 'l', 't', ';']
  else if c = '>' then ['&', 'g', 't', ';']
  else if c = '&' then ['&', 'a', 'm', 'p', ';']
  else if c = '\'' then ['&', 'a', 'p', 'o', 's', ';']
  else if c = '"' then ['&', 'q', 'u', 'o', 't', ';']
  else [c]

def escape (cs : List Char) : List Char := cs.flatMap escapeChar

end Relocate.Markup
