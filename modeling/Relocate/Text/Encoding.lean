/-!
# UTF-8

Bytes are read as characters where they spell characters; a byte that belongs to none is kept as a
stray symbol, so nothing of the input is lost. A faulty text is described by the place of its first
fault and by how many bytes are wrong there, or as ending within a character.
-/

set_option autoImplicit false

namespace Relocate.Text

/-- A character, or a byte that belongs to none. -/
inductive Symbol where
  | char (c : Char)
  | stray (b : UInt8)
  deriving DecidableEq, Inhabited

namespace Symbol

def bytes : Symbol → List UInt8
  | char c => String.utf8EncodeChar c
  | stray b => [b]

def width (s : Symbol) : Nat := s.bytes.length

def char? : Symbol → Option Char
  | char c => some c
  | stray _ => none

end Symbol

inductive Head where
  | char (c : Char) (width : Nat)
  /-- So many bytes that start no character. -/
  | invalid (count : Nat)
  /-- The beginning of a character that the bytes do not finish. -/
  | incomplete
  deriving DecidableEq, Inhabited

namespace Utf8

def isContinuation (b : UInt8) : Bool := 0x80 ≤ b && b ≤ 0xBF

/-- Whether `b` may come second after `lead`: no overlong forms, no surrogates, nothing above
U+10FFFF. -/
def isSecond (lead b : UInt8) : Bool :=
  if lead == 0xE0 then 0xA0 ≤ b && b ≤ 0xBF
  else if lead == 0xED then 0x80 ≤ b && b ≤ 0x9F
  else if lead == 0xF0 then 0x90 ≤ b && b ≤ 0xBF
  else if lead == 0xF4 then 0x80 ≤ b && b ≤ 0x8F
  else isContinuation b

def low (b : UInt8) : Nat := b.toNat % 64

def head2 (lead : UInt8) : List UInt8 → Head
  | [] => .incomplete
  | b :: _ =>
    if isContinuation b then .char (.ofNat (lead.toNat % 32 * 64 + low b)) 2 else .invalid 1

def head3 (lead : UInt8) : List UInt8 → Head
  | [] => .incomplete
  | b :: rest =>
    if isSecond lead b then
      match rest with
      | [] => .incomplete
      | c :: _ =>
        if isContinuation c then .char (.ofNat ((lead.toNat % 16 * 64 + low b) * 64 + low c)) 3
        else .invalid 2
    else .invalid 1

def head4 (lead : UInt8) : List UInt8 → Head
  | [] => .incomplete
  | b :: rest =>
    if isSecond lead b then
      match rest with
      | [] => .incomplete
      | c :: rest =>
        if isContinuation c then
          match rest with
          | [] => .incomplete
          | d :: _ =>
            if isContinuation d then
              .char (.ofNat (((lead.toNat % 8 * 64 + low b) * 64 + low c) * 64 + low d)) 4
            else .invalid 3
        else .invalid 2
    else .invalid 1

def head (lead : UInt8) (rest : List UInt8) : Head :=
  if lead < 0x80 then .char (.ofNat lead.toNat) 1
  else if 0xC2 ≤ lead && lead ≤ 0xDF then head2 lead rest
  else if 0xE0 ≤ lead && lead ≤ 0xEF then head3 lead rest
  else if 0xF0 ≤ lead && lead ≤ 0xF4 then head4 lead rest
  else .invalid 1

/-- The first fault of a text: its byte index and its length, absent at an unfinished character. -/
structure Fault where
  index : Nat
  length : Option Nat
  deriving DecidableEq, Inhabited

namespace Fault

def message (f : Fault) : String :=
  match f.length with
  | some n => s!"invalid utf-8 sequence of {n} bytes from index {f.index}"
  | none => s!"incomplete utf-8 byte sequence from index {f.index}"

end Fault

def firstFaultFrom (index : Nat) : List UInt8 → Option Fault
  | [] => none
  | b :: rest =>
    match head b rest with
    | .char _ width => firstFaultFrom (index + width) (rest.drop (width - 1))
    | .invalid n => some ⟨index, some n⟩
    | .incomplete => some ⟨index, none⟩
termination_by bs => bs.length
decreasing_by simp only [List.length_drop, List.length_cons]; omega

def firstFault? (bs : List UInt8) : Option Fault := firstFaultFrom 0 bs

/-- Every fault read as one replacement character. -/
def lossyBytes : List UInt8 → List Char
  | [] => []
  | b :: rest =>
    match head b rest with
    | .char c width => c :: lossyBytes (rest.drop (width - 1))
    | .invalid n => '\uFFFD' :: lossyBytes (rest.drop (n - 1))
    | .incomplete => ['\uFFFD']
termination_by bs => bs.length
decreasing_by all_goals simp only [List.length_drop, List.length_cons]; omega

end Utf8

namespace Symbols

def ofChars (cs : List Char) : List Symbol := cs.map .char

def ofString (s : String) : List Symbol := ofChars s.toList

def ofBytes : List UInt8 → List Symbol
  | [] => []
  | b :: rest =>
    match Utf8.head b rest with
    | .char c width => .char c :: ofBytes (rest.drop (width - 1))
    | _ => .stray b :: ofBytes rest
termination_by bs => bs.length
decreasing_by
  · simp only [List.length_drop, List.length_cons]; omega
  · simp

def bytes (ss : List Symbol) : List UInt8 := ss.flatMap Symbol.bytes

def width : List Symbol → Nat
  | [] => 0
  | s :: ss => s.width + width ss

def chars? (ss : List Symbol) : Option (List Char) := ss.mapM Symbol.char?

def decode (ss : List Symbol) : Except Utf8.Fault (List Char) :=
  match chars? ss with
  | some cs => .ok cs
  | none => .error ((Utf8.firstFault? (bytes ss)).getD default)

def lossy (ss : List Symbol) : List Char :=
  match chars? ss with
  | some cs => cs
  | none => Utf8.lossyBytes (bytes ss)

@[simp] theorem chars?_ofChars (cs : List Char) : chars? (ofChars cs) = some cs := by
  induction cs with
  | nil => rfl
  | cons c cs ih =>
    simp only [chars?, ofChars] at ih
    simp [chars?, ofChars, Symbol.char?, ih]

@[simp] theorem decode_ofChars (cs : List Char) : decode (ofChars cs) = .ok cs := by
  simp [decode]

@[simp] theorem lossy_ofChars (cs : List Char) : lossy (ofChars cs) = cs := by
  simp [lossy]

@[simp] theorem ofChars_append (as bs : List Char) :
    ofChars (as ++ bs) = ofChars as ++ ofChars bs :=
  List.map_append

end Symbols

end Relocate.Text
