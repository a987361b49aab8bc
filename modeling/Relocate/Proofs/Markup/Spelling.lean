import Relocate.Proofs.Markup.Pieces

/-!
# Spellings of text

One text can be written in many ways, piece by piece: plain, escaped, as character data, by the name
of an entity or by number, with comments and instructions anywhere between the pieces. A piece
carries what makes it a piece of its kind.
-/

set_option autoImplicit false

namespace Relocate.Markup

open Relocate.Text

def numeralFrom? (base value : Nat) (digits : List Char) : Option Nat :=
  digits.foldlM (fun n c => (digit? base c).map (n * base + ·)) value

theorem numeralFrom?_cons {base value n : Nat} {c : Char} {cs : List Char} :
    numeralFrom? base value (c :: cs) = some n ↔
      ∃ d, digit? base c = some d ∧ numeralFrom? base (value * base + d) cs = some n := by
  simp only [numeralFrom?, List.foldlM_cons]
  cases digit? base c <;> simp

theorem isSome_digit?_of_mem {base value n : Nat} {cs : List Char}
    (h : numeralFrom? base value cs = some n) {c : Char} (hc : c ∈ cs) :
    (digit? base c).isSome := by
  induction cs generalizing value with
  | nil => cases hc
  | cons d cs ih =>
    obtain ⟨m, hm, hcs⟩ := numeralFrom?_cons.1 h
    rcases List.mem_cons.1 hc with rfl | hc
    · rw [hm]
      rfl
    · exact ih hcs hc

/-- Digits are read as their number, if it has 32 bits. No number on the way is larger. -/
theorem readDigits_of_numeralFrom? {base value n : Nat} (hbase : 0 < base) {cs : List Char}
    (h : numeralFrom? base value cs = some n) (hn : n < 4294967296) :
    readDigits base value cs = .ok n ∧ value ≤ n := by
  induction cs generalizing value with
  | nil =>
    cases h
    exact ⟨rfl, Nat.le_refl _⟩
  | cons c cs ih =>
    obtain ⟨d, hd, hcs⟩ := numeralFrom?_cons.1 h
    obtain ⟨hread, hle⟩ := ih hcs
    have hvalue : value ≤ value * base := Nat.le_mul_of_pos_right value hbase
    refine ⟨?_, by omega⟩
    simp only [readDigits, hd, if_pos (show value * base + d < 4294967296 by omega), hread]

def numberName (hex : Bool) (digits : List Char) : List Char :=
  if hex then 'x' :: digits else digits

def numberBase (hex : Bool) : Nat := if hex then 16 else 10

/-- Any digits, lower or upper case, with any number of zeros in front. -/
structure IsNumberOf (hex : Bool) (digits : List Char) (c : Char) : Prop where
  numeral : numeralFrom? (numberBase hex) 0 digits = some c.toNat
  not_zero : c ≠ '\x00'

namespace IsNumberOf

variable {hex : Bool} {digits : List Char} {c : Char} (h : IsNumberOf hex digits c)

include h

theorem ne_of_mem {d e : Char} (hd : d ∈ digits) (he : digit? (numberBase hex) e = none) :
    d ≠ e := by
  rintro rfl
  have hsome := isSome_digit?_of_mem h.numeral hd
  rw [he] at hsome
  cases hsome

theorem toNat_ne_zero : c.toNat ≠ 0 := by
  intro hzero
  exact h.not_zero (Char.toNat_inj.1 hzero)

theorem ne_nil : digits ≠ [] := by
  rintro rfl
  exact h.toNat_ne_zero (Option.some.inj h.numeral).symm

theorem readCode : readCode (numberBase hex) digits = .ok c.toNat := by
  have hsmall : c.toNat < 4294967296 := c.val.toNat_lt
  have hbase : 0 < numberBase hex := by cases hex <;> decide
  have hread := (readDigits_of_numeralFrom? hbase h.numeral hsmall).1
  unfold Markup.readCode
  split
  · exact absurd rfl h.ne_nil
  · exact absurd rfl (h.ne_of_mem List.mem_cons_self (by cases hex <;> rfl))
  · exact absurd rfl (h.ne_of_mem List.mem_cons_self (by cases hex <;> rfl))
  · exact hread

theorem charOf : charOf c.toNat = .ok c := by
  rw [Markup.charOf, if_neg h.toNat_ne_zero, if_pos (show c.toNat.isValidChar from c.valid),
    Char.ofNat_toNat]

theorem readReference : readReference (numberName hex digits) = .ok c := by
  have hcode := congrArg (·.bind Markup.charOf) h.readCode
  simp only [Except.bind, h.charOf] at hcode
  unfold Markup.readReference
  cases hex with
  | true => exact hcode
  | false =>
    have hcs : numberName false digits = digits := rfl
    rw [hcs]
    split
    · exact absurd rfl (h.ne_of_mem List.mem_cons_self (by rfl))
    · exact hcode

end IsNumberOf

/-- A piece of text as it may be written, or a comment or an instruction between such pieces. -/
inductive TextPiece
  | escaped (cs : List Char)
  | plain (cs : List Char) (unmarked : ∀ c ∈ cs, isMark (.char c) = false)
  | data (cs : List Char) (unended : ¬ Symbols.ofString "]]>" <:+: Symbols.ofChars cs)
  | entity (c : Char) (name : List Char) (known : entity? c = some name)
  | number (c : Char) (hex : Bool) (digits : List Char) (spelled : IsNumberOf hex digits c)
  | comment (cs : List Char) (unended : ¬ Symbols.ofString "-->" <:+: Symbols.ofChars cs)
  | instruction (cs : List Char) (unended : ¬ Symbols.ofString "?>" <:+: Symbols.ofChars cs)
      (first : ∀ c ∈ cs.head?, c ≠ '>')

def between (front : String) (cs : List Char) (back : String) : List Char :=
  front.toList ++ (cs ++ back.toList)

theorem ofChars_between (front : String) (cs : List Char) (back : String) (rest : List Symbol) :
    Symbols.ofChars (between front cs back) ++ rest =
      Symbols.ofString front ++ (Symbols.ofChars cs ++ (Symbols.ofString back ++ rest)) := by
  simp only [between, Symbols.ofString, Symbols.ofChars_append, List.append_assoc]

namespace TextPiece

def written : TextPiece → List Char
  | escaped cs => escape cs
  | plain cs _ => cs
  | data cs _ => between "<![CDATA[" cs "]]>"
  | entity _ name _ => '&' :: (name ++ [';'])
  | number _ hex digits _ => '&' :: '#' :: (numberName hex digits ++ [';'])
  | comment cs _ => between "<!--" cs "-->"
  | instruction cs _ _ => between "<?" cs "?>"

def value : TextPiece → List Char
  | escaped cs => cs
  | plain cs _ => cs
  | data cs _ => cs
  | entity c _ _ => [c]
  | number c _ _ _ => [c]
  | comment _ _ => []
  | instruction _ _ _ => []

def writtenAll (ps : List TextPiece) : List Char := ps.flatMap written

def valueAll (ps : List TextPiece) : List Char := ps.flatMap value

end TextPiece

end Relocate.Markup
