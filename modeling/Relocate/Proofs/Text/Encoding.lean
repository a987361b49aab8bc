import Mathlib.Tactic.SplitIfs
import Relocate.Text.Encoding

/-!
# Bytes of a text

A text stored in UTF-8 is read back as its characters, whatever they are. Reading bytes gives no
more symbols than there are bytes.
-/

set_option autoImplicit false

namespace Relocate.Text

namespace Utf8

def tail (n : Nat) : UInt8 := UInt8.ofNat (n % 64 + 128)

theorem toNat_tail (n : Nat) : (tail n).toNat = n % 64 + 128 :=
  UInt8.toNat_ofNat_of_lt' (show n % 64 + 128 < 256 by omega)

@[simp] theorem low_tail (n : Nat) : low (tail n) = n % 64 := by
  rw [low, toNat_tail]
  omega

@[simp] theorem isContinuation_tail (n : Nat) : isContinuation (tail n) = true := by
  simp [isContinuation, UInt8.le_iff_toNat_le, toNat_tail]
  omega

/-- A second byte is checked further only behind the four leads that do not take every one. -/
theorem isSecond_tail {lead : UInt8} {n : Nat} (hE0 : lead.toNat = 0xE0 → 32 ≤ n % 64)
    (hED : lead.toNat = 0xED → n % 64 < 32) (hF0 : lead.toNat = 0xF0 → 16 ≤ n % 64)
    (hF4 : lead.toNat = 0xF4 → n % 64 < 16) : isSecond lead (tail n) = true := by
  simp only [isSecond, beq_iff_eq, ← UInt8.toNat_inj]
  split_ifs with h1 h2 h3 h4
  · have := hE0 h1
    simp [UInt8.le_iff_toNat_le, toNat_tail]
    omega
  · have := hED h2
    simp [UInt8.le_iff_toNat_le, toNat_tail]
    omega
  · have := hF0 h3
    simp [UInt8.le_iff_toNat_le, toNat_tail]
    omega
  · have := hF4 h4
    simp [UInt8.le_iff_toNat_le, toNat_tail]
    omega
  · exact isContinuation_tail n

theorem head_eq (lead : UInt8) (rest : List UInt8) : head lead rest =
    if lead.toNat < 0x80 then .char (.ofNat lead.toNat) 1
    else if 0xC2 ≤ lead.toNat ∧ lead.toNat ≤ 0xDF then head2 lead rest
    else if 0xE0 ≤ lead.toNat ∧ lead.toNat ≤ 0xEF then head3 lead rest
    else if 0xF0 ≤ lead.toNat ∧ lead.toNat ≤ 0xF4 then head4 lead rest
    else .invalid 1 := by
  simp [head, UInt8.lt_iff_toNat_lt, UInt8.le_iff_toNat_le]

section

variable {lead : UInt8} {n : Nat} (rest : List UInt8)

theorem head_of_one (hlead : lead.toNat = n) (h : n < 0x80) :
    head lead rest = .char (.ofNat n) 1 := by
  rw [head_eq, hlead, if_pos h]

theorem head_of_two (hlead : lead.toNat = n / 64 + 0xC0) (hlow : 0x80 ≤ n) (h : n < 0x800) :
    head lead (tail n :: rest) = .char (.ofNat n) 2 := by
  have hsum : lead.toNat % 32 * 64 + n % 64 = n := by omega
  rw [head_eq, if_neg (by omega), if_pos (by omega)]
  simp [head2, hsum]

theorem head_of_three (hlead : lead.toNat = n / 4096 + 0xE0) (hlow : 0x800 ≤ n) (h : n < 0x10000)
    (hvalid : n < 0xD800 ∨ 0xDFFF < n) :
    head lead (tail (n / 64) :: tail n :: rest) = .char (.ofNat n) 3 := by
  have hsum : (lead.toNat % 16 * 64 + n / 64 % 64) * 64 + n % 64 = n := by omega
  have hsecond : isSecond lead (tail (n / 64)) = true := by
    apply isSecond_tail <;> omega
  rw [head_eq, if_neg (by omega), if_neg (by omega), if_pos (by omega)]
  simp [head3, hsecond, hsum]

theorem head_of_four (hlead : lead.toNat = n / 262144 + 0xF0) (hlow : 0x10000 ≤ n)
    (h : n < 0x110000) :
    head lead (tail (n / 4096) :: tail (n / 64) :: tail n :: rest) = .char (.ofNat n) 4 := by
  have hsum : ((lead.toNat % 8 * 64 + n / 4096 % 64) * 64 + n / 64 % 64) * 64 + n % 64 = n := by
    omega
  have hsecond : isSecond lead (tail (n / 4096)) = true := by
    apply isSecond_tail <;> omega
  rw [head_eq, if_neg (by omega), if_neg (by omega), if_neg (by omega), if_pos (by omega)]
  simp [head4, hsecond, hsum]

theorem head_utf8EncodeChar (c : Char) : ∃ lead bs, String.utf8EncodeChar c = lead :: bs ∧
    head lead (bs ++ rest) = .char c (bs.length + 1) := by
  have hvalid : c.toNat < 0xD800 ∨ 0xDFFF < c.toNat ∧ c.toNat < 0x110000 := c.valid
  have hnat : c.val.toNat = c.toNat := rfl
  have hchar : Char.ofNat c.toNat = c := Char.ofNat_toNat c
  have hbyte : ∀ {m k : Nat}, m = k → k < 256 → (UInt8.ofNat m).toNat = k := by
    intro m k hm hk
    rw [hm]
    exact UInt8.toNat_ofNat_of_lt' hk
  simp only [String.utf8EncodeChar, hnat]
  -- One case for each number of bytes.
  split_ifs
  · refine ⟨_, [], rfl, ?_⟩
    rw [List.nil_append, head_of_one rest (hbyte rfl (by omega)) (by omega), hchar]
    rfl
  · refine ⟨_, [tail c.toNat], rfl, ?_⟩
    have hlead := @hbyte (c.toNat / 64 % 32 + 192) (c.toNat / 64 + 192) (by omega) (by omega)
    exact (head_of_two rest hlead (by omega) (by omega)).trans (by rw [hchar]; rfl)
  · refine ⟨_, [tail (c.toNat / 64), tail c.toNat], rfl, ?_⟩
    have hlead := @hbyte (c.toNat / 4096 % 16 + 224) (c.toNat / 4096 + 224) (by omega) (by omega)
    exact (head_of_three rest hlead (by omega) (by omega) (by omega)).trans (by rw [hchar]; rfl)
  · refine ⟨_, [tail (c.toNat / 4096), tail (c.toNat / 64), tail c.toNat], rfl, ?_⟩
    have hlead := @hbyte (c.toNat / 262144 % 8 + 240) (c.toNat / 262144 + 240) (by omega) (by omega)
    exact (head_of_four rest hlead (by omega) (by omega)).trans (by rw [hchar]; rfl)

end

end Utf8

theorem toList_loop (bytes : ByteArray) (i : Nat) (r : List UInt8) :
    ByteArray.toList.loop bytes i r = r.reverse ++ bytes.data.toList.drop i := by
  fun_induction ByteArray.toList.loop bytes i r with
  | case1 i r h ih =>
    have hi : i < bytes.data.toList.length := h
    have hget : bytes.get! i = bytes.data.toList[i] := getElem!_pos bytes.data i h
    rw [ih, List.drop_eq_getElem_cons hi, hget]
    simp
  | case2 i r h =>
    have hi : bytes.data.toList.length ≤ i := Nat.le_of_not_lt h
    simp [List.drop_eq_nil_of_le hi]

theorem toList_toUTF8 (s : String) : s.toUTF8.toList = s.toList.flatMap String.utf8EncodeChar := by
  rw [ByteArray.toList, toList_loop, List.reverse_nil, List.nil_append, List.drop_zero,
    String.toUTF8_eq_toByteArray, ← String.utf8Encode_toList, List.utf8Encode,
    List.toList_data_toByteArray]

namespace Symbols

theorem ofBytes_nil : ofBytes [] = [] := by
  rw [ofBytes]

theorem ofBytes_utf8EncodeChar (c : Char) (rest : List UInt8) :
    ofBytes (String.utf8EncodeChar c ++ rest) = .char c :: ofBytes rest := by
  obtain ⟨lead, bs, hbytes, hhead⟩ := Utf8.head_utf8EncodeChar rest c
  rw [hbytes, List.cons_append, ofBytes, hhead]
  simp

theorem ofBytes_flatMap (cs : List Char) :
    ofBytes (cs.flatMap String.utf8EncodeChar) = ofChars cs := by
  induction cs with
  | nil => exact ofBytes_nil
  | cons c cs ih =>
    rw [List.flatMap_cons, ofBytes_utf8EncodeChar, ih]
    rfl

theorem ofBytes_toUTF8 (s : String) : ofBytes s.toUTF8.toList = ofString s := by
  rw [toList_toUTF8, ofBytes_flatMap, ofString]

theorem length_ofBytes_le (bs : List UInt8) : (ofBytes bs).length ≤ bs.length := by
  fun_induction ofBytes bs with
  | case1 => simp
  | case2 b rest c width h ih =>
    simp only [List.length_cons, List.length_drop] at ih ⊢
    omega
  | case3 b rest h ih => simpa using ih

theorem eq_ofChars_of_chars? {ss : List Symbol} {cs : List Char} (h : chars? ss = some cs) :
    ss = ofChars cs := by
  induction ss generalizing cs with
  | nil =>
    cases h
    rfl
  | cons s ss ih =>
    cases s with
    | stray b => simp [chars?, Symbol.char?] at h
    | char c =>
      simp only [chars?, List.mapM_cons, Symbol.char?, bind, pure, Option.bind_eq_some_iff,
        Option.some.injEq] at h ih
      obtain ⟨_, rfl, ds, hds, rfl⟩ := h
      rw [ih hds]
      rfl

end Symbols

end Relocate.Text
