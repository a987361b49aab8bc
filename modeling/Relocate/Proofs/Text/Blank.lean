import Mathlib.Data.List.DropRight
import Relocate.Text.Blank

/-!
# Trimming

Trimming twice is trimming once, and a text without white space is trimmed already.
-/

set_option autoImplicit false

namespace Relocate.Text

theorem dropEnd_eq_rdropWhile (p : Char → Bool) (cs : List Char) : dropEnd p cs = cs.rdropWhile p :=
  rfl

theorem dropWhile_dropEnd {p : Char → Bool} {cs : List Char} (h : cs.dropWhile p = cs) :
    (dropEnd p cs).dropWhile p = dropEnd p cs := by
  have hprefix : dropEnd p cs <+: cs := List.rdropWhile_prefix p cs
  rw [List.dropWhile_eq_self_iff] at h ⊢
  intro hpos
  have hcs : 0 < cs.length := Nat.lt_of_lt_of_le hpos hprefix.length_le
  have hsame : (dropEnd p cs)[0] = cs[0] := hprefix.getElem hpos
  rw [hsame]
  exact h hcs

theorem trim_trim (cs : List Char) : trim (trim cs) = trim cs := by
  have hfront : (trim cs).dropWhile isBlank = trim cs :=
    dropWhile_dropEnd (List.dropWhile_idempotent isBlank cs)
  rw [trim, hfront, trim, dropEnd_eq_rdropWhile, dropEnd_eq_rdropWhile]
  exact List.rdropWhile_idempotent isBlank _

theorem trim_of_not_isBlank {cs : List Char} (h : ∀ c ∈ cs, isBlank c = false) : trim cs = cs := by
  have hdrop : ∀ ds : List Char, (∀ c ∈ ds, isBlank c = false) → ds.dropWhile isBlank = ds := by
    intro ds hds
    cases ds with
    | nil => rfl
    | cons c ds => exact List.dropWhile_cons_of_neg (by simp [hds c List.mem_cons_self])
  rw [trim, hdrop cs h, dropEnd, hdrop cs.reverse fun c hc => h c (List.mem_reverse.1 hc),
    List.reverse_reverse]

def trimmed (text : String) : String := String.ofList (trim text.toList)

end Relocate.Text
