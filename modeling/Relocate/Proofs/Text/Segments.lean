import Relocate.Text.Segments

/-!
# Names cut at their separators

A cut goes through each separator and nowhere else. So cutting a text that is put together of two
cuts the two, and a text without separators goes to the last part of what it is put behind.
-/

set_option autoImplicit false

namespace Relocate.Text

variable {sep c : Char} {cs s : List Char}

@[simp] theorem cut_cons_self (sep : Char) (cs : List Char) :
    cut sep (sep :: cs) = [] :: cut sep cs := by
  rw [cut, if_pos rfl]

theorem exists_cut_cons (h : c ≠ sep) (cs : List Char) :
    ∃ first rest, cut sep cs = first :: rest ∧ cut sep (c :: cs) = (c :: first) :: rest := by
  rw [cut, if_neg h]
  cases hcut : cut sep cs with
  | nil => exact absurd hcut (cut_ne_nil sep cs)
  | cons first rest => exact ⟨first, rest, rfl, rfl⟩

theorem cut_of_not_mem (h : sep ∉ cs) : cut sep cs = [cs] := by
  induction cs with
  | nil => rfl
  | cons c cs ih =>
    obtain ⟨hc, hcs⟩ := not_or.1 (mt List.mem_cons.2 h)
    obtain ⟨first, rest, hcut, hcons⟩ := exists_cut_cons (Ne.symm hc) cs
    rw [ih hcs] at hcut
    cases hcut
    exact hcons

theorem cut_append_cons (sep : Char) (a b : List Char) :
    cut sep (a ++ sep :: b) = cut sep a ++ cut sep b := by
  induction a with
  | nil => rw [List.nil_append, cut_cons_self, cut, List.singleton_append]
  | cons c a ih =>
    by_cases hc : c = sep
    · subst hc
      rw [List.cons_append, cut_cons_self, cut_cons_self, ih, List.cons_append]
    · obtain ⟨first, rest, hcut, hcons⟩ := exists_cut_cons hc (a ++ sep :: b)
      obtain ⟨first', rest', hcut', hcons'⟩ := exists_cut_cons hc a
      rw [ih, hcut', List.cons_append, List.cons.injEq] at hcut
      rw [List.cons_append, hcons, hcons', ← hcut.1, ← hcut.2, List.cons_append]

theorem exists_cut_append {b : List Char} (hb : sep ∉ b) (a : List Char) :
    ∃ front last, cut sep a = front ++ [last] ∧ cut sep (a ++ b) = front ++ [last ++ b] := by
  induction a with
  | nil => exact ⟨[], [], rfl, cut_of_not_mem hb⟩
  | cons c a ih =>
    obtain ⟨front, last, ha, hab⟩ := ih
    by_cases hc : c = sep
    · subst hc
      refine ⟨[] :: front, last, ?_, ?_⟩
      · rw [cut_cons_self, ha, List.cons_append]
      · rw [List.cons_append, cut_cons_self, hab, List.cons_append]
    · obtain ⟨first, rest, hcut, hcons⟩ := exists_cut_cons hc a
      obtain ⟨first', rest', hcut', hcons'⟩ := exists_cut_cons hc (a ++ b)
      rw [List.cons_append, hcons, hcons']
      rw [ha] at hcut
      rw [hab] at hcut'
      cases front with
      | nil =>
        cases hcut
        cases hcut'
        exact ⟨[], c :: last, rfl, rfl⟩
      | cons _ fronts =>
        cases hcut
        cases hcut'
        exact ⟨(c :: _) :: fronts, last, rfl, rfl⟩

theorem mem_cut_of_mem (h : c ∈ cs) : c = sep ∨ ∃ s ∈ cut sep cs, c ∈ s := by
  induction cs with
  | nil => cases h
  | cons d cs ih =>
    by_cases hd : d = sep
    · subst hd
      rw [cut_cons_self]
      rcases List.mem_cons.1 h with rfl | h
      · exact Or.inl rfl
      · apply (ih h).imp_right
        rintro ⟨s, hs, hc⟩
        exact ⟨s, List.mem_cons_of_mem _ hs, hc⟩
    · obtain ⟨first, rest, hcut, hcons⟩ := exists_cut_cons hd cs
      rw [hcons]
      rcases List.mem_cons.1 h with rfl | h
      · exact Or.inr ⟨_, List.mem_cons_self, List.mem_cons_self⟩
      · apply (ih h).imp_right
        rintro ⟨s, hs, hc⟩
        rw [hcut] at hs
        rcases List.mem_cons.1 hs with rfl | hs
        · exact ⟨_, List.mem_cons_self, List.mem_cons_of_mem _ hc⟩
        · exact ⟨s, List.mem_cons_of_mem _ hs, hc⟩

/-- Separators can be exchanged for others that are not there yet. -/
theorem cut_replace {a b : Char} (h : b ∉ cs) : cut b (replace a b cs) = cut a cs := by
  induction cs with
  | nil => rfl
  | cons c cs ih =>
    obtain ⟨hc, hcs⟩ := not_or.1 (mt List.mem_cons.2 h)
    have ih := ih hcs
    rw [replace] at ih ⊢
    rw [List.map_cons]
    by_cases hca : c = a
    · rw [if_pos hca, cut_cons_self, ih, hca, cut_cons_self]
    · obtain ⟨first, rest, hcut, hcons⟩ := exists_cut_cons hca cs
      obtain ⟨first', rest', hcut', hcons'⟩ := exists_cut_cons (Ne.symm hc)
        (cs.map fun c => if c = a then b else c)
      rw [ih, hcut, List.cons.injEq] at hcut'
      rw [if_neg hca, hcons', hcons, ← hcut'.1, ← hcut'.2]

end Relocate.Text
