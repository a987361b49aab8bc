import Mathlib.Data.List.Induction
import Mathlib.Order.Lattice

/-!
# The first of the best

A scan that replaces what it has by what is better ends with the first of the best.
-/

set_option autoImplicit false

namespace Relocate

variable {α β : Type} [LinearOrder β] {key : α → β} {l : List α} {best x : α}

def IsFirstBest (key : α → β) (l : List α) (best : α) : Prop :=
  ∃ before after, l = before ++ best :: after ∧ (∀ x ∈ before, key x < key best) ∧
    ∀ x ∈ after, key x ≤ key best

namespace IsFirstBest

theorem mem (h : IsFirstBest key l best) : best ∈ l := by
  obtain ⟨before, after, rfl, -, -⟩ := h
  exact List.mem_append_right before List.mem_cons_self

theorem le (h : IsFirstBest key l best) (hx : x ∈ l) : key x ≤ key best := by
  obtain ⟨before, after, rfl, hbefore, hafter⟩ := h
  rcases List.mem_append.1 hx with hx | hx
  · exact le_of_lt (hbefore x hx)
  · rcases List.mem_cons.1 hx with rfl | hx
    · exact le_rfl
    · exact hafter x hx

theorem append_better (h : IsFirstBest key l best) (hx : key best < key x) :
    IsFirstBest key (l ++ [x]) x :=
  ⟨l, [], rfl, fun _ hy => lt_of_le_of_lt (h.le hy) hx, fun _ hy => absurd hy List.not_mem_nil⟩

theorem append_le (h : IsFirstBest key l best) (hx : key x ≤ key best) :
    IsFirstBest key (l ++ [x]) best := by
  obtain ⟨before, after, rfl, hbefore, hafter⟩ := h
  refine ⟨before, after ++ [x], by simp, hbefore, ?_⟩
  intro y hy
  rcases List.mem_append.1 hy with hy | hy
  · exact hafter y hy
  · rwa [List.mem_singleton.1 hy]

end IsFirstBest

def keepBest (better : α → α → Bool) (best : Option α) (x : α) : Option α :=
  match best with
  | none => some x
  | some kept => if better x kept then some x else some kept

theorem foldl_keepBest {better : α → α → Bool} (key : α → β) (hne : l ≠ [])
    (hkey : ∀ x ∈ l, ∀ y ∈ l, (better x y = true ↔ key y < key x)) :
    ∃ best, l.foldl (keepBest better) none = some best ∧ IsFirstBest key l best := by
  induction l using List.reverseRecOn with
  | nil => exact absurd rfl hne
  | append_singleton l x ih =>
    rw [List.foldl_append, List.foldl_cons, List.foldl_nil]
    by_cases hl : l = []
    · subst hl
      exact ⟨x, rfl, [], [], rfl, by simp, by simp⟩
    · obtain ⟨kept, hfold, hbest⟩ := ih hl fun y hy z hz =>
        hkey y (List.mem_append_left [x] hy) z (List.mem_append_left [x] hz)
      have hx := hkey x (by simp) kept (List.mem_append_left [x] hbest.mem)
      rw [hfold, keepBest]
      by_cases hbetter : better x kept = true
      · rw [if_pos hbetter]
        exact ⟨x, rfl, hbest.append_better (hx.1 hbetter)⟩
      · rw [if_neg hbetter]
        exact ⟨kept, rfl, hbest.append_le (not_lt.1 fun hlt => hbetter (hx.2 hlt))⟩

end Relocate
