/-!
# Rectangular tables

A table of fixed size with total access: outside of it every cell reads as the default value, and
writing there changes nothing.
-/

set_option autoImplicit false

namespace Relocate

structure Grid (α : Type) where
  rows : Array (Array α)
  deriving Inhabited

namespace Grid

variable {α : Type}

def blank [Inhabited α] (height width : Nat) : Grid α :=
  ⟨.replicate height (.replicate width default)⟩

def get [Inhabited α] (g : Grid α) (i j : Nat) : α := ((g.rows[i]?).bind (·[j]?)).getD default

def set (g : Grid α) (i j : Nat) (a : α) : Grid α :=
  ⟨g.rows.modify i (·.setIfInBounds j a)⟩

def Has (g : Grid α) (i j : Nat) : Prop := ∃ row, g.rows[i]? = some row ∧ j < row.size

theorem has_set {g : Grid α} {i j k l : Nat} {a : α} : (g.set i j a).Has k l ↔ g.Has k l := by
  simp only [Has, set, Array.getElem?_modify]
  split
  · cases g.rows[k]? <;> simp
  · rfl

theorem get_set_self [Inhabited α] {g : Grid α} {i j : Nat} (a : α) (h : g.Has i j) :
    (g.set i j a).get i j = a := by
  obtain ⟨row, hrow, hj⟩ := h
  simp [get, set, Array.getElem?_modify, hrow, hj]

theorem get_set_of_ne [Inhabited α] {g : Grid α} {i j k l : Nat} (a : α) (h : (i, j) ≠ (k, l)) :
    (g.set i j a).get k l = g.get k l := by
  simp only [get, set, Array.getElem?_modify]
  split
  · rename_i hik
    subst hik
    have hjl : j ≠ l := fun e => h (by rw [e])
    cases g.rows[i]? with
    | none => rfl
    | some row => simp [hjl]
  · rfl

theorem has_blank [Inhabited α] {height width i j : Nat} :
    (blank height width : Grid α).Has i j ↔ i < height ∧ j < width := by
  simp only [Has, blank, Array.getElem?_replicate]
  split
  · simp_all
  · simp only [reduceCtorEq, false_and, exists_false, false_iff]; omega

end Grid

end Relocate
