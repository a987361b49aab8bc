/-!
# Steps that may fail

Where a result has been reached, every step on the way has succeeded, and what each step preserves
holds at the end.
-/

set_option autoImplicit false

namespace Relocate

theorem eq_of_bind_eq_ok {ε α β : Type} {f : α → Except ε β} {x : Except ε α} {b : β}
    (h : x.bind f = .ok b) : ∃ a, x = .ok a ∧ f a = .ok b := by
  cases x with
  | error e => cases h
  | ok a => exact ⟨a, rfl, h⟩

theorem eq_of_map_eq_ok {ε α β : Type} {f : α → β} {x : Except ε α} {b : β}
    (h : x.map f = .ok b) : ∃ a, x = .ok a ∧ f a = b := by
  cases x with
  | error e => cases h
  | ok a => exact ⟨a, rfl, Except.ok.inj h⟩

theorem foldlM_cons_eq_ok_iff {σ α ε : Type} {step : σ → α → Except ε σ} {a : α} {as : List α}
    {s t : σ} :
    (a :: as).foldlM step s = .ok t ↔ ∃ u, step s a = .ok u ∧ as.foldlM step u = .ok t := by
  rw [List.foldlM_cons]
  constructor
  · exact eq_of_bind_eq_ok
  · intro ⟨u, hu, hrest⟩
    rw [hu]
    exact hrest

theorem foldlM_append_eq_ok_iff {σ α ε : Type} {step : σ → α → Except ε σ} {as bs : List α}
    {s t : σ} : (as ++ bs).foldlM step s = .ok t ↔
      ∃ u, as.foldlM step s = .ok u ∧ bs.foldlM step u = .ok t := by
  rw [List.foldlM_append]
  constructor
  · exact eq_of_bind_eq_ok
  · intro ⟨u, hu, hrest⟩
    rw [hu]
    exact hrest

theorem foldlM_invariant {σ α ε : Type} {step : σ → α → Except ε σ} {P : σ → Prop}
    (hstep : ∀ s a s', P s → step s a = .ok s' → P s') {as : List α} {s s' : σ} (hs : P s)
    (h : as.foldlM step s = .ok s') : P s' := by
  induction as generalizing s with
  | nil =>
    cases h
    exact hs
  | cons a as ih =>
    obtain ⟨t, ha, ht⟩ := foldlM_cons_eq_ok_iff.1 h
    exact ih (hstep s a t hs ha) ht

theorem isSome_mapM {α β : Type} {f : α → Option β} {l : List α} (h : ∀ x ∈ l, (f x).isSome) :
    (l.mapM f).isSome := by
  induction l with
  | nil => rfl
  | cons x l ih =>
    obtain ⟨y, hy⟩ := Option.isSome_iff_exists.1 (h x List.mem_cons_self)
    obtain ⟨ys, hys⟩ := Option.isSome_iff_exists.1 (ih fun z hz => h z (List.mem_cons_of_mem x hz))
    simp [List.mapM_cons, hy, hys]

end Relocate
