import Mathlib.Data.List.Nodup
import Relocate.Tree.Rose

/-!
# Addresses in a tree

A node is addressed by the positions of the children on the way down to it. Two nodes are either one
above the other or side by side, and both relations can be read off their addresses alone, without
any numbering of the nodes.
-/

set_option autoImplicit false

namespace Relocate

abbrev Address := List Nat

namespace Address

/-- Strictly above: the second address goes on where the first one ends. -/
def Above : Address → Address → Prop
  | [], _ :: _ => True
  | i :: x, j :: y => i = j ∧ Above x y
  | _, [] => False

/-- To the left of and not above: where the two part, the first takes an earlier child. -/
def Before : Address → Address → Prop
  | i :: x, j :: y => i < j ∨ i = j ∧ Before x y
  | _, _ => False

@[simp] theorem above_nil (x : Address) : ¬ Above x [] := by
  cases x <;> simp [Above]

@[simp] theorem nil_above_cons (i : Nat) (x : Address) : Above [] (i :: x) := trivial

@[simp] theorem cons_above_cons (i j : Nat) (x y : Address) :
    Above (i :: x) (j :: y) ↔ i = j ∧ Above x y := Iff.rfl

@[simp] theorem nil_before (x : Address) : ¬ Before [] x := id

@[simp] theorem before_nil (x : Address) : ¬ Before x [] := by
  cases x <;> exact id

@[simp] theorem cons_before_cons (i j : Nat) (x y : Address) :
    Before (i :: x) (j :: y) ↔ i < j ∨ i = j ∧ Before x y := Iff.rfl

@[simp] theorem not_above_self (x : Address) : ¬ Above x x := by
  induction x with
  | nil => simp
  | cons i x ih => simpa using ih

@[simp] theorem not_before_self (x : Address) : ¬ Before x x := by
  induction x with
  | nil => simp
  | cons i x ih => simpa using ih

theorem above_iff_exists {x y : Address} : Above x y ↔ ∃ i z, y = x ++ i :: z := by
  induction x generalizing y with
  | nil => cases y <;> simp
  | cons i x ih =>
    cases y with
    | nil => simp
    | cons j y => simp [ih, eq_comm]

theorem before_append {i j : Nat} (h : i < j) (x y z : Address) :
    Before (x ++ i :: y) (x ++ j :: z) := by
  induction x with
  | nil => exact Or.inl h
  | cons k x ih => exact Or.inr ⟨rfl, ih⟩

theorem eq_nil_or_first_or_later (x : Address) :
    x = [] ∨ (∃ y, x = y ++ [0]) ∨ ∃ y i, x = y ++ [i + 1] := by
  rcases List.eq_nil_or_concat x with rfl | ⟨y, i, rfl⟩
  · exact Or.inl rfl
  · cases i with
    | zero => exact Or.inr (Or.inl ⟨y, List.concat_eq_append⟩)
    | succ i => exact Or.inr (Or.inr ⟨y, i, List.concat_eq_append⟩)

end Address

namespace Rose

open Address

variable {α β : Type}

def subtree? (t : Rose α) : Address → Option (Rose α)
  | [] => some t
  | i :: x => (t.children[i]?).bind (fun c => c.subtree? x)

mutual
def located : Rose α → List (Address × Rose α)
  | node a cs => locatedFrom 0 cs ++ [([], node a cs)]

def locatedFrom (first : Nat) : List (Rose α) → List (Address × Rose α)
  | [] => []
  | c :: cs => (located c).map (fun u => (first :: u.1, u.2)) ++ locatedFrom (first + 1) cs
end

def addresses (t : Rose α) : List Address := t.located.map Prod.fst

mutual
theorem map_snd_located : (t : Rose α) → t.located.map Prod.snd = t.postOrder
  | node a cs => by
    simp [located, postOrder, map_snd_locatedFrom 0 cs]

theorem map_snd_locatedFrom (first : Nat) :
    (cs : List (Rose α)) → (locatedFrom first cs).map Prod.snd = postOrderAll cs
  | [] => rfl
  | c :: cs => by
    have hc : (located c).map (Prod.snd ∘ fun u => (first :: u.1, u.2)) = c.postOrder :=
      map_snd_located c
    simp [locatedFrom, postOrderAll, hc, map_snd_locatedFrom (first + 1) cs]
end

mutual
theorem length_postOrder : (t : Rose α) → t.postOrder.length = t.size
  | node a cs => by
    simp only [postOrder, List.length_append, List.length_singleton, size,
      length_postOrderAll cs]
    omega

theorem length_postOrderAll :
    (cs : List (Rose α)) → (postOrderAll cs).length = totalSize cs
  | [] => rfl
  | c :: cs => by
    simp only [postOrderAll, List.length_append, totalSize, length_postOrder c,
      length_postOrderAll cs]
end

@[simp] theorem length_located (t : Rose α) : t.located.length = t.size := by
  rw [← length_postOrder, ← map_snd_located, List.length_map]

@[simp] theorem length_addresses (t : Rose α) : t.addresses.length = t.size := by
  simp [addresses]

theorem mem_locatedFrom {first : Nat} {cs : List (Rose α)} {u : Address × Rose α} :
    u ∈ locatedFrom first cs ↔
      ∃ i c x, cs[i]? = some c ∧ (x, u.2) ∈ c.located ∧ u.1 = (first + i) :: x := by
  induction cs generalizing first with
  | nil => simp [locatedFrom]
  | cons d ds ih =>
    simp only [locatedFrom, List.mem_append, List.mem_map, ih]
    constructor
    · rintro (⟨v, hv, rfl⟩ | ⟨i, c, x, hc, hx, hu⟩)
      · exact ⟨0, d, v.1, rfl, hv, rfl⟩
      · exact ⟨i + 1, c, x, hc, hx, by rw [hu, Nat.add_assoc, Nat.add_comm 1]⟩
    · rintro ⟨i, c, x, hc, hx, hu⟩
      cases i with
      | zero =>
        cases hc
        exact Or.inl ⟨(x, u.2), hx, by rw [show u = (u.1, u.2) from rfl, hu]; rfl⟩
      | succ i => exact Or.inr ⟨i, c, x, hc, hx, by rw [hu, Nat.add_assoc, Nat.add_comm 1]⟩

theorem subtree?_eq_some_iff (t s : Rose α) (x : Address) :
    t.subtree? x = some s ↔ (x, s) ∈ t.located := by
  induction x generalizing t with
  | nil =>
    obtain ⟨a, cs⟩ := t
    simp only [subtree?, located, List.mem_append, List.mem_singleton, mem_locatedFrom,
      Option.some.injEq, Prod.mk.injEq, true_and, eq_comm (a := s)]
    simp
  | cons i x ih =>
    obtain ⟨a, cs⟩ := t
    simp only [subtree?, located, List.mem_append, List.mem_singleton, mem_locatedFrom,
      Option.bind_eq_some_iff, ih, children_node, Nat.zero_add, List.cons.injEq]
    constructor
    · rintro ⟨c, hc, hx⟩
      exact Or.inl ⟨i, c, x, hc, hx, rfl, rfl⟩
    · rintro (⟨k, c, y, hc, hx, rfl, rfl⟩ | h)
      · exact ⟨c, hc, hx⟩
      · simp at h

section Paths

variable {t : Rose α} {x y : Address}

theorem subtree?_append (t : Rose α) (x y : Address) :
    t.subtree? (x ++ y) = (t.subtree? x).bind fun u => u.subtree? y := by
  induction x generalizing t with
  | nil => rfl
  | cons i x ih =>
    rw [List.cons_append, subtree?, subtree?, Option.bind_assoc]
    exact congrArg _ (funext fun c => ih c)

theorem mem_addresses_iff_isSome : x ∈ t.addresses ↔ (t.subtree? x).isSome := by
  rw [addresses, List.mem_map, Option.isSome_iff_exists]
  constructor
  · rintro ⟨u, hu, rfl⟩
    exact ⟨u.2, (subtree?_eq_some_iff t u.2 u.1).2 hu⟩
  · rintro ⟨s, hs⟩
    exact ⟨(x, s), (subtree?_eq_some_iff t s x).1 hs, rfl⟩

theorem mem_addresses_of_append (h : x ++ y ∈ t.addresses) : x ∈ t.addresses := by
  rw [mem_addresses_iff_isSome, subtree?_append, Option.isSome_bind] at h
  rw [mem_addresses_iff_isSome]
  cases hx : t.subtree? x with
  | none => rw [hx] at h; cases h
  | some u => rfl

theorem subtree?_singleton (t : Rose α) (i : Nat) : t.subtree? [i] = t.children[i]? := by
  cases h : t.children[i]? <;> simp [subtree?, h]

theorem mem_addresses_left {i : Nat} (h : x ++ [i + 1] ∈ t.addresses) :
    x ++ [i] ∈ t.addresses := by
  rw [mem_addresses_iff_isSome, subtree?_append] at h ⊢
  cases hx : t.subtree? x with
  | none => rw [hx] at h; cases h
  | some u =>
    rw [hx, Option.bind_some, subtree?_singleton, isSome_getElem?] at h
    rw [Option.bind_some, subtree?_singleton, isSome_getElem?]
    omega

end Paths

end Rose

end Relocate
