import Relocate.Proofs.EditDistance.Distance

/-!
# Keyroots and siblings

Of all nodes on one leftmost leaf, the highest is the root or has a left sibling, and no other one
is or has: below it the way goes down into first children only. So the keyroots of a numbered tree
are its root and the nodes with a left sibling.
-/

set_option autoImplicit false

namespace Relocate

open Address

namespace Rose.Numbered

variable {α : Type} {t : Rose (Item α)} {k q : Nat} {x : Address}

theorem leftmost_first_child (h : t.Numbered) (hk : 1 ≤ k) (hn : k ≤ t.size) (hq : 1 ≤ q)
    (hqn : q ≤ t.size) (hxq : t.address q = x) (hxk : t.address k = x ++ [0]) :
    k < q ∧ t.leftmost q = t.leftmost k := by
  have hbelow : t.leftmost q ≤ k ∧ k < q := by
    rw [← h.above_iff hk hn hq hqn, hxq, hxk]
    exact above_iff_exists.2 ⟨0, [], rfl⟩
  have hle := h.leftmost_le_leftmost hk (Nat.le_of_lt hbelow.2) hqn hbelow.1
  refine ⟨hbelow.2, Nat.le_antisymm hle ?_⟩
  by_contra hlt
  have hkl := h.leftmost_le hk hn
  have hm := h.leftmost_pos hq hqn
  -- the first node below the parent is neither below the first child nor to its right
  obtain ⟨i, z, hz⟩ : ∃ i z, t.address (t.leftmost q) = x ++ i :: z := by
    rw [← above_iff_exists, ← hxq, h.above_iff hm (by omega) hq hqn]
    omega
  cases i with
  | zero =>
    cases z with
    | nil =>
      have := (h.address_inj hm (by omega) hk hn).1 (hz.trans hxk.symm)
      omega
    | cons j z =>
      have habove : Above (t.address k) (t.address (t.leftmost q)) := by
        rw [hxk, hz]
        exact above_iff_exists.2 ⟨j, z, by simp⟩
      have := (h.above_iff hm (by omega) hk hn).1 habove
      omega
  | succ i =>
    have hbefore : Before (t.address k) (t.address (t.leftmost q)) := by
      rw [hxk, hz]
      exact before_append (Nat.succ_pos i) x [] z
    have := (h.before_iff hk hn hm (by omega)).1 hbefore
    have := h.leftmost_le hm (by omega)
    omega

theorem leftmost_later_child (h : t.Numbered) (hk : 1 ≤ k) (hn : k ≤ t.size) (hqn : q ≤ t.size)
    {i : Nat} (hxk : t.address k = x ++ [i + 1]) (hkq : k < q) : t.leftmost q ≠ t.leftmost k := by
  intro hsame
  have hkl := h.leftmost_le hk hn
  have hmem : x ++ [i + 1] ∈ t.addresses := h.mem_addresses_iff.2 ⟨k, hk, hn, hxk⟩
  obtain ⟨s, hs, hsn, hxs⟩ := h.mem_addresses_iff.1 (mem_addresses_left hmem)
  have hbefore : Before (t.address s) (t.address k) := by
    rw [hxs, hxk]
    exact before_append (Nat.lt_succ_self i) x [] []
  have hleft := (h.before_iff hs hsn hk hn).1 hbefore
  have habove : Above (t.address q) (t.address k) :=
    (h.above_iff hk hn (by omega) hqn).2 ⟨by omega, hkq⟩
  -- so it is above the sibling on the left as well
  obtain ⟨j, z, hz⟩ := above_iff_exists.1 habove
  have habove' : Above (t.address q) (t.address s) := by
    rw [hxs, above_iff_exists]
    rw [hxk] at hz
    rcases List.eq_nil_or_concat z with rfl | ⟨z, m, rfl⟩
    · exact ⟨i, [], by rw [(List.append_inj' hz rfl).1]⟩
    · rw [List.concat_eq_append, ← List.cons_append, ← List.append_assoc] at hz
      exact ⟨j, z ++ [i], by rw [(List.append_inj' hz rfl).1, List.append_assoc]; rfl⟩
  have := (h.above_iff hs hsn (by omega) hqn).1 habove'
  omega

end Rose.Numbered

namespace EditDistance

variable {α : Type} {t : Rose (Item α)} {k : Nat}

theorem isKeyroot_iff_address (h : t.Numbered) (hk : 1 ≤ k) (hn : k ≤ t.size) :
    IsKeyroot t.size t.leftmost k ↔ t.address k = [] ∨ ∃ x i, t.address k = x ++ [i + 1] := by
  rcases eq_nil_or_first_or_later (t.address k) with hroot | ⟨x, hfirst⟩ | ⟨x, i, hlater⟩
  · refine ⟨fun _ => Or.inl hroot, fun _ => ⟨⟨hk, hn⟩, ?_⟩⟩
    -- nothing has a greater number than the root
    intro q hkq hqn
    exfalso
    have hne : t.address q ≠ [] := by
      rw [← hroot, ne_eq, h.address_inj (by omega) hqn hk hn]
      omega
    obtain ⟨j, z, hz⟩ := List.exists_cons_of_ne_nil hne
    have habove : Above (t.address k) (t.address q) := by
      rw [hroot, hz]
      exact nil_above_cons j z
    have := (h.above_iff (by omega) hqn hk hn).1 habove
    omega
  · have hmem : x ++ [0] ∈ t.addresses := h.mem_addresses_iff.2 ⟨k, hk, hn, hfirst⟩
    obtain ⟨q, hq, hqn, hxq⟩ := h.mem_addresses_iff.1 (Rose.mem_addresses_of_append hmem)
    obtain ⟨hkq, hsame⟩ := h.leftmost_first_child hk hn hq hqn hxq hfirst
    constructor
    · intro hkey
      exact absurd hsame (hkey.2 q hkq hqn)
    · rintro (hnil | ⟨y, i, hy⟩)
      · rw [hfirst] at hnil
        simp at hnil
      · rw [hfirst] at hy
        have := (List.append_inj' hy rfl).2
        simp at this
  · refine ⟨fun _ => Or.inr ⟨x, i, hlater⟩, fun _ => ⟨⟨hk, hn⟩, ?_⟩⟩
    intro q hkq hqn
    exact h.leftmost_later_child hk hn hqn hlater hkq

/-- In ascending order, the numbers of the root and of the nodes with a left sibling. -/
structure RootAndLaterChildren (A : Reduced) (roots : List Nat) : Prop where
  ascending : roots.Pairwise (· < ·)
  mem_iff : ∀ k, k ∈ roots ↔ ∃ x u, A.subtree? x = some u ∧ u.label.order = k ∧
    (x = [] ∨ ∃ y i, x = y ++ [i + 1])

theorem rootAndLaterChildren_keyroots {A : Reduced} (hA : A.Numbered) :
    RootAndLaterChildren A (keyroots A.items) where
  ascending := keyroots_sorted (listed_items hA)
  mem_iff := by
    intro k
    have hlist : keyroots A.items = keyroots A.items.toArray.toList := rfl
    have hsize : A.items.toArray.size = A.size := by
      simp [Reduced.items, Rose.length_postOrder]
    have hiff : k ∈ keyroots A.items.toArray.toList ↔
        IsKeyroot A.items.toArray.size A.leftmost k :=
      Tables.mem_keyroots_iff (listed_items hA) fun k => by simp [Rose.leftmost]
    rw [hsize] at hiff
    rw [hlist, hiff]
    constructor
    · intro hkey
      obtain ⟨u, hu, horder, haddress, -, -⟩ := hA.exists_spot hkey.1.1 hkey.1.2
      obtain ⟨v, hv, rfl⟩ := List.mem_map.1 hu
      refine ⟨v.1, v.2, (Rose.subtree?_eq_some_iff A v.2 v.1).2 hv, horder, ?_⟩
      rw [show v.1 = A.address k from haddress]
      exact (isKeyroot_iff_address hA hkey.1.1 hkey.1.2).1 hkey
    · rintro ⟨x, u, hu, rfl, hx⟩
      have hspot : (x, u.label) ∈ A.spots :=
        List.mem_map.2 ⟨(x, u), (Rose.subtree?_eq_some_iff A u x).1 hu, rfl⟩
      obtain ⟨⟨h1, hn⟩, haddress⟩ := hA.address_order hspot
      rw [isKeyroot_iff_address hA h1 hn, haddress]
      exact hx

end EditDistance

end Relocate
