import Relocate.Proofs.Tree.Address
import Relocate.Tree.Reduced

/-!
# Post-order numbers

In a tree numbered in post-order the nodes of a subtree are an interval: it starts at the subtree's
leftmost leaf and ends at its root. So the numbers and the leftmost leaves alone tell which of two
nodes is above the other and which is to the left, and the items in post-order give the whole tree.
-/

set_option autoImplicit false

namespace Relocate

open Address

variable {α : Type}

/-- Items listed from number `next + 1` on, each with an address that agrees with its interval. -/
structure Spread (next : Nat) (L : List (Address × Item α)) : Prop where
  orders : L.map (fun u => u.2.order) = List.range' (next + 1) L.length
  bounds : ∀ u ∈ L, next < u.2.leftmost ∧ u.2.leftmost ≤ u.2.order
  nested : ∀ u ∈ L, ∀ v ∈ L, v.2.leftmost ≤ u.2.order → u.2.order ≤ v.2.order →
    v.2.leftmost ≤ u.2.leftmost
  above : ∀ u ∈ L, ∀ v ∈ L,
    (Above v.1 u.1 ↔ v.2.leftmost ≤ u.2.order ∧ u.2.order < v.2.order)
  before : ∀ u ∈ L, ∀ v ∈ L, (Before u.1 v.1 ↔ u.2.order < v.2.leftmost)

namespace Spread

variable {next : Nat} {L K : List (Address × Item α)}

theorem order_le (h : Spread next L) {u : Address × Item α} (hu : u ∈ L) :
    u.2.order ≤ next + L.length := by
  have hm : u.2.order ∈ L.map (fun u => u.2.order) := List.mem_map_of_mem hu
  rw [h.orders, List.mem_range'_1] at hm
  omega

theorem nil : Spread next ([] : List (Address × Item α)) where
  orders := rfl
  bounds := by simp
  nested := by simp
  above := by simp
  before := by simp

theorem under (h : Spread next L) (k : Nat) : Spread next (L.map fun u => (k :: u.1, u.2)) where
  orders := by
    rw [List.map_map, List.length_map]
    exact h.orders
  bounds := by
    intro u hu
    obtain ⟨v, hv, rfl⟩ := List.mem_map.1 hu
    exact h.bounds v hv
  nested := by
    intro u hu v hv
    obtain ⟨x, hx, rfl⟩ := List.mem_map.1 hu
    obtain ⟨y, hy, rfl⟩ := List.mem_map.1 hv
    exact h.nested x hx y hy
  above := by
    intro u hu v hv
    obtain ⟨x, hx, rfl⟩ := List.mem_map.1 hu
    obtain ⟨y, hy, rfl⟩ := List.mem_map.1 hv
    simpa using h.above x hx y hy
  before := by
    intro u hu v hv
    obtain ⟨x, hx, rfl⟩ := List.mem_map.1 hu
    obtain ⟨y, hy, rfl⟩ := List.mem_map.1 hv
    simpa using h.before x hx y hy

/-- Nodes of earlier children in front of nodes of later children. -/
theorem append (h : Spread next L) (g : Spread (next + L.length) K)
    (apart : ∀ u ∈ L, ∀ v ∈ K, ∃ i j x y, u.1 = i :: x ∧ v.1 = j :: y ∧ i < j) :
    Spread next (L ++ K) where
  orders := by
    rw [List.map_append, h.orders, g.orders, List.length_append, Nat.add_right_comm,
      List.range'_append_1]
  bounds := by
    intro u hu
    rcases List.mem_append.1 hu with hu | hu
    · exact h.bounds u hu
    · have := g.bounds u hu
      omega
  nested := by
    intro u hu v hv hvu huv
    -- the numbers of the two lists do not meet, so of two nodes in different lists none is above
    rcases List.mem_append.1 hu with hu | hu <;> rcases List.mem_append.1 hv with hv | hv
    · exact h.nested u hu v hv hvu huv
    · have := h.order_le hu
      have := g.bounds v hv
      omega
    · have := h.order_le hv
      have := g.bounds u hu
      omega
    · exact g.nested u hu v hv hvu huv
  above := by
    intro u hu v hv
    rcases List.mem_append.1 hu with hu | hu <;> rcases List.mem_append.1 hv with hv | hv
    · exact h.above u hu v hv
    · obtain ⟨i, j, x, y, hi, hj, hij⟩ := apart u hu v hv
      have := h.order_le hu
      have := g.bounds v hv
      rw [hi, hj, cons_above_cons]
      omega
    · obtain ⟨i, j, x, y, hi, hj, hij⟩ := apart v hv u hu
      have := h.order_le hv
      have := g.bounds u hu
      rw [hi, hj, cons_above_cons]
      omega
    · exact g.above u hu v hv
  before := by
    intro u hu v hv
    rcases List.mem_append.1 hu with hu | hu <;> rcases List.mem_append.1 hv with hv | hv
    · exact h.before u hu v hv
    · obtain ⟨i, j, x, y, hi, hj, hij⟩ := apart u hu v hv
      have := h.order_le hu
      have := g.bounds v hv
      rw [hi, hj, cons_before_cons]
      omega
    · obtain ⟨i, j, x, y, hi, hj, hij⟩ := apart v hv u hu
      have := h.order_le hv
      have := h.bounds v hv
      have := g.bounds u hu
      rw [hi, hj, cons_before_cons]
      omega
    · exact g.before u hu v hv

theorem withRoot (h : Spread next L) (below : ∀ u ∈ L, u.1 ≠ []) (a : α) :
    Spread next (L ++ [([], ⟨a, next + L.length + 1, next + 1⟩)]) where
  orders := by
    rw [List.map_append, h.orders, List.length_append, ← List.range'_append_1]
    simp [Nat.add_right_comm]
  bounds := by
    intro u hu
    rcases List.mem_append.1 hu with hu | hu
    · exact h.bounds u hu
    · rw [List.mem_singleton.1 hu]
      simp
  nested := by
    intro u hu v hv hvu huv
    -- the root has the last number and an interval that holds all others
    rcases List.mem_append.1 hu with hu | hu <;> rcases List.mem_append.1 hv with hv | hv
    · exact h.nested u hu v hv hvu huv
    · rw [List.mem_singleton.1 hv]
      exact (h.bounds u hu).1
    · have := h.order_le hv
      rw [List.mem_singleton.1 hu] at huv
      change next + L.length + 1 ≤ v.2.order at huv
      omega
    · exact Nat.le_of_eq (by rw [List.mem_singleton.1 hu, List.mem_singleton.1 hv])
  above := by
    intro u hu v hv
    rcases List.mem_append.1 hu with hu | hu <;> rcases List.mem_append.1 hv with hv | hv
    · exact h.above u hu v hv
    · obtain ⟨i, x, hi⟩ := List.exists_cons_of_ne_nil (below u hu)
      have := h.order_le hu
      have := h.bounds u hu
      rw [List.mem_singleton.1 hv, hi]
      simp only [nil_above_cons, true_iff]
      omega
    · have := h.order_le hv
      rw [List.mem_singleton.1 hu]
      simp only [above_nil, false_iff]
      omega
    · rw [List.mem_singleton.1 hu, List.mem_singleton.1 hv]
      simp
  before := by
    intro u hu v hv
    rcases List.mem_append.1 hu with hu | hu <;> rcases List.mem_append.1 hv with hv | hv
    · exact h.before u hu v hv
    · have := h.bounds u hu
      rw [List.mem_singleton.1 hv]
      simp only [before_nil, false_iff]
      omega
    · have := h.order_le hv
      have := h.bounds v hv
      rw [List.mem_singleton.1 hu]
      simp only [nil_before, false_iff]
      omega
    · rw [List.mem_singleton.1 hu, List.mem_singleton.1 hv]
      simp

end Spread

namespace Rose

def spots (t : Rose (Item α)) : List (Address × Item α) := t.located.map fun u => (u.1, u.2.label)

def spotsFrom (first : Nat) (cs : List (Rose (Item α))) : List (Address × Item α) :=
  (locatedFrom first cs).map fun u => (u.1, u.2.label)

theorem map_fst_spots (t : Rose (Item α)) : t.spots.map Prod.fst = t.addresses := by
  simp [spots, addresses]

theorem map_snd_spots (t : Rose (Item α)) : t.spots.map Prod.snd = t.postOrder.map label := by
  simp [spots, ← map_snd_located]

@[simp] theorem label_numberPost (next : Nat) (t : Rose α) :
    (numberPost next t).label.label = t.label := by
  cases t; rfl

mutual
@[simp] theorem size_numberPost (next : Nat) : (t : Rose α) → (numberPost next t).size = t.size
  | node a cs => by simp only [numberPost, size, totalSize_numberPostAll next cs]

@[simp] theorem totalSize_numberPostAll (next : Nat) :
    (cs : List (Rose α)) → totalSize (numberPostAll next cs) = totalSize cs
  | [] => rfl
  | c :: cs => by
    simp only [numberPostAll, totalSize, size_numberPost next c,
      totalSize_numberPostAll (next + c.size) cs]
end

mutual
theorem leftmost_numberPost (next : Nat) :
    (t : Rose α) → (numberPost next t).label.leftmost = next + 1
  | node a [] => by simp [numberPost, numberPostAll, leftmostOf, totalSize]
  | node a (c :: cs) => by
    simp only [numberPost, numberPostAll, leftmostOf, label_node, leftmost_numberPost next c]
end

theorem order_numberPost (next : Nat) (t : Rose α) :
    (numberPost next t).label.order = next + t.size := by
  obtain ⟨a, cs⟩ := t
  simp only [numberPost, label_node, size]
  omega

theorem length_spots (t : Rose (Item α)) : t.spots.length = t.size := by
  simp [spots]

theorem length_spotsFrom (first : Nat) (cs : List (Rose (Item α))) :
    (spotsFrom first cs).length = totalSize cs := by
  induction cs generalizing first with
  | nil => rfl
  | cons c cs ih =>
    have := ih (first + 1)
    simp only [spotsFrom, List.length_map] at this
    simp [spotsFrom, locatedFrom, totalSize, this]

theorem spotsFrom_cons (first : Nat) (c : Rose (Item α)) (cs : List (Rose (Item α))) :
    spotsFrom first (c :: cs) =
      (c.spots.map fun u => (first :: u.1, u.2)) ++ spotsFrom (first + 1) cs := by
  simp [spotsFrom, spots, locatedFrom, Function.comp_def]

theorem exists_cons_of_mem_spotsFrom {first : Nat} {cs : List (Rose (Item α))}
    {u : Address × Item α} (h : u ∈ spotsFrom first cs) :
    ∃ i x, u.1 = i :: x ∧ first ≤ i := by
  obtain ⟨v, hv, rfl⟩ := List.mem_map.1 h
  obtain ⟨i, c, x, -, -, hx⟩ := mem_locatedFrom.1 hv
  exact ⟨first + i, x, hx, by omega⟩

mutual
theorem spread_numberPost (next : Nat) : (t : Rose α) → Spread next (numberPost next t).spots
  | node a cs => by
    have below := spread_numberPostAll next 0 cs
    have hroot := below.withRoot
      (fun u hu => by obtain ⟨i, x, hx, -⟩ := exists_cons_of_mem_spotsFrom hu; simp [hx]) a
    have hleft : leftmostOf (next + totalSize cs + 1) (numberPostAll next cs) = next + 1 := by
      have := leftmost_numberPost next (node a cs)
      rwa [numberPost] at this
    rw [length_spotsFrom, totalSize_numberPostAll] at hroot
    simpa [spots, spotsFrom, numberPost, located, hleft] using hroot

theorem spread_numberPostAll (next first : Nat) :
    (cs : List (Rose α)) → Spread next (spotsFrom first (numberPostAll next cs))
  | [] => Spread.nil
  | c :: cs => by
    have head := (spread_numberPost next c).under first
    have tail := spread_numberPostAll (next + c.size) (first + 1) cs
    rw [numberPostAll, spotsFrom_cons]
    apply head.append
    · rwa [List.length_map, length_spots, size_numberPost]
    · intro u hu v hv
      obtain ⟨w, hw, rfl⟩ := List.mem_map.1 hu
      obtain ⟨j, y, hy, hj⟩ := exists_cons_of_mem_spotsFrom hv
      exact ⟨first, j, w.1, y, rfl, hy, by omega⟩
end

def Numbered (t : Rose (Item α)) : Prop := Spread 0 t.spots

theorem numbered_numberPost (t : Rose α) : (numberPost 0 t).Numbered := spread_numberPost 0 t

def leftmost (t : Rose (Item α)) (k : Nat) : Nat :=
  ((t.postOrder.map label)[k - 1]?).elim 0 Item.leftmost

def address (t : Rose (Item α)) (k : Nat) : Address := (t.addresses[k - 1]?).getD []

theorem address_succ {t : Rose (Item α)} {k : Nat} (h : k < t.addresses.length) :
    t.address (k + 1) = t.addresses[k] := by
  rw [address, Nat.add_sub_cancel, List.getElem?_eq_getElem h, Option.getD_some]

namespace Numbered

variable {t : Rose (Item α)} {i j k : Nat}

theorem exists_spot (h : t.Numbered) (hk : 1 ≤ k) (hn : k ≤ t.size) :
    ∃ u ∈ t.spots, u.2.order = k ∧ u.1 = t.address k ∧ u.2.leftmost = t.leftmost k ∧
      (t.postOrder.map label)[k - 1]? = some u.2 := by
  have hlt : k - 1 < t.spots.length := by
    rw [length_spots]
    omega
  have horder : (t.spots.map fun u => u.2.order)[k - 1]? = some k := by
    rw [h.orders, List.getElem?_range' hlt]
    congr 1
    omega
  have hitem : (t.postOrder.map label)[k - 1]? = some (t.spots[k - 1]).2 := by
    rw [← map_snd_spots, List.getElem?_map, List.getElem?_eq_getElem hlt, Option.map_some]
  refine ⟨t.spots[k - 1], List.getElem_mem hlt, ?_, ?_, ?_, hitem⟩
  · rw [List.getElem?_map, List.getElem?_eq_getElem hlt] at horder
    simpa using horder
  · rw [address, ← map_fst_spots, List.getElem?_map, List.getElem?_eq_getElem hlt]
    rfl
  · rw [leftmost, hitem]
    rfl

theorem address_order (h : t.Numbered) {u : Address × Item α} (hu : u ∈ t.spots) :
    (1 ≤ u.2.order ∧ u.2.order ≤ t.size) ∧ t.address u.2.order = u.1 := by
  obtain ⟨i, hi, rfl⟩ := List.mem_iff_getElem.1 hu
  have horder := congrArg (fun L => L[i]?) h.orders
  simp only [List.getElem?_map, List.getElem?_eq_getElem hi, Option.map_some,
    List.getElem?_range' hi, Option.some.injEq] at horder
  rw [length_spots] at hi
  refine ⟨by omega, ?_⟩
  rw [horder, show 0 + 1 + 1 * i = i + 1 by omega, address_succ (by rwa [length_addresses])]
  simp only [← map_fst_spots, List.getElem_map]

theorem above_iff (h : t.Numbered) (hi : 1 ≤ i) (hin : i ≤ t.size) (hj : 1 ≤ j)
    (hjn : j ≤ t.size) :
    Above (t.address j) (t.address i) ↔ t.leftmost j ≤ i ∧ i < j := by
  obtain ⟨u, hu, huo, hua, -, -⟩ := h.exists_spot hi hin
  obtain ⟨v, hv, hvo, hva, hvl, -⟩ := h.exists_spot hj hjn
  rw [← hua, ← hva, h.above u hu v hv, huo, hvo, hvl]

theorem before_iff (h : t.Numbered) (hi : 1 ≤ i) (hin : i ≤ t.size) (hj : 1 ≤ j)
    (hjn : j ≤ t.size) :
    Before (t.address i) (t.address j) ↔ i < t.leftmost j := by
  obtain ⟨u, hu, huo, hua, -, -⟩ := h.exists_spot hi hin
  obtain ⟨v, hv, -, hva, hvl, -⟩ := h.exists_spot hj hjn
  rw [← hua, ← hva, h.before u hu v hv, huo, hvl]

theorem leftmost_pos (h : t.Numbered) (hk : 1 ≤ k) (hn : k ≤ t.size) : 1 ≤ t.leftmost k := by
  obtain ⟨u, hu, -, -, hul, -⟩ := h.exists_spot hk hn
  have := h.bounds u hu
  omega

theorem leftmost_le (h : t.Numbered) (hk : 1 ≤ k) (hn : k ≤ t.size) : t.leftmost k ≤ k := by
  obtain ⟨u, hu, huo, -, hul, -⟩ := h.exists_spot hk hn
  have := h.bounds u hu
  omega

theorem leftmost_le_leftmost (h : t.Numbered) (hi : 1 ≤ i) (hij : i ≤ j) (hjn : j ≤ t.size)
    (hle : t.leftmost j ≤ i) : t.leftmost j ≤ t.leftmost i := by
  obtain ⟨u, hu, huo, -, hul, -⟩ := h.exists_spot hi (Nat.le_trans hij hjn)
  obtain ⟨v, hv, hvo, -, hvl, -⟩ := h.exists_spot (Nat.le_trans hi hij) hjn
  have := h.nested u hu v hv
  omega

theorem address_inj (h : t.Numbered) (hi : 1 ≤ i) (hin : i ≤ t.size) (hj : 1 ≤ j)
    (hjn : j ≤ t.size) : t.address i = t.address j ↔ i = j := by
  constructor
  · intro he
    have up := h.above_iff hi hin hj hjn
    have down := h.above_iff hj hjn hi hin
    have left := h.before_iff hi hin hj hjn
    have right := h.before_iff hj hjn hi hin
    simp only [he, not_above_self, not_before_self, false_iff] at up down left right
    omega
  · rintro rfl
    rfl

theorem mem_addresses_iff (h : t.Numbered) {x : Address} :
    x ∈ t.addresses ↔ ∃ k, 1 ≤ k ∧ k ≤ t.size ∧ t.address k = x := by
  constructor
  · intro hx
    obtain ⟨k, hk, rfl⟩ := List.mem_iff_getElem.1 hx
    have hlt : k < t.size := by rwa [← length_addresses]
    exact ⟨k + 1, by omega, by omega, address_succ hk⟩
  · rintro ⟨k, hk, hn, rfl⟩
    obtain ⟨u, hu, -, hua, -, -⟩ := h.exists_spot hk hn
    rw [← hua, ← map_fst_spots]
    exact List.mem_map_of_mem hu

theorem nodup_addresses (h : t.Numbered) : t.addresses.Nodup := by
  rw [List.nodup_iff_injective_getElem]
  intro a b hab
  have hlen := length_addresses t
  have ha := a.isLt
  have hb := b.isLt
  have heq : t.address (a + 1) = t.address (b + 1) := by
    rw [address_succ ha, address_succ hb]
    exact hab
  have := (h.address_inj (by omega) (by omega) (by omega) (by omega)).1 heq
  exact Fin.ext (by omega)

end Numbered

section Items

def itemsAll (next : Nat) (cs : List (Rose α)) : List (Item α) :=
  (postOrderAll (numberPostAll next cs)).map label

theorem itemsAll_cons (next : Nat) (a : α) (as cs : List (Rose α)) :
    itemsAll next (node a as :: cs) = itemsAll next as ++
      [⟨a, next + (node a as).size, next + 1⟩] ++ itemsAll (next + (node a as).size) cs := by
  have hleft : leftmostOf (next + (totalSize as + 1)) (numberPostAll next as) = next + 1 := by
    have := leftmost_numberPost next (node a as)
    rwa [numberPost] at this
  simp only [itemsAll, numberPostAll, postOrderAll, numberPost, postOrder, List.map_append,
    List.map_cons, List.map_nil, label_node, hleft, size, Nat.add_assoc, Nat.add_comm 1]

theorem length_itemsAll (next : Nat) (cs : List (Rose α)) :
    (itemsAll next cs).length = totalSize cs := by
  rw [itemsAll, List.length_map, length_postOrderAll, totalSize_numberPostAll]

theorem leftmost_of_mem_itemsAll {next : Nat} {cs : List (Rose α)} {u : Item α}
    (h : u ∈ itemsAll next cs) : next < u.leftmost := by
  have hspots : (spotsFrom 0 (numberPostAll next cs)).map Prod.snd = itemsAll next cs := by
    rw [spotsFrom, itemsAll, ← map_snd_locatedFrom 0, List.map_map, List.map_map]
    rfl
  rw [← hspots] at h
  obtain ⟨v, hv, rfl⟩ := List.mem_map.1 h
  exact ((spread_numberPostAll next 0 cs).bounds v hv).1

/-- The root of the first tree is the last node whose leftmost leaf is the first. -/
theorem size_le_of_itemsAll_eq {next : Nat} {a b : α} {as bs cs ds : List (Rose α)}
    (h : itemsAll next (node a as :: cs) = itemsAll next (node b bs :: ds)) :
    (node a as).size ≤ (node b bs).size := by
  by_contra hlt
  have hroot : (itemsAll next (node a as :: cs))[totalSize as]? =
      some ⟨a, next + (node a as).size, next + 1⟩ := by
    rw [itemsAll_cons, List.append_assoc,
      List.getElem?_append_right (Nat.le_of_eq (length_itemsAll next as)),
      length_itemsAll, Nat.sub_self]
    rfl
  have hbehind : totalSize as - (totalSize bs + 1) < totalSize ds := by
    have hlength := congrArg List.length h
    rw [length_itemsAll, length_itemsAll] at hlength
    simp only [totalSize, size] at hlength hlt
    omega
  rw [h, itemsAll_cons, List.getElem?_append_right (by
    rw [List.length_append, length_itemsAll]
    simp only [size] at hlt
    simp only [List.length_singleton]
    omega)] at hroot
  have := leftmost_of_mem_itemsAll (List.mem_of_getElem? hroot)
  simp only [size] at this
  omega

theorem eq_of_itemsAll_eq {next : Nat} {cs ds : List (Rose α)}
    (h : itemsAll next cs = itemsAll next ds) : cs = ds := by
  generalize hn : totalSize cs = n
  induction n using Nat.strongRecOn generalizing next cs ds with
  | ind n ih =>
    cases cs with
    | nil =>
      cases ds with
      | nil => rfl
      | cons d ds =>
        have hlength := congrArg List.length h
        have := size_pos d
        rw [length_itemsAll, length_itemsAll, totalSize, totalSize] at hlength
        omega
    | cons c cs =>
      cases ds with
      | nil =>
        have hlength := congrArg List.length h
        have := size_pos c
        rw [length_itemsAll, length_itemsAll, totalSize, totalSize] at hlength
        omega
      | cons d ds =>
        obtain ⟨a, as⟩ := c
        obtain ⟨b, bs⟩ := d
        -- the root of the first tree is the last node whose leftmost leaf is the first number
        have hsize : (node a as).size = (node b bs).size :=
          Nat.le_antisymm (size_le_of_itemsAll_eq h) (size_le_of_itemsAll_eq h.symm)
        have hbelow : totalSize as = totalSize bs := by
          simp only [size] at hsize
          omega
        rw [itemsAll_cons, itemsAll_cons, hsize] at h
        obtain ⟨hfirst, hrest⟩ := List.append_inj h (by
          simp only [List.length_append, length_itemsAll, List.length_singleton, hbelow])
        obtain ⟨has, hroot⟩ := List.append_inj' hfirst rfl
        simp only [totalSize, size] at hn
        have has' : as = bs := ih (totalSize as) (by omega) has rfl
        have hcs' : cs = ds := ih (totalSize cs) (by omega) hrest rfl
        cases hroot
        rw [has', hcs']

theorem eq_of_items_eq {s t : Rose α}
    (h : (numberPost 0 s).postOrder.map label = (numberPost 0 t).postOrder.map label) : s = t := by
  have hs : ∀ u : Rose α, itemsAll 0 [u] = (numberPost 0 u).postOrder.map label := by
    intro u
    simp only [itemsAll, numberPostAll, postOrderAll, List.append_nil]
  rw [← hs, ← hs] at h
  exact List.head_eq_of_cons_eq (eq_of_itemsAll_eq h)

end Items

end Rose

end Relocate
