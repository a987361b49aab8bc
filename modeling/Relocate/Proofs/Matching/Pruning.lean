import Relocate.Proofs.Matching.Support

/-!
# Reduced copies in their trees

The children of a node of a reduced copy are its children in the tree that are not taken, in the
same order. So one node of the copy is above or left of another one exactly when it is in the tree,
and no node of the copy but its root is taken.
-/

set_option autoImplicit false

namespace Relocate

namespace Address

theorem related (x y : Address) :
    x = y ∨ Above x y ∨ Above y x ∨ Before x y ∨ Before y x := by
  induction x generalizing y with
  | nil => cases y <;> simp
  | cons i x ih =>
    cases y with
    | nil => simp
    | cons j y =>
      rcases Nat.lt_trichotomy i j with h | rfl | h
      · simp [h]
      · simpa using ih y
      · simp [h]

end Address

open Address

namespace Place

/-- All of the first subtree is passed before the second one is reached. -/
def LeftOf (p q : Place) : Prop := p.id + p.size ≤ q.id

theorem size_pos (p : Place) : 0 < p.size := p.node.size_pos

end Place

section Nodes

variable {mix : Mix} {t : Ast} {p q c d : Place}

theorem last_mem_preOrder (hp : p ∈ nodes (Rose.wrap mix t)) :
    p.id + p.size - 1 ∈ p.preOrder.map Place.id := by
  have hsize := p.size_pos
  rw [map_id_preOrder hp, List.mem_range'_1]
  omega

theorem bounds_of_mem_preOrder (hp : p ∈ nodes (Rose.wrap mix t)) (hq : q ∈ p.preOrder) :
    p.id ≤ q.id ∧ q.id + q.size ≤ p.id + p.size := by
  have hsize := q.size_pos
  obtain ⟨r, hr, hlast⟩ := List.mem_map.1 (last_mem_preOrder (mem_nodes_of_mem_preOrder hp hq))
  have hfirst := covers_of_mem_preOrder hp hq
  have hend := covers_of_mem_preOrder hp (Place.mem_preOrder_trans hq hr)
  simp only [Place.Covers] at hfirst hend
  omega

theorem leftOf_of_sublist (hp : p ∈ nodes (Rose.wrap mix t)) (h : [c, d].Sublist p.children) :
    c.LeftOf d := by
  have hc : c ∈ nodes (Rose.wrap mix t) := mem_nodes_of_mem_children hp (h.subset (by simp))
  have hsub : (c.preOrder ++ d.preOrder).Sublist p.preOrder := by
    rw [Place.preOrder_eq p]
    have hbelow := (h.flatMap Place.preOrder).cons p
    simpa using hbelow
  have hsorted : ((c.preOrder ++ d.preOrder).map Place.id).Pairwise (· < ·) := by
    apply List.Pairwise.sublist (hsub.map Place.id)
    rw [map_id_preOrder hp]
    exact List.pairwise_lt_range'
  rw [List.map_append, List.pairwise_append] at hsorted
  have hlt := hsorted.2.2 _ (last_mem_preOrder hc) d.id
    (List.mem_map_of_mem (Place.mem_preOrder_self d))
  rw [Place.LeftOf]
  omega

theorem mem_ancestors_iff (hq : q ∈ nodes (Rose.wrap mix t)) :
    p ∈ q.ancestors ↔ q ∈ p.descendants :=
  ⟨fun h => (mem_nodes_of_mem_ancestors hq h).2, Place.mem_ancestors_of_mem_descendants⟩

theorem irrefl_above_leftOf (hp : p ∈ nodes (Rose.wrap mix t)) :
    p ∉ p.ancestors ∧ ¬ p.LeftOf p := by
  have hsize := p.size_pos
  rw [mem_ancestors_iff hp, Matching.mem_descendants_iff_encloses hp hp, Place.LeftOf]
  simp [Matching.encloses]
  omega

theorem above_not_leftOf (hp : p ∈ nodes (Rose.wrap mix t)) (h : q ∈ p.descendants) :
    p ∈ q.ancestors ∧ q ∉ p.ancestors ∧ ¬ p.LeftOf q ∧ ¬ q.LeftOf p := by
  have hmem := Place.mem_preOrder_of_mem_descendants h
  have hq := mem_nodes_of_mem_preOrder hp hmem
  have hbounds := bounds_of_mem_preOrder hp hmem
  have hencloses := (Matching.mem_descendants_iff_encloses hp hq).1 h
  have hsize := q.size_pos
  rw [mem_ancestors_iff hp, Matching.mem_descendants_iff_encloses hq hp, Place.LeftOf,
    Place.LeftOf]
  simp only [Matching.encloses, Bool.and_eq_true, decide_eq_true_eq] at hencloses ⊢
  exact ⟨Place.mem_ancestors_of_mem_descendants h, by omega, by omega, by omega⟩

end Nodes

namespace Reduced

def place (r : Reduced) : Place := r.label.label

/-- Each node of the copy has its children in the tree that are not taken. -/
inductive Keeps (taken : Nat → Bool) : Reduced → Prop
  | node {i : Item Place} {cs : List Reduced}
      (children : cs.map place = i.label.children.filter fun c => !taken c.id)
      (below : ∀ c ∈ cs, Keeps taken c) : Keeps taken (.node i cs)

theorem map_place_pruneAll (taken : Nat → Bool) (above : List Wrapped) (next : Nat)
    (cs : List Wrapped) : (Rose.numberPostAll next (Place.pruneAll taken above cs)).map place =
      (cs.map fun c => (⟨c, above⟩ : Place)).filter fun c => !taken c.id := by
  induction cs generalizing next with
  | nil => rfl
  | cons c cs ih =>
    rw [Place.pruneAll]
    by_cases h : taken c.id = true
    · simp [h, ih, Place.id]
    · have hplace : place (Rose.numberPost next (Place.prune taken above c)) = ⟨c, above⟩ := by
        cases c
        rw [place, Rose.label_numberPost]
        rfl
      simp [h, ih, Place.id, Rose.numberPostAll, hplace]

mutual
theorem keeps_prune (taken : Nat → Bool) (above : List Wrapped) (next : Nat) :
    (t : Wrapped) → Keeps taken (Rose.numberPost next (Place.prune taken above t))
  | .node l cs => by
    rw [Place.prune, Rose.numberPost]
    exact .node (map_place_pruneAll taken (.node l cs :: above) next cs)
      (keeps_pruneAll taken (.node l cs :: above) next cs)

theorem keeps_pruneAll (taken : Nat → Bool) (above : List Wrapped) (next : Nat) :
    (cs : List Wrapped) → ∀ c ∈ Rose.numberPostAll next (Place.pruneAll taken above cs),
      Keeps taken c
  | [] => by simp [Place.pruneAll, Rose.numberPostAll]
  | c :: cs => by
    rw [Place.pruneAll]
    split
    · exact keeps_pruneAll taken above next cs
    · rw [Rose.numberPostAll, List.forall_mem_cons]
      exact ⟨keeps_prune taken above next c, keeps_pruneAll taken above _ cs⟩
end

theorem keeps_ofPlace (taken : Nat → Bool) (p : Place) : Keeps taken (ofPlace taken p) :=
  keeps_prune taken p.above 0 p.node

theorem place_ofPlace (taken : Nat → Bool) (p : Place) : place (ofPlace taken p) = p := by
  obtain ⟨⟨l, cs⟩, above⟩ := p
  rw [place, ofPlace, Rose.label_numberPost]
  rfl

namespace Keeps

variable {mix : Mix} {t : Ast} {taken : Nat → Bool} {r u v : Reduced} {x y : Address}

theorem of_mem_children (h : Keeps taken r) {c : Reduced} (hc : c ∈ r.children) :
    Keeps taken c ∧ place c ∈ (place r).children ∧ taken (place c).id = false := by
  cases h with
  | @node i cs children below =>
    have hmem : place c ∈ i.label.children.filter fun c => !taken c.id := by
      rw [← children]
      exact List.mem_map_of_mem hc
    obtain ⟨hchild, hfree⟩ := List.mem_filter.1 hmem
    exact ⟨below c hc, hchild, by simpa using hfree⟩

theorem leftOf_children (h : Keeps taken r) (hr : place r ∈ nodes (Rose.wrap mix t)) {i j : Nat}
    {c d : Reduced} (hij : i < j) (hc : r.children[i]? = some c) (hd : r.children[j]? = some d) :
    (place c).LeftOf (place d) := by
  cases h with
  | @node item cs children below =>
    apply leftOf_of_sublist hr
    have hpairs : cs.Pairwise fun c d => [c, d].Sublist cs :=
      List.pairwise_iff_forall_sublist.2 fun hsub => hsub
    have hcs : [c, d].Sublist cs := by
      obtain ⟨hj, rfl⟩ := List.getElem?_eq_some_iff.1 hd
      obtain ⟨hi, rfl⟩ := List.getElem?_eq_some_iff.1 hc
      exact List.pairwise_iff_getElem.1 hpairs i j hi hj hij
    have hplaces := hcs.map place
    rw [children] at hplaces
    exact hplaces.trans List.filter_sublist

theorem mem_preOrder (h : Keeps taken r) (hx : r.subtree? x = some u) :
    place u ∈ (place r).preOrder := by
  induction x generalizing r with
  | nil =>
    cases hx
    exact Place.mem_preOrder_self _
  | cons i x ih =>
    obtain ⟨c, hc, hu⟩ := Option.bind_eq_some_iff.1 hx
    obtain ⟨hkeeps, hchild, -⟩ := h.of_mem_children (List.mem_of_getElem? hc)
    exact Place.mem_preOrder_of_mem_children hchild (ih hkeeps hu)

theorem free (h : Keeps taken r) (hx : r.subtree? x = some u) (hne : x ≠ []) :
    taken (place u).id = false := by
  induction x generalizing r with
  | nil => exact absurd rfl hne
  | cons i x ih =>
    obtain ⟨c, hc, hu⟩ := Option.bind_eq_some_iff.1 hx
    obtain ⟨hkeeps, -, hfree⟩ := h.of_mem_children (List.mem_of_getElem? hc)
    cases x with
    | nil =>
      cases hu
      exact hfree
    | cons j x => exact ih hkeeps hu (List.cons_ne_nil j x)

section Order

variable (h : Keeps taken r) (hr : place r ∈ nodes (Rose.wrap mix t))
  (hx : r.subtree? x = some u) (hy : r.subtree? y = some v)

include h hr hx

theorem mem_nodes : place u ∈ nodes (Rose.wrap mix t) :=
  mem_nodes_of_mem_preOrder hr (h.mem_preOrder hx)

include hy

omit hr in
theorem mem_descendants_of_above (habove : Above x y) : place v ∈ (place u).descendants := by
  induction x generalizing r y with
  | nil =>
    cases hx
    cases y with
    | nil => exact absurd habove (above_nil _)
    | cons i y =>
      obtain ⟨c, hc, hv⟩ := Option.bind_eq_some_iff.1 hy
      obtain ⟨hkeeps, hchild, -⟩ := h.of_mem_children (List.mem_of_getElem? hc)
      exact Place.mem_descendants.2 ⟨place c, hchild, hkeeps.mem_preOrder hv⟩
  | cons i x ih =>
    cases y with
    | nil => exact absurd habove (above_nil _)
    | cons j y =>
      obtain ⟨rfl, hrest⟩ := (cons_above_cons i j x y).1 habove
      obtain ⟨c, hc, hu⟩ := Option.bind_eq_some_iff.1 hx
      obtain ⟨d, hd, hv⟩ := Option.bind_eq_some_iff.1 hy
      obtain rfl : c = d := Option.some.inj (hc.symm.trans hd)
      exact ih (h.of_mem_children (List.mem_of_getElem? hc)).1 hu hv hrest

theorem leftOf_of_before (hbefore : Before x y) : (place u).LeftOf (place v) := by
  induction x generalizing r y with
  | nil => exact absurd hbefore (nil_before y)
  | cons i x ih =>
    cases y with
    | nil => exact absurd hbefore (before_nil _)
    | cons j y =>
      obtain ⟨c, hc, hu⟩ := Option.bind_eq_some_iff.1 hx
      obtain ⟨d, hd, hv⟩ := Option.bind_eq_some_iff.1 hy
      obtain ⟨hkeeps, hchild, -⟩ := h.of_mem_children (List.mem_of_getElem? hc)
      obtain ⟨hkeeps', hchild', -⟩ := h.of_mem_children (List.mem_of_getElem? hd)
      have hc' := mem_nodes_of_mem_children hr hchild
      have hd' := mem_nodes_of_mem_children hr hchild'
      rcases (cons_before_cons i j x y).1 hbefore with hij | ⟨rfl, hrest⟩
      · have hleft := h.leftOf_children hr hij hc hd
        have hbounds := bounds_of_mem_preOrder hc' (hkeeps.mem_preOrder hu)
        have hbounds' := bounds_of_mem_preOrder hd' (hkeeps'.mem_preOrder hv)
        rw [Place.LeftOf] at hleft ⊢
        omega
      · obtain rfl : c = d := Option.some.inj (hc.symm.trans hd)
        exact ih hkeeps hc' hu hv hrest

/-- What the addresses in the copy say about the numbers in the tree. -/
theorem numbers_of_above (habove : Above x y) :
    (place u).id < (place v).id ∧ (place v).id < (place u).id + (place u).size := by
  have hbelow := (Matching.mem_descendants_iff_encloses (h.mem_nodes hr hx) (h.mem_nodes hr hy)).1
    (h.mem_descendants_of_above hx hy habove)
  simpa [Matching.encloses] using hbelow

theorem mem_descendants_iff : place v ∈ (place u).descendants ↔ Above x y := by
  refine ⟨?_, h.mem_descendants_of_above hx hy⟩
  intro hbelow
  have hencloses := (Matching.mem_descendants_iff_encloses (h.mem_nodes hr hx)
    (h.mem_nodes hr hy)).1 hbelow
  simp only [Matching.encloses, Bool.and_eq_true, decide_eq_true_eq] at hencloses
  have hsize := (place v).size_pos
  rcases related x y with rfl | habove | habove | hbefore | hbefore
  · obtain rfl : u = v := Option.some.inj (hx.symm.trans hy)
    omega
  · exact habove
  · have := h.numbers_of_above hr hy hx habove
    omega
  · have hleft := h.leftOf_of_before hr hx hy hbefore
    rw [Place.LeftOf] at hleft
    omega
  · have hleft := h.leftOf_of_before hr hy hx hbefore
    rw [Place.LeftOf] at hleft
    omega

theorem leftOf_iff : (place u).LeftOf (place v) ↔ Before x y := by
  refine ⟨?_, h.leftOf_of_before hr hx hy⟩
  intro hleft
  rw [Place.LeftOf] at hleft
  have hsize := (place u).size_pos
  have hsize' := (place v).size_pos
  rcases related x y with rfl | habove | habove | hbefore | hbefore
  · obtain rfl : u = v := Option.some.inj (hx.symm.trans hy)
    omega
  · have := h.numbers_of_above hr hx hy habove
    omega
  · have := h.numbers_of_above hr hy hx habove
    omega
  · exact hbefore
  · have hleft' := h.leftOf_of_before hr hy hx hbefore
    rw [Place.LeftOf] at hleft'
    omega

theorem address_eq (hid : (place u).id = (place v).id) : x = y := by
  have hsize := (place u).size_pos
  have hsize' := (place v).size_pos
  rcases related x y with heq | habove | habove | hbefore | hbefore
  · exact heq
  · have := h.numbers_of_above hr hx hy habove
    omega
  · have := h.numbers_of_above hr hy hx habove
    omega
  · have hleft := h.leftOf_of_before hr hx hy hbefore
    rw [Place.LeftOf] at hleft
    omega
  · have hleft := h.leftOf_of_before hr hy hx hbefore
    rw [Place.LeftOf] at hleft
    omega

end Order

end Keeps

end Reduced

end Relocate
