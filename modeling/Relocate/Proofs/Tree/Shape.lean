import Relocate.Proofs.Tree.Nodes

/-!
# Shapes and relative addresses

Wrapped trees are isomorphic exactly when their kinds, values and nesting agree: the digests follow
from these. Walking two subtrees of one shape side by side in pre-order pairs the nodes at equal
addresses below their roots.
-/

set_option autoImplicit false

namespace Relocate

namespace Rose

section Map

variable {α β : Type}

mutual
@[simp] theorem size_map (f : α → β) : (t : Rose α) → (t.map f).size = t.size
  | node a cs => by rw [map, size, size, totalSize_mapAll f cs]

@[simp] theorem totalSize_mapAll (f : α → β) :
    (cs : List (Rose α)) → totalSize (mapAll f cs) = totalSize cs
  | [] => rfl
  | c :: cs => by rw [mapAll, totalSize, totalSize, size_map f c, totalSize_mapAll f cs]
end

mutual
@[simp] theorem height_map (f : α → β) : (t : Rose α) → (t.map f).height = t.height
  | node a cs => by rw [map, height, height, tallest_mapAll f cs]

@[simp] theorem tallest_mapAll (f : α → β) :
    (cs : List (Rose α)) → tallest (mapAll f cs) = tallest cs
  | [] => rfl
  | c :: cs => by rw [mapAll, tallest, tallest, height_map f c, tallest_mapAll f cs]
end

end Map

def outline (t : Rose Tag) : Rose Content := t.map Tag.toContent

def outlines (cs : List (Rose Tag)) : List (Rose Content) := mapAll Tag.toContent cs

mutual
theorem shape_wrapFrom (mix : Mix) (next : Nat) :
    (t : Rose Tag) → (wrapFrom mix next t).shape = t.outline
  | node tag cs => by
    rw [wrapFrom, shape, map, outline, map]
    exact congrArg (node tag.toContent) (shapes_wrapAllFrom mix (next + 1) cs)

theorem shapes_wrapAllFrom (mix : Mix) (next : Nat) :
    (cs : List (Rose Tag)) →
      mapAll (fun l : Label => l.tag.toContent) (wrapAllFrom mix next cs) = outlines cs
  | [] => rfl
  | c :: cs => by
    rw [wrapAllFrom, mapAll, shapes_wrapAllFrom mix (next + c.size) cs]
    exact congrArg (· :: outlines cs) (shape_wrapFrom mix next c)
end

mutual
theorem shape_eq_of_isomorphic : (a b : Wrapped) → a.isomorphic b = true → a.shape = b.shape
  | node a as, node b bs => by
    intro h
    rw [isomorphic, Bool.and_eq_true, Bool.and_eq_true, beq_iff_eq, beq_iff_eq] at h
    rw [shape, shape, map, map, h.1.2, shapes_eq_of_isomorphicAll as bs h.2]

theorem shapes_eq_of_isomorphicAll : (as bs : List Wrapped) → isomorphicAll as bs = true →
    mapAll (fun l : Label => l.tag.toContent) as = mapAll (fun l : Label => l.tag.toContent) bs
  | [], [] => fun _ => rfl
  | a :: as, b :: bs => by
    intro h
    rw [isomorphicAll, Bool.and_eq_true] at h
    rw [mapAll, mapAll, shapes_eq_of_isomorphicAll as bs h.2]
    exact congrArg (· :: mapAll _ bs) (shape_eq_of_isomorphic a b h.1)
  | [], _ :: _ => by simp [isomorphicAll]
  | _ :: _, [] => by simp [isomorphicAll]
end

mutual
theorem isomorphic_wrapFrom (mix : Mix) (i j : Nat) : (t u : Rose Tag) → t.outline = u.outline →
    (wrapFrom mix i t).digest = (wrapFrom mix j u).digest ∧
      (wrapFrom mix i t).isomorphic (wrapFrom mix j u) = true
  | node a as, node b bs => by
    intro h
    rw [outline, outline, map, map, node.injEq] at h
    obtain ⟨hdigests, hall⟩ := isomorphicAll_wrapAllFrom mix (i + 1) (j + 1) as bs h.2
    have hdigest : mix a.toContent ((wrapAllFrom mix (i + 1) as).map digest) =
        mix b.toContent ((wrapAllFrom mix (j + 1) bs).map digest) := by rw [h.1, hdigests]
    refine ⟨hdigest, ?_⟩
    rw [wrapFrom, wrapFrom, isomorphic, Bool.and_eq_true, Bool.and_eq_true, beq_iff_eq, beq_iff_eq]
    exact ⟨⟨hdigest, h.1⟩, hall⟩

theorem isomorphicAll_wrapAllFrom (mix : Mix) (i j : Nat) :
    (ts us : List (Rose Tag)) → outlines ts = outlines us →
      (wrapAllFrom mix i ts).map digest = (wrapAllFrom mix j us).map digest ∧
        isomorphicAll (wrapAllFrom mix i ts) (wrapAllFrom mix j us) = true
  | [], [] => fun _ => ⟨rfl, rfl⟩
  | t :: ts, u :: us => by
    intro h
    rw [outlines, outlines, mapAll, mapAll, List.cons.injEq] at h
    obtain ⟨hdigest, hiso⟩ := isomorphic_wrapFrom mix i j t u h.1
    obtain ⟨hdigests, hall⟩ :=
      isomorphicAll_wrapAllFrom mix (i + t.size) (j + u.size) ts us h.2
    rw [wrapAllFrom, wrapAllFrom, List.map_cons, List.map_cons, hdigest, hdigests, isomorphicAll,
      hiso, hall]
    exact ⟨rfl, rfl⟩
  | [], _ :: _ => by simp [outlines, mapAll]
  | _ :: _, [] => by simp [outlines, mapAll]
end

end Rose

/-- Within trees wrapped alike, isomorphic means of equal shape. -/
theorem isomorphic_iff_shape_eq {mix : Mix} {a b : Ast} {p q : Place}
    (hp : p ∈ nodes (Rose.wrap mix a)) (hq : q ∈ nodes (Rose.wrap mix b)) :
    p.node.isomorphic q.node = true ↔ p.node.shape = q.node.shape := by
  constructor
  · exact Rose.shape_eq_of_isomorphic p.node q.node
  · obtain ⟨t, ht⟩ := Rose.exists_wrapFrom mix 0 [] a p hp
    obtain ⟨u, hu⟩ := Rose.exists_wrapFrom mix 0 [] b q hq
    intro h
    rw [ht, hu, Rose.shape_wrapFrom, Rose.shape_wrapFrom] at h
    rw [ht, hu]
    exact (Rose.isomorphic_wrapFrom mix p.id q.id t u h).2

namespace Place

variable {p q r : Place}

def descend? (p : Place) : Address → Option Place
  | [] => some p
  | i :: x => (p.children[i]?).bind fun c => c.descend? x

theorem descend?_cons_eq_some {i : Nat} {x : Address} :
    p.descend? (i :: x) = some r ↔ ∃ c, p.children[i]? = some c ∧ c.descend? x = some r := by
  rw [descend?, Option.bind_eq_some_iff]

theorem descend?_append (p : Place) (x y : Address) :
    p.descend? (x ++ y) = (p.descend? x).bind fun c => c.descend? y := by
  induction x generalizing p with
  | nil => rfl
  | cons i x ih =>
    rw [List.cons_append, descend?, descend?, Option.bind_assoc]
    apply congrArg
    funext c
    exact ih c

theorem mem_preOrder_of_descend? {x : Address} (h : p.descend? x = some q) : q ∈ p.preOrder := by
  induction x generalizing p with
  | nil =>
    cases h
    exact mem_preOrder_self _
  | cons i x ih =>
    obtain ⟨c, hc, hx⟩ := descend?_cons_eq_some.1 h
    exact mem_preOrder_of_mem_children (List.mem_of_getElem? hc) (ih hx)

theorem exists_descend? (h : q ∈ p.preOrder) : ∃ x, p.descend? x = some q := by
  induction p using childInduction with
  | h p ih =>
    rcases mem_preOrder.1 h with rfl | ⟨c, hc, hq⟩
    · exact ⟨[], rfl⟩
    · obtain ⟨i, hi⟩ := List.getElem?_of_mem hc
      obtain ⟨x, hx⟩ := ih c hc hq
      exact ⟨i :: x, descend?_cons_eq_some.2 ⟨c, hi, hx⟩⟩

theorem height_le_of_mem_preOrder (h : q ∈ p.preOrder) : q = p ∨ q.height < p.height := by
  induction p using childInduction with
  | h p ih =>
    rcases mem_preOrder.1 h with rfl | ⟨c, hc, hq⟩
    · exact Or.inl rfl
    · have hlt := height_lt_of_mem_children hc
      rcases ih c hc hq with rfl | hbelow
      · exact Or.inr hlt
      · exact Or.inr (Nat.lt_trans hbelow hlt)

theorem size_eq_of_shape_eq (h : p.node.shape = q.node.shape) : p.size = q.size := by
  rw [size, size, ← Rose.size_map (fun l => l.tag.toContent) p.node,
    ← Rose.size_map (fun l => l.tag.toContent) q.node]
  exact congrArg Rose.size h

theorem height_eq_of_shape_eq (h : p.node.shape = q.node.shape) : p.height = q.height := by
  rw [height, height, ← Rose.height_map (fun l => l.tag.toContent) p.node,
    ← Rose.height_map (fun l => l.tag.toContent) q.node]
  exact congrArg Rose.height h

theorem map_shape_children (p : Place) :
    (p.children.map fun c => c.node.shape) = p.node.shape.children := by
  rw [Rose.shape, Rose.children_map, children, List.map_map]
  rfl

theorem exists_child_of_shape_eq (h : p.node.shape = q.node.shape) {i : Nat} {c : Place}
    (hc : p.children[i]? = some c) :
    ∃ e, q.children[i]? = some e ∧ c.node.shape = e.node.shape := by
  have hshapes : (p.children.map fun c => c.node.shape)[i]? =
      (q.children.map fun c => c.node.shape)[i]? := by
    rw [map_shape_children, map_shape_children, h]
  rw [List.getElem?_map, List.getElem?_map, hc] at hshapes
  obtain ⟨e, he, hshape⟩ := Option.map_eq_some_iff.1 hshapes.symm
  exact ⟨e, he, hshape.symm⟩

theorem exists_descend?_of_shape_eq (h : p.node.shape = q.node.shape) {x : Address}
    (hx : p.descend? x = some r) :
    ∃ e, q.descend? x = some e ∧ r.node.shape = e.node.shape := by
  induction x generalizing p q with
  | nil =>
    cases hx
    exact ⟨q, rfl, h⟩
  | cons i x ih =>
    obtain ⟨c, hc, hx⟩ := descend?_cons_eq_some.1 hx
    obtain ⟨d, hd, hshape⟩ := exists_child_of_shape_eq h hc
    obtain ⟨e, he, hre⟩ := ih hshape hx
    exact ⟨e, descend?_cons_eq_some.2 ⟨d, hd, he⟩, hre⟩

end Place

theorem mem_zip_flatMap {α β γ δ : Type} {f : α → List γ} {g : β → List δ} {l : List α}
    {k : List β} (h : ∀ (i : Nat) (a : α) (b : β), l[i]? = some a → k[i]? = some b →
      (f a).length = (g b).length)
    {i : Nat} {a : α} {b : β} (ha : l[i]? = some a) (hb : k[i]? = some b) {u : γ × δ}
    (hu : u ∈ (f a).zip (g b)) : u ∈ (l.flatMap f).zip (k.flatMap g) := by
  induction l generalizing k i with
  | nil => cases ha
  | cons x l ih =>
    cases k with
    | nil => cases hb
    | cons y k =>
      rw [List.flatMap_cons, List.flatMap_cons, List.zip_append (h 0 x y rfl rfl), List.mem_append]
      cases i with
      | zero =>
        cases ha
        cases hb
        exact Or.inl hu
      | succ i => exact Or.inr (ih (fun j => h (j + 1)) ha hb)

theorem exists_of_mem_zip_flatMap {α β γ δ : Type} {f : α → List γ} {g : β → List δ} {l : List α}
    {k : List β} (h : ∀ (i : Nat) (a : α) (b : β), l[i]? = some a → k[i]? = some b →
      (f a).length = (g b).length) {u : γ × δ} (hu : u ∈ (l.flatMap f).zip (k.flatMap g))
    (hlength : l.length = k.length) :
    ∃ (i : Nat) (a : α) (b : β), l[i]? = some a ∧ k[i]? = some b ∧ u ∈ (f a).zip (g b) := by
  induction l generalizing k with
  | nil => simp at hu
  | cons x l ih =>
    cases k with
    | nil => simp at hlength
    | cons y k =>
      rw [List.flatMap_cons, List.flatMap_cons, List.zip_append (h 0 x y rfl rfl),
        List.mem_append] at hu
      rcases hu with hu | hu
      · exact ⟨0, x, y, rfl, rfl, hu⟩
      · obtain ⟨i, a, b, ha, hb, hu⟩ := ih (fun j => h (j + 1)) hu (by simpa using hlength)
        exact ⟨i + 1, a, b, ha, hb, hu⟩

namespace Place

variable {p q r e : Place}

theorem length_children_of_shape_eq (h : p.node.shape = q.node.shape) :
    p.children.length = q.children.length := by
  have hshapes := congrArg List.length (map_shape_children p)
  rw [h, ← map_shape_children q] at hshapes
  simpa using hshapes

theorem length_preOrder_of_children (h : p.node.shape = q.node.shape) (i : Nat) (c d : Place)
    (hc : p.children[i]? = some c) (hd : q.children[i]? = some d) :
    c.preOrder.length = d.preOrder.length := by
  obtain ⟨d', hd', hshape⟩ := exists_child_of_shape_eq h hc
  rw [hd] at hd'
  cases hd'
  rw [length_preOrder, length_preOrder, size_eq_of_shape_eq hshape]

theorem exists_descend?_of_mem_zip (h : p.node.shape = q.node.shape)
    (hu : (r, e) ∈ p.preOrder.zip q.preOrder) :
    ∃ x, p.descend? x = some r ∧ q.descend? x = some e := by
  induction p using childInduction generalizing q with
  | h p ih =>
    rw [preOrder_eq p, preOrder_eq q, List.zip_cons_cons, List.mem_cons] at hu
    rcases hu with heq | hu
    · cases heq
      exact ⟨[], rfl, rfl⟩
    · obtain ⟨i, c, d, hc, hd, hu⟩ := exists_of_mem_zip_flatMap
        (length_preOrder_of_children h) hu (length_children_of_shape_eq h)
      obtain ⟨d', hd', hshape⟩ := exists_child_of_shape_eq h hc
      rw [hd] at hd'
      cases hd'
      obtain ⟨x, hr, he⟩ := ih c (List.mem_of_getElem? hc) hshape hu
      exact ⟨i :: x, descend?_cons_eq_some.2 ⟨c, hc, hr⟩, descend?_cons_eq_some.2 ⟨d, hd, he⟩⟩

theorem shape_eq_of_mem_zip (h : p.node.shape = q.node.shape)
    (hu : (r, e) ∈ p.preOrder.zip q.preOrder) : r.node.shape = e.node.shape := by
  obtain ⟨x, hr, he⟩ := exists_descend?_of_mem_zip h hu
  obtain ⟨e', he', hshape⟩ := exists_descend?_of_shape_eq h hr
  rw [he] at he'
  cases he'
  exact hshape

/-- In lockstep pre-order, places of one shape are paired address by address. -/
theorem mem_zip_preOrder (h : p.node.shape = q.node.shape) {x : Address}
    (hr : p.descend? x = some r) (he : q.descend? x = some e) :
    (r, e) ∈ p.preOrder.zip q.preOrder := by
  induction x generalizing p q with
  | nil =>
    cases hr
    cases he
    rw [preOrder_eq, preOrder_eq]
    exact List.mem_cons_self
  | cons i x ih =>
    obtain ⟨c, hc, hr⟩ := descend?_cons_eq_some.1 hr
    obtain ⟨d, hd, he⟩ := descend?_cons_eq_some.1 he
    obtain ⟨d', hd', hshape⟩ := exists_child_of_shape_eq h hc
    rw [hd] at hd'
    cases hd'
    rw [preOrder_eq p, preOrder_eq q]
    apply List.mem_cons_of_mem
    exact mem_zip_flatMap (length_preOrder_of_children h) hc hd (ih hshape hr he)

end Place

namespace Descriptor.Sketch

def place (file : Ast) (x : Address) : Place :=
  ((Place.root (Rose.wrap Mix.standard file)).descend? x).getD default

theorem place_mem_nodes {file : Ast} {x : Address}
    (h : ((Place.root (Rose.wrap Mix.standard file)).descend? x).isSome) :
    place file x ∈ nodes (Rose.wrap Mix.standard file) := by
  obtain ⟨p, hp⟩ := Option.isSome_iff_exists.1 h
  rw [place, hp]
  exact Place.mem_preOrder_of_descend? hp

end Descriptor.Sketch

end Relocate
