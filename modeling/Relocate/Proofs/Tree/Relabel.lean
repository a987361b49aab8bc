import Relocate.EditDistance.Alignment
import Relocate.Proofs.Tree.Shape

/-!
# Relabelled trees

A relabelling changes digests and tags and keeps the numbers. Walks, reduced copies and their
numbers commute with it, since they never look at a tag. Wrapping commutes with it, too, when the
digests are mixed accordingly.
-/

set_option autoImplicit false

namespace Relocate

structure Relabelling where
  digest : Nat → Nat
  tag : Tag → Tag

namespace Relabelling

def label (ρ : Relabelling) (l : Label) : Label := ⟨l.id, ρ.digest l.digest, ρ.tag l.tag⟩

def Carries (ρ : Relabelling) (mix mix' : Mix) : Prop :=
  ∀ (t : Tag) (below : List Nat),
    mix' (ρ.tag t).toContent (below.map ρ.digest) = ρ.digest (mix t.toContent below)

def bareTag (c : Content) : Tag := { c with field := none, line := 0 }

def bareMix : Mix := fun _ _ => 0

/-- New contents, and neither digests nor fields nor lines. -/
def bare (f : Content → Content) : Relabelling := ⟨fun _ => 0, fun t => bareTag (f t.toContent)⟩

theorem carries_bare (f : Content → Content) (mix : Mix) : (bare f).Carries mix bareMix :=
  fun _ _ => rfl

end Relabelling

namespace Rose

section Map

variable {α β γ : Type} (f : α → β)

mutual
theorem map_map (g : β → γ) : (t : Rose α) → (t.map f).map g = t.map fun a => g (f a)
  | node a cs => by rw [map, map, map, mapAll_mapAll g cs]

theorem mapAll_mapAll (g : β → γ) :
    (cs : List (Rose α)) → mapAll g (mapAll f cs) = mapAll (fun a => g (f a)) cs
  | [] => rfl
  | c :: cs => by rw [mapAll, mapAll, mapAll, map_map g c, mapAll_mapAll g cs]
end

mutual
theorem preOrder_map : (t : Rose α) → (t.map f).preOrder = t.preOrder.map (map f)
  | node a cs => by rw [map, preOrder, preOrder, preOrderAll_mapAll cs, List.map_cons, map]

theorem preOrderAll_mapAll :
    (cs : List (Rose α)) → preOrderAll (mapAll f cs) = (preOrderAll cs).map (map f)
  | [] => rfl
  | c :: cs => by
    rw [mapAll, preOrderAll, preOrderAll, preOrder_map c, preOrderAll_mapAll cs,
      List.map_append]
end

mutual
theorem postOrder_map : (t : Rose α) → (t.map f).postOrder = t.postOrder.map (map f)
  | node a cs => by
    rw [map, postOrder, postOrder, postOrderAll_mapAll cs, List.map_append, List.map_singleton, map]

theorem postOrderAll_mapAll :
    (cs : List (Rose α)) → postOrderAll (mapAll f cs) = (postOrderAll cs).map (map f)
  | [] => rfl
  | c :: cs => by
    rw [mapAll, postOrderAll, postOrderAll, postOrder_map c, postOrderAll_mapAll cs,
      List.map_append]
end

theorem map_label_postOrder (t : Rose α) :
    (t.map f).postOrder.map label = (t.postOrder.map label).map f := by
  rw [postOrder_map, List.map_map, List.map_map]
  exact List.map_congr_left fun u _ => label_map f u

end Map

end Rose

def Item.map {α β : Type} (f : α → β) (i : Item α) : Item β := ⟨f i.label, i.order, i.leftmost⟩

namespace Rose

section Number

variable {α β : Type} (f : α → β)

theorem leftmostOf_mapAll (own : Nat) (cs : List (Rose (Item α))) :
    leftmostOf own (mapAll (Item.map f) cs) = leftmostOf own cs := by
  cases cs with
  | nil => rfl
  | cons c cs => rw [mapAll, leftmostOf, leftmostOf, label_map, Item.map]

mutual
theorem numberPost_map (next : Nat) :
    (t : Rose α) → numberPost next (t.map f) = (numberPost next t).map (Item.map f)
  | node a cs => by
    rw [map, numberPost, numberPost, numberPostAll_mapAll next cs, map, totalSize_mapAll,
      leftmostOf_mapAll]
    rfl

theorem numberPostAll_mapAll (next : Nat) : (cs : List (Rose α)) →
    numberPostAll next (mapAll f cs) = mapAll (Item.map f) (numberPostAll next cs)
  | [] => rfl
  | c :: cs => by
    rw [mapAll, numberPostAll, numberPostAll, numberPost_map next c, mapAll,
      numberPostAll_mapAll (next + (c.map f).size) cs, size_map]
end

mutual
theorem map_label_numberPost (next : Nat) :
    (t : Rose α) → (numberPost next t).map Item.label = t
  | node a cs => by rw [numberPost, map, mapAll_label_numberPostAll next cs]

theorem mapAll_label_numberPostAll (next : Nat) :
    (cs : List (Rose α)) → mapAll Item.label (numberPostAll next cs) = cs
  | [] => rfl
  | c :: cs => by
    rw [numberPostAll, mapAll, map_label_numberPost next c,
      mapAll_label_numberPostAll (next + c.size) cs]
end

end Number

section Wrap

variable {ρ : Relabelling} {mix mix' : Mix}

@[simp] theorem id_map_label (ρ : Relabelling) (t : Wrapped) : (t.map ρ.label).id = t.id := by
  rw [id, label_map]
  rfl

theorem digest_map_label (ρ : Relabelling) (t : Wrapped) :
    (t.map ρ.label).digest = ρ.digest t.digest := by
  rw [digest, label_map]
  rfl

mutual
theorem map_wrapFrom (h : ρ.Carries mix mix') (next : Nat) :
    (t : Rose Tag) → (wrapFrom mix next t).map ρ.label = wrapFrom mix' next (t.map ρ.tag)
  | node tag cs => by
    have hcs := mapAll_wrapAllFrom h (next + 1) cs
    have hdigests : (wrapAllFrom mix' (next + 1) (mapAll ρ.tag cs)).map digest =
        ((wrapAllFrom mix (next + 1) cs).map digest).map ρ.digest := by
      rw [← hcs, mapAll_eq_map, List.map_map, List.map_map]
      exact List.map_congr_left fun c _ => digest_map_label ρ c
    rw [wrapFrom, map, wrapFrom.eq_def mix' next, map]
    simp only [hdigests, h tag, hcs]
    rfl

theorem mapAll_wrapAllFrom (h : ρ.Carries mix mix') (next : Nat) : (cs : List (Rose Tag)) →
    mapAll ρ.label (wrapAllFrom mix next cs) = wrapAllFrom mix' next (mapAll ρ.tag cs)
  | [] => rfl
  | c :: cs => by
    rw [wrapAllFrom, mapAll, mapAll, wrapAllFrom, map_wrapFrom h next c,
      mapAll_wrapAllFrom h (next + c.size) cs, size_map]
end

theorem map_wrap (h : ρ.Carries mix mix') (t : Ast) :
    (wrap mix t).map ρ.label = wrap mix' (t.map ρ.tag) :=
  map_wrapFrom h 0 t

theorem map_wrap_bare (f : Content → Content) (mix : Mix) (t : Ast) :
    (wrap mix t).map (Relabelling.bare f).label =
      wrap Relabelling.bareMix (t.outline.map fun c => Relabelling.bareTag (f c)) := by
  rw [map_wrap (Relabelling.carries_bare f mix), outline, map_map]
  rfl

end Wrap

end Rose

namespace Place

variable (ρ : Relabelling)

def relabel (p : Place) : Place := ⟨p.node.map ρ.label, p.above.map (Rose.map ρ.label)⟩

@[simp] theorem id_relabel (p : Place) : (p.relabel ρ).id = p.id := Rose.id_map_label ρ p.node

@[simp] theorem size_relabel (p : Place) : (p.relabel ρ).size = p.size :=
  Rose.size_map ρ.label p.node

@[simp] theorem height_relabel (p : Place) : (p.relabel ρ).height = p.height :=
  Rose.height_map ρ.label p.node

theorem tag_relabel (p : Place) : (p.relabel ρ).tag = ρ.tag p.tag := by
  rw [tag, relabel, Rose.tag, Rose.label_map]
  rfl

@[simp] theorem isRoot_relabel (p : Place) : (p.relabel ρ).isRoot = p.isRoot :=
  List.isEmpty_map

theorem root_relabel (n : Wrapped) : (root n).relabel ρ = root (n.map ρ.label) := rfl

theorem parent?_relabel (p : Place) : (p.relabel ρ).parent? = p.parent?.map (relabel ρ) := by
  obtain ⟨n, above⟩ := p
  cases above with
  | nil => rfl
  | cons m above => rfl

theorem children_relabel (p : Place) :
    (p.relabel ρ).children = p.children.map (relabel ρ) := by
  rw [children, children, relabel, Rose.children_map, List.map_map, List.map_map]
  rfl

theorem chain_map (ns : List Wrapped) :
    chain (ns.map (Rose.map ρ.label)) = (chain ns).map (relabel ρ) := by
  induction ns with
  | nil => rfl
  | cons n ns ih => rw [List.map_cons, chain, chain, ih, List.map_cons, relabel]

theorem ancestors_relabel (p : Place) :
    (p.relabel ρ).ancestors = p.ancestors.map (relabel ρ) :=
  chain_map ρ p.above

theorem upward_relabel (p : Place) : (p.relabel ρ).upward = p.upward.map (relabel ρ) := by
  rw [upward, upward, ancestors_relabel, List.map_cons]

theorem flatMap_relabel {f : Place → List Place} {ps : List Place}
    (h : ∀ p ∈ ps, f (p.relabel ρ) = (f p).map (relabel ρ)) :
    (ps.map (relabel ρ)).flatMap f = (ps.flatMap f).map (relabel ρ) := by
  rw [List.flatMap_map, List.map_flatMap]
  exact List.flatMap_congr h

theorem preOrder_relabel (p : Place) : (p.relabel ρ).preOrder = p.preOrder.map (relabel ρ) := by
  induction p using childInduction with
  | h p ih =>
    rw [preOrder_eq, children_relabel, flatMap_relabel ρ ih, preOrder_eq p, List.map_cons]

theorem postOrder_relabel (p : Place) : (p.relabel ρ).postOrder = p.postOrder.map (relabel ρ) := by
  induction p using childInduction with
  | h p ih =>
    rw [postOrder_eq, children_relabel, flatMap_relabel ρ ih, postOrder_eq p, List.map_append,
      List.map_singleton]

theorem descendants_relabel (p : Place) :
    (p.relabel ρ).descendants = p.descendants.map (relabel ρ) := by
  rw [descendants, descendants, preWalk_eq_flatMap, preWalk_eq_flatMap, children_relabel,
    flatMap_relabel ρ fun q _ => preOrder_relabel ρ q]

theorem nodes_map (T : Wrapped) : nodes (T.map ρ.label) = (nodes T).map (relabel ρ) :=
  preOrder_relabel ρ (root T)

mutual
theorem prune_map (taken : Nat → Bool) (above : List Wrapped) : (t : Wrapped) →
    prune taken (above.map (Rose.map ρ.label)) (t.map ρ.label) =
      (prune taken above t).map (relabel ρ)
  | .node l cs => by
    have hcs := pruneAll_mapAll taken (.node l cs :: above) cs
    rw [List.map_cons, Rose.map] at hcs
    rw [Rose.map, prune, prune, hcs, Rose.map, relabel, Rose.map]

theorem pruneAll_mapAll (taken : Nat → Bool) (above : List Wrapped) : (cs : List Wrapped) →
    pruneAll taken (above.map (Rose.map ρ.label)) (Rose.mapAll ρ.label cs) =
      Rose.mapAll (relabel ρ) (pruneAll taken above cs)
  | [] => rfl
  | c :: cs => by
    rw [Rose.mapAll, pruneAll, pruneAll, Rose.id_map_label, prune_map taken above c,
      pruneAll_mapAll taken above cs]
    split <;> rfl
end

end Place

namespace Reduced

variable (ρ : Relabelling) (taken : Nat → Bool) (p : Place)

theorem ofPlace_relabel : Reduced.ofPlace taken (p.relabel ρ) =
    (Reduced.ofPlace taken p).map (Item.map (Place.relabel ρ)) := by
  rw [ofPlace, ofPlace, ← Rose.numberPost_map, ← Place.prune_map]
  rfl

theorem items_relabel : (Reduced.ofPlace taken (p.relabel ρ)).items =
    (Reduced.ofPlace taken p).items.map (Item.map (Place.relabel ρ)) := by
  rw [items, ofPlace_relabel, Rose.map_label_postOrder]
  rfl

theorem count_relabel :
    (Reduced.ofPlace taken (p.relabel ρ)).count = (Reduced.ofPlace taken p).count := by
  rw [count, ofPlace_relabel, Rose.label_map]
  rfl

end Reduced

end Relocate
