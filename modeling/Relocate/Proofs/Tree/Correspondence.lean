import Relocate.Proofs.Tree.Relabel
import Relocate.Proofs.Tree.Walks

/-!
# Corresponding nodes

Two trees are the same when they have the same labels at the same addresses, and also when their
labels, listed in pre-order with the numbers of children, are the same: such a list tells where each
subtree ends. So wrapped trees are isomorphic exactly when they correspond node by node, whatever
the digests, and then a walk below both in lockstep pairs corresponding nodes.
-/

set_option autoImplicit false

namespace Relocate

namespace Rose

variable {α β : Type}

/-- The labels in pre-order, each with its number of children. -/
def spelling (t : Rose α) : List (α × Nat) := t.preOrder.map fun u => (u.label, u.children.length)

theorem spelling_node (a : α) (cs : List (Rose α)) :
    (node a cs).spelling = (a, cs.length) :: cs.flatMap spelling := by
  rw [spelling, preOrder_eq, List.map_cons, List.map_flatMap]
  rfl

mutual
/-- A spelling tells the tree, and where it ends if more follows. -/
theorem eq_of_spelling_append_eq : (t u : Rose α) → ∀ r s : List (α × Nat),
    t.spelling ++ r = u.spelling ++ s → t = u ∧ r = s
  | node a as, node b bs => by
    intro r s h
    rw [spelling_node, spelling_node, List.cons_append, List.cons_append, List.cons.injEq,
      Prod.mk.injEq] at h
    obtain ⟨⟨rfl, hlength⟩, hbelow⟩ := h
    obtain ⟨rfl, hrest⟩ := eq_of_spellings_append_eq as bs hlength r s hbelow
    exact ⟨rfl, hrest⟩

/-- Neighbouring trees can be told apart once it is known how many there are. -/
theorem eq_of_spellings_append_eq : (ts us : List (Rose α)) → ts.length = us.length →
    ∀ r s : List (α × Nat), ts.flatMap spelling ++ r = us.flatMap spelling ++ s → ts = us ∧ r = s
  | [], [] => fun _ _ _ h => ⟨rfl, h⟩
  | t :: ts, u :: us => by
    intro hlength r s h
    rw [List.flatMap_cons, List.flatMap_cons, List.append_assoc, List.append_assoc] at h
    obtain ⟨rfl, hbehind⟩ := eq_of_spelling_append_eq t u _ _ h
    obtain ⟨rfl, hrest⟩ := eq_of_spellings_append_eq ts us (Nat.succ.inj hlength) r s hbehind
    exact ⟨rfl, hrest⟩
  | [], _ :: _ => by simp
  | _ :: _, [] => by simp
end

theorem spelling_inj {t u : Rose α} : t.spelling = u.spelling ↔ t = u := by
  constructor
  · intro h
    exact (eq_of_spelling_append_eq t u [] [] (congrArg (· ++ []) h)).1
  · rintro rfl
    rfl

mutual
theorem eq_of_labels_eq : (t u : Rose α) →
    (∀ x, (t.subtree? x).map label = (u.subtree? x).map label) → t = u
  | node a as, node b bs => by
    intro h
    have hroot : a = b := Option.some.inj (h [])
    rw [hroot, eq_of_neighbouring_labels_eq as bs fun i x => h (i :: x)]

theorem eq_of_neighbouring_labels_eq : (ts us : List (Rose α)) →
    (∀ (i : Nat) (x : Address), (ts[i]?.bind fun c => c.subtree? x).map label =
      (us[i]?.bind fun c => c.subtree? x).map label) → ts = us
  | [], [] => fun _ => rfl
  | t :: ts, u :: us => by
    intro h
    rw [eq_of_labels_eq t u fun x => h 0 x,
      eq_of_neighbouring_labels_eq ts us fun i x => h (i + 1) x]
  | [], u :: _ => fun h => absurd (h 0 []) (Option.some_ne_none u.label).symm
  | t :: _, [] => fun h => absurd (h 0 []) (Option.some_ne_none t.label)
end

theorem subtree?_map (f : α → β) (t : Rose α) (x : Address) :
    (t.map f).subtree? x = (t.subtree? x).map (map f) := by
  induction x generalizing t with
  | nil => rfl
  | cons i x ih =>
    rw [subtree?, subtree?, children_map, List.getElem?_map, Option.map_bind, Option.bind_map]
    exact congrArg _ (funext ih)

end Rose

namespace Place

variable {p q : Place}

def content (p : Place) : Content := p.node.content

def entry (p : Place) : Content × Nat := (p.content, p.children.length)

/-- The same addresses lead to nodes below both, of the same kinds and values. -/
def Corresponds (p q : Place) : Prop :=
  ∀ x, (p.descend? x).map content = (q.descend? x).map content

/-- In lockstep pre-order no node below is left over, and each meets the one at its own address. -/
structure InStep (p q : Place) : Prop where
  length : p.preOrder.length = q.preOrder.length
  paired : ∀ r e, (r, e) ∈ p.preOrder.zip q.preOrder ↔
    ∃ x, p.descend? x = some r ∧ q.descend? x = some e

theorem map_node_descend? (p : Place) (x : Address) :
    (p.descend? x).map node = p.node.subtree? x := by
  induction x generalizing p with
  | nil => rfl
  | cons i x ih =>
    rw [descend?, Rose.subtree?, ← map_node_children, List.getElem?_map, Option.map_bind,
      Option.bind_map]
    exact congrArg _ (funext ih)

theorem map_content_descend? (p : Place) (x : Address) :
    (p.descend? x).map content = (p.node.shape.subtree? x).map Rose.label := by
  rw [Rose.shape, Rose.subtree?_map, ← map_node_descend?, Option.map_map, Option.map_map]
  apply congrArg (Option.map · (p.descend? x))
  funext r
  exact (Rose.label_map (fun l : Label => l.tag.toContent) r.node).symm

theorem shape_eq_iff_corresponds : p.node.shape = q.node.shape ↔ p.Corresponds q := by
  simp only [Corresponds, map_content_descend?]
  constructor
  · intro h x
    rw [h]
  · exact Rose.eq_of_labels_eq _ _

theorem map_entry_preOrder (p : Place) : p.preOrder.map entry = p.node.shape.spelling := by
  rw [Rose.spelling, Rose.shape, Rose.preOrder_map, ← map_node_preOrder, List.map_map, List.map_map]
  apply List.map_congr_left
  intro r _
  simp [entry, content, Rose.content, children]

theorem shape_eq_iff_entries :
    p.node.shape = q.node.shape ↔ p.preOrder.map entry = q.preOrder.map entry := by
  rw [map_entry_preOrder, map_entry_preOrder, Rose.spelling_inj]

theorem inStep_of_shape_eq (h : p.node.shape = q.node.shape) : p.InStep q where
  length := by rw [length_preOrder, length_preOrder, size_eq_of_shape_eq h]
  paired := by
    intro r e
    constructor
    · exact exists_descend?_of_mem_zip h
    · rintro ⟨x, hr, he⟩
      exact mem_zip_preOrder h hr he

end Place

abbrev NodeBy (mix : Mix) := { p : Place // ∃ t : Ast, p ∈ nodes (Rose.wrap mix t) }

theorem NodeBy.isomorphic_iff {mix : Mix} (p q : NodeBy mix) :
    p.1.node.isomorphic q.1.node = true ↔ p.1.node.shape = q.1.node.shape := by
  obtain ⟨p, t, hp⟩ := p
  obtain ⟨q, u, hq⟩ := q
  exact isomorphic_iff_shape_eq hp hq

/-- However digests are mixed, wherever the nodes stand in their trees, and on whatever lines:
isomorphic nodes are those that correspond, and those below which kinds, values and numbers of
children are listed alike in pre-order. A walk below both in lockstep pairs corresponding nodes. -/
theorem isomorphic_corresponds (mix : Mix) :
    (Equivalence fun p q : NodeBy mix => p.1.node.isomorphic q.1.node = true) ∧
    ∀ p q : NodeBy mix,
      (p.1.node.isomorphic q.1.node = true ↔ p.1.Corresponds q.1) ∧
      (p.1.node.isomorphic q.1.node = true ↔
        p.1.preOrder.map Place.entry = q.1.preOrder.map Place.entry) ∧
      (p.1.node.isomorphic q.1.node = true → p.1.InStep q.1) := by
  simp only [NodeBy.isomorphic_iff]
  refine ⟨⟨?_, ?_, ?_⟩, ?_⟩
  · exact fun p => rfl
  · exact Eq.symm
  · exact Eq.trans
  · intro p q
    exact ⟨Place.shape_eq_iff_corresponds, Place.shape_eq_iff_entries, Place.inStep_of_shape_eq⟩

namespace Elsewhere

def call : Ast := .node ⟨⟨"call", none⟩, some "value", 7⟩ [.leaf "identifier" (some "a") 8]

def inBlock : NodeBy Mix.standard :=
  ⟨Matching.Moved.callBefore, Matching.Moved.before, Matching.Moved.twins.src⟩

def alone : NodeBy Mix.standard :=
  ⟨Place.root (Rose.wrap Mix.standard call), call, root_mem_nodes _⟩

end Elsewhere

/-- The call corresponds to itself when it stands alone, elsewhere in the file. -/
theorem isomorphic_corresponds_elsewhere :
    Elsewhere.inBlock.1.node.isomorphic Elsewhere.alone.1.node = true ∧
      Elsewhere.inBlock.1.Corresponds Elsewhere.alone.1 ∧
      Elsewhere.inBlock.1.InStep Elsewhere.alone.1 := by
  obtain ⟨hcorresponds, -, hinStep⟩ :=
    (isomorphic_corresponds Mix.standard).2 Elsewhere.inBlock Elsewhere.alone
  have hisomorphic : Elsewhere.inBlock.1.node.isomorphic Elsewhere.alone.1.node = true := by
    decide +kernel
  exact ⟨hisomorphic, hcorresponds.1 hisomorphic, hinStep hisomorphic⟩

end Relocate
