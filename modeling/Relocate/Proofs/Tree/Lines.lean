import Relocate.Proofs.Tree.Nodes

/-!
# Lines of a tree

What holds of every label of a tree, above all that no line is behind a limit. Places of a tree
stand for its subtrees, so the limit holds for them as well.
-/

set_option autoImplicit false

namespace Relocate

namespace Rose

variable {α : Type} {P : α → Prop}

def Every (P : α → Prop) (t : Rose α) : Prop := ∀ u ∈ t.preOrder, P u.label

theorem mem_preOrderAll {cs : List (Rose α)} {u : Rose α} :
    u ∈ preOrderAll cs ↔ ∃ c ∈ cs, u ∈ c.preOrder := by
  rw [preOrderAll_eq_flatMap, List.mem_flatMap]

theorem mem_preOrder_self (t : Rose α) : t ∈ t.preOrder := by
  cases t
  exact List.mem_cons_self

theorem mem_preOrder_of_mem_children {t c u : Rose α} (hc : c ∈ t.children) (hu : u ∈ c.preOrder) :
    u ∈ t.preOrder := by
  cases t
  exact List.mem_cons_of_mem _ (mem_preOrderAll.2 ⟨c, hc, hu⟩)

theorem every_node {a : α} {cs : List (Rose α)} :
    Every P (node a cs) ↔ P a ∧ ∀ c ∈ cs, Every P c := by
  simp only [Every, preOrder, List.forall_mem_cons, mem_preOrderAll]
  constructor
  · intro h
    exact ⟨h.1, fun c hc u hu => h.2 u ⟨c, hc, hu⟩⟩
  · intro h
    refine ⟨h.1, fun u hu => ?_⟩
    obtain ⟨c, hc, hu⟩ := hu
    exact h.2 c hc u hu

theorem Every.label {t : Rose α} (h : Every P t) : P t.label := by
  cases t with
  | node a cs => exact (every_node.1 h).1

theorem Every.of_mem_children {t c : Rose α} (h : Every P t) (hc : c ∈ t.children) : Every P c := by
  cases t with
  | node a cs => exact (every_node.1 h).2 c hc

end Rose

def Ast.Within (limit : Nat) (t : Ast) : Prop := Rose.Every (fun tag : Tag => tag.line ≤ limit) t

namespace Place

theorem tag_eq (p : Place) : p.tag = p.ast.label := by
  obtain ⟨⟨l, cs⟩, above⟩ := p
  rfl

theorem ast_mem_children {p c : Place} (h : c ∈ p.children) : c.ast ∈ p.ast.children := by
  obtain ⟨⟨l, cs⟩, above⟩ := p
  rw [children_mk_node] at h
  obtain ⟨n, hn, rfl⟩ := List.mem_map.1 h
  simp only [ast, Rose.ast, Rose.map, Rose.children, Rose.mapAll_eq_map]
  exact List.mem_map_of_mem hn

theorem tag_of_every {P : Tag → Prop} {p q : Place} (h : p.ast.Every P) (hq : q ∈ p.preOrder) :
    P q.tag := by
  induction p using childInduction with
  | h p ih =>
    rcases mem_preOrder.1 hq with rfl | ⟨c, hc, hqc⟩
    · rw [tag_eq]
      exact h.label
    · exact ih c hc (h.of_mem_children (ast_mem_children hc)) hqc

theorem line_le_of_within {mix : Mix} {t : Ast} {limit : Nat} {p : Place} (h : t.Within limit)
    (hp : p ∈ nodes (Rose.wrap mix t)) : p.line ≤ limit := by
  rw [← Rose.ast_wrap mix t] at h
  exact tag_of_every (p := root (Rose.wrap mix t)) h hp

end Place

end Relocate
