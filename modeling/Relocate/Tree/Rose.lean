/-!
# Ordered labelled trees

The one tree shape of the library: a label and an ordered list of subtrees. Syntax trees, numbered
trees, pruned trees and concrete syntax all differ only in their labels. Sizes, heights and the two
depth-first orders are computed by recursion on the tree.
-/

set_option autoImplicit false

namespace Relocate

inductive Rose (α : Type) where
  | node (label : α) (children : List (Rose α))
  deriving Inhabited

namespace Rose

variable {α β : Type}

def label : Rose α → α
  | node a _ => a

def children : Rose α → List (Rose α)
  | node _ cs => cs

@[simp] theorem label_node (a : α) (cs : List (Rose α)) : (node a cs).label = a := rfl

@[simp] theorem children_node (a : α) (cs : List (Rose α)) : (node a cs).children = cs := rfl

mutual
def size : Rose α → Nat
  | node _ cs => 1 + totalSize cs

def totalSize : List (Rose α) → Nat
  | [] => 0
  | c :: cs => size c + totalSize cs
end

mutual
def height : Rose α → Nat
  | node _ cs => 1 + tallest cs

def tallest : List (Rose α) → Nat
  | [] => 0
  | c :: cs => max (height c) (tallest cs)
end

mutual
def map (f : α → β) : Rose α → Rose β
  | node a cs => node (f a) (mapAll f cs)

def mapAll (f : α → β) : List (Rose α) → List (Rose β)
  | [] => []
  | c :: cs => map f c :: mapAll f cs
end

mutual
def preOrder : Rose α → List (Rose α)
  | node a cs => node a cs :: preOrderAll cs

def preOrderAll : List (Rose α) → List (Rose α)
  | [] => []
  | c :: cs => preOrder c ++ preOrderAll cs
end

mutual
def postOrder : Rose α → List (Rose α)
  | node a cs => postOrderAll cs ++ [node a cs]

def postOrderAll : List (Rose α) → List (Rose α)
  | [] => []
  | c :: cs => postOrder c ++ postOrderAll cs
end

theorem size_pos (t : Rose α) : 0 < t.size := by
  cases t; simp only [size]; omega

theorem size_eq (t : Rose α) : t.size = 1 + totalSize t.children := by
  cases t; rfl

theorem height_pos (t : Rose α) : 0 < t.height := by
  cases t; simp only [height]; omega

theorem size_le_totalSize {c : Rose α} {cs : List (Rose α)} (h : c ∈ cs) :
    c.size ≤ totalSize cs := by
  induction cs with
  | nil => cases h
  | cons d ds ih =>
    rcases List.mem_cons.1 h with rfl | h
    · simp only [totalSize]; omega
    · have := ih h
      simp only [totalSize]; omega

theorem size_lt_of_mem {a : α} {c : Rose α} {cs : List (Rose α)} (h : c ∈ cs) :
    c.size < (node a cs).size := by
  have := size_le_totalSize h
  simp only [size]; omega

theorem size_lt_of_mem_children (t : Rose α) {c : Rose α} (h : c ∈ t.children) :
    c.size < t.size := by
  cases t; exact size_lt_of_mem h

theorem height_le_tallest {c : Rose α} {cs : List (Rose α)} (h : c ∈ cs) :
    c.height ≤ tallest cs := by
  induction cs with
  | nil => cases h
  | cons d ds ih =>
    rcases List.mem_cons.1 h with rfl | h
    · simp only [tallest]; omega
    · have := ih h
      simp only [tallest]; omega

theorem height_lt_of_mem {a : α} {c : Rose α} {cs : List (Rose α)} (h : c ∈ cs) :
    c.height < (node a cs).height := by
  have := height_le_tallest h
  simp only [height]; omega

theorem mapAll_eq_map (f : α → β) (cs : List (Rose α)) : mapAll f cs = cs.map (map f) := by
  induction cs with
  | nil => rfl
  | cons c cs ih => simp [mapAll, ih]

theorem preOrderAll_eq_flatMap (cs : List (Rose α)) : preOrderAll cs = cs.flatMap preOrder := by
  induction cs with
  | nil => rfl
  | cons c cs ih => rw [preOrderAll, ih, List.flatMap_cons]

theorem postOrderAll_eq_flatMap (cs : List (Rose α)) : postOrderAll cs = cs.flatMap postOrder := by
  induction cs with
  | nil => rfl
  | cons c cs ih => rw [postOrderAll, ih, List.flatMap_cons]

theorem preOrder_eq (t : Rose α) : t.preOrder = t :: t.children.flatMap preOrder := by
  obtain ⟨a, cs⟩ := t
  rw [preOrder, preOrderAll_eq_flatMap, children_node]

theorem postOrder_eq (t : Rose α) : t.postOrder = t.children.flatMap postOrder ++ [t] := by
  obtain ⟨a, cs⟩ := t
  rw [postOrder, postOrderAll_eq_flatMap, children_node]

@[simp] theorem children_map (f : α → β) (t : Rose α) :
    (t.map f).children = t.children.map (map f) := by
  cases t; simp [map, mapAll_eq_map]

@[simp] theorem label_map (f : α → β) (t : Rose α) : (t.map f).label = f t.label := by
  cases t; rfl

end Rose

end Relocate
