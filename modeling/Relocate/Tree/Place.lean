import Relocate.Ast

/-!
# Wrapped trees and places

Before two trees are compared, every node gets its pre-order number and a digest of its content and
of its children's digests. A place is a wrapped node together with the nodes above it, nearest
first, so parents and ancestors can be reached without links. Pre-order and post-order walks keep an
explicit stack of places.
-/

set_option autoImplicit false

namespace Relocate

/-- How the digest of a node, a number of any length, is mixed from its content and its children's
digests. -/
abbrev Mix := Content → List Nat → Nat

namespace Mix

def step (h : UInt64) (n : Nat) : UInt64 :=
  (h ^^^ n.toUInt64) * 1099511628211

def text (h : UInt64) (s : String) : UInt64 :=
  s.toList.foldl (fun h c => step h c.toNat) h

/-- Kind, presence and text of the value, number of children and their digests, in this order. -/
def standard : Mix := fun content below =>
  let h := text 14695981039346656037 content.kind
  let h := match content.value with
    | none => step h 0
    | some v => text (step h 1) v
  (below.foldl step (step h below.length)).toNat

end Mix

structure Label where
  id : Nat
  digest : Nat
  tag : Tag
  deriving Inhabited

abbrev Wrapped := Rose Label

namespace Rose

def id (n : Rose Label) : Nat := n.label.id

def digest (n : Rose Label) : Nat := n.label.digest

def tag (n : Rose Label) : Tag := n.label.tag

def content (n : Rose Label) : Content := n.label.tag.toContent

def ast (n : Rose Label) : Rose Tag := n.map Label.tag

def shape (n : Rose Label) : Rose Content := n.map (fun l => l.tag.toContent)

mutual
def wrapFrom (mix : Mix) (next : Nat) : Rose Tag → Rose Label
  | node tag cs =>
    let below := wrapAllFrom mix (next + 1) cs
    node { id := next, digest := mix tag.toContent (below.map digest), tag } below

def wrapAllFrom (mix : Mix) (next : Nat) : List (Rose Tag) → List (Rose Label)
  | [] => []
  | c :: cs => wrapFrom mix next c :: wrapAllFrom mix (next + c.size) cs
end

def wrap (mix : Mix) (t : Rose Tag) : Rose Label := wrapFrom mix 0 t

def sameContent (a b : Rose Label) : Bool := a.content == b.content

mutual
/-- Same kinds and values in the same arrangement. Unequal digests decide early, at every level. -/
def isomorphic : Rose Label → Rose Label → Bool
  | node a as, node b bs =>
    a.digest == b.digest && a.tag.toContent == b.tag.toContent && isomorphicAll as bs

def isomorphicAll : List (Rose Label) → List (Rose Label) → Bool
  | [], [] => true
  | a :: as, b :: bs => isomorphic a b && isomorphicAll as bs
  | _, _ => false
end

mutual
theorem size_wrapFrom (mix : Mix) (next : Nat) :
    (t : Rose Tag) → (wrapFrom mix next t).size = t.size
  | node tag cs => by simp only [wrapFrom, size, totalSize_wrapAllFrom mix (next + 1) cs]

theorem totalSize_wrapAllFrom (mix : Mix) (next : Nat) :
    (cs : List (Rose Tag)) → totalSize (wrapAllFrom mix next cs) = totalSize cs
  | [] => rfl
  | c :: cs => by
    simp only [wrapAllFrom, totalSize, size_wrapFrom mix next c,
      totalSize_wrapAllFrom mix (next + c.size) cs]
end

@[simp] theorem size_wrap (mix : Mix) (t : Rose Tag) : (wrap mix t).size = t.size :=
  size_wrapFrom mix 0 t

@[simp] theorem id_wrap (mix : Mix) (t : Rose Tag) : (wrap mix t).id = 0 := by
  cases t; rfl

end Rose

/-- A wrapped node and the nodes above it, nearest first. -/
structure Place where
  node : Wrapped
  above : List Wrapped
  deriving Inhabited

namespace Place

def root (n : Wrapped) : Place := ⟨n, []⟩

def id (p : Place) : Nat := p.node.id

def tag (p : Place) : Tag := p.node.tag

def kind (p : Place) : String := p.tag.kind

def value (p : Place) : Option String := p.tag.value

def line (p : Place) : Nat := p.tag.line

def ast (p : Place) : Ast := p.node.ast

def height (p : Place) : Nat := p.node.height

def size (p : Place) : Nat := p.node.size

def isRoot (p : Place) : Bool := p.above.isEmpty

def parent? (p : Place) : Option Place :=
  match p.above with
  | [] => none
  | a :: as => some ⟨a, as⟩

def children (p : Place) : List Place :=
  p.node.children.map (fun c => ⟨c, p.node :: p.above⟩)

def chain : List Wrapped → List Place
  | [] => []
  | a :: as => ⟨a, as⟩ :: chain as

def ancestors (p : Place) : List Place := chain p.above

def upward (p : Place) : List Place := p :: p.ancestors

def totalSize : List Place → Nat
  | [] => 0
  | p :: ps => p.size + totalSize ps

@[simp] theorem totalSize_append (ps qs : List Place) :
    totalSize (ps ++ qs) = totalSize ps + totalSize qs := by
  induction ps with
  | nil => simp [totalSize]
  | cons p ps ih => simp [totalSize, ih, Nat.add_assoc]

theorem totalSize_map_mk (above : List Wrapped) (cs : List Wrapped) :
    totalSize (cs.map (fun c => ⟨c, above⟩)) = Rose.totalSize cs := by
  induction cs with
  | nil => rfl
  | cons c cs ih => simp [totalSize, Rose.totalSize, ih, size]

theorem size_eq (p : Place) : p.size = 1 + totalSize p.children := by
  rw [children, totalSize_map_mk, size, Rose.size_eq]

theorem height_lt_of_mem_children {p c : Place} (h : c ∈ p.children) : c.height < p.height := by
  obtain ⟨n, hn, rfl⟩ := List.mem_map.1 h
  obtain ⟨⟨a, cs⟩, above⟩ := p
  exact Rose.height_lt_of_mem hn

/-- Takes the next place off the stack and puts its children there instead. -/
def preWalk : List Place → List Place
  | [] => []
  | p :: stack => p :: preWalk (p.children ++ stack)
termination_by stack => totalSize stack
decreasing_by simp only [totalSize_append, totalSize, size_eq p]; omega

def preOrder (p : Place) : List Place := preWalk [p]

def descendants (p : Place) : List Place := preWalk p.children

/-- Steps left for a stack of places with the children not yet visited. -/
def pendingSteps : List (Place × List Place) → Nat
  | [] => 0
  | (_, cs) :: stack => 1 + 2 * totalSize cs + pendingSteps stack

/-- Goes down into the next unvisited child of the topmost place, or gives the place out. -/
def postWalk : List (Place × List Place) → List Place
  | [] => []
  | (p, []) :: stack => p :: postWalk stack
  | (p, c :: cs) :: stack => postWalk ((c, c.children) :: (p, cs) :: stack)
termination_by stack => pendingSteps stack
decreasing_by
  · simp only [pendingSteps]; omega
  · simp only [pendingSteps, totalSize, size_eq c]; omega

def postOrder (p : Place) : List Place := postWalk [(p, p.children)]

/-- Kind, value if there is one, and line: `kind: value [line N]`. -/
def display (p : Place) : String :=
  match p.value with
  | some v => s!"{p.kind}: {v} [line {p.line}]"
  | none => s!"{p.kind} [line {p.line}]"

end Place

end Relocate
