import Relocate.Source.Automaton
import Relocate.Source.Concrete

/-!
# Derivations

How a text follows from a grammar: a tree of productions over tokens. It keeps the constructs that
make no nodes, since these too decide which of two readings is taken; `nodesBefore` leaves them
out. Main definitions: `isBetter`, the preference between two readings, and `nodesBefore`.
-/

set_option autoImplicit false

namespace Relocate.Source

inductive Derivation where
  | token (symbol : Nat) (token : Token)
  /-- A production read to its end. -/
  | construct (symbol : Nat) (labels : List Label) (weight : Nat) (extent : Extent)
      (parts : List Derivation)
  deriving Inhabited

namespace Derivation

def symbol : Derivation → Nat
  | token s _ => s
  | construct s _ _ _ _ => s

def weight : Derivation → Nat
  | token _ _ => 0
  | construct _ _ w _ _ => w

def extent : Derivation → Extent
  | token _ t => t.extent
  | construct _ _ _ e _ => e

def parts : Derivation → List Derivation
  | token _ _ => []
  | construct _ _ _ _ ds => ds

def totalWeight : List Derivation → Nat
  | [] => 0
  | d :: ds => d.weight + totalWeight ds

def covering : List Derivation → Extent
  | [] => default
  | d :: ds => d.extent.through (ds.getLastD d).extent

def ofItem (item : Item) (parts : List Derivation) : Derivation :=
  construct item.construct item.labels (item.weight + totalWeight parts) (covering parts) parts

/-- Whether two derivations say the same of a place in the text, however they differ inside. -/
def isLike (d e : Derivation) : Bool :=
  d.symbol == e.symbol && d.extent == e.extent && d.parts.length == e.parts.length

/-! ## Preference -/

mutual
/-- Order of two derivations by the numbers of their symbols, shorter ones first, then by their
parts. -/
def order : Derivation → Derivation → Ordering
  | token s _, e => compare s e.symbol
  | construct s _ _ _ ds, e =>
    (compare s e.symbol).then ((compare ds.length e.parts.length).then (orderAll ds e.parts))

def orderAll : List Derivation → List Derivation → Ordering
  | d :: ds, e :: es => (order d e).then (orderAll ds es)
  | _, _ => .eq
end

def isBetter (d e : Derivation) : Bool :=
  d.weight < e.weight || (d.weight == e.weight && order d e == .gt)

def better (d e : Derivation) : Derivation := if isBetter d e then e else d

/-! ## Nodes -/

def ofToken (t : Token) : List Concrete :=
  t.comments.map Concrete.comment ++
    [match t.terminal with
    | .identifier => Concrete.leaf "identifier" t.extent
    | .literal kind => Concrete.leaf kind t.extent
    | .fragment => Concrete.leaf "string_fragment" t.extent
    | .blockFragment => Concrete.leaf "multiline_string_fragment" t.extent
    | .escape => Concrete.leaf "escape_sequence" t.extent
    | .exact _ | .bareEscape | .ending => Concrete.token t.text t.extent]

def marked (l : Label) (nodes : List Concrete) : List Concrete :=
  let nodes := match l.kind with
    | some kind => nodes.map (Concrete.withKind kind)
    | none => nodes
  match l.role with
  | some role => nodes.map (Concrete.withField role)
  | none => nodes

mutual
def nodesBefore (a : Automaton) : Derivation → List Concrete → List Concrete
  | token _ t, rest => ofToken t ++ rest
  | construct s labels _ _ ds, rest =>
    let d := a.definition s
    if d.isNamed then Concrete.group d.name (partsBefore a labels ds []) ++ rest
    else partsBefore a labels ds rest

def partsBefore (a : Automaton) : List Label → List Derivation → List Concrete → List Concrete
  | l :: labels, d :: ds, rest =>
    let rest := partsBefore a labels ds rest
    if l.kind.isNone && l.role.isNone then nodesBefore a d rest
    else marked l (nodesBefore a d []) ++ rest
  | _, _, rest => rest
end

end Derivation

end Relocate.Source
