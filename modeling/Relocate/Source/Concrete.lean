import Relocate.Ast
import Relocate.Source.Extent

/-!
# Concrete trees

What a grammar makes of a source text: a node for every construct and every token, comments
included. A node is named if the grammar gives it a name of its own; other nodes stand for their
tokens. Comments are extra: they may stand between any two tokens.
-/

set_option autoImplicit false

namespace Relocate.Source

structure ConcreteLabel where
  kind : String
  isNamed : Bool
  isExtra : Bool
  field : Option String
  extent : Extent
  deriving DecidableEq, Inhabited

abbrev Concrete := Rose ConcreteLabel

namespace Concrete

def comment (p : Piece) : Rose ConcreteLabel :=
  .node { kind := p.kind, isNamed := true, isExtra := true, field := none, extent := p.extent } []

def leaf (kind : String) (extent : Extent) : Rose ConcreteLabel :=
  .node { kind, isNamed := true, isExtra := false, field := none, extent } []

def token (text : String) (extent : Extent) : Rose ConcreteLabel :=
  .node { kind := text, isNamed := false, isExtra := false, field := none, extent } []

def withKind (kind : String) : Rose ConcreteLabel → Rose ConcreteLabel
  | .node l cs => .node (if l.isExtra then l else { l with kind, isNamed := true }) cs

def withField (field : String) : Rose ConcreteLabel → Rose ConcreteLabel
  | .node l cs =>
    .node (if l.isExtra || l.field.isSome then l else { l with field := some field }) cs

def covering (first : Rose ConcreteLabel) (rest : List (Rose ConcreteLabel)) : Extent :=
  { first.label.extent with stop := (rest.getLastD first).label.extent.stop }

/-- A named node over some nodes; comments in front of them stay outside. -/
def group (kind : String) (nodes : List (Rose ConcreteLabel)) : List (Rose ConcreteLabel) :=
  let front := nodes.takeWhile (fun n => n.label.isExtra)
  match nodes.dropWhile (fun n => n.label.isExtra) with
  | [] => front
  | first :: rest =>
    front ++ [.node { kind, isNamed := true, isExtra := false, field := none
                      extent := covering first rest } (first :: rest)]

end Concrete

end Relocate.Source
