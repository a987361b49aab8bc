import Relocate.Source.Grammar
import Relocate.Text.Blank

/-!
# Syntax trees of sources

A source text becomes a concrete tree, and the concrete tree a syntax tree: named nodes only,
comments left out. Operators and modifiers are the value of their node, dotted names fold into one
leaf, and any other node without children has its source text as value.
-/

set_option autoImplicit false

namespace Relocate.Source

def operatorKinds : List String :=
  ["binary_expression", "unary_expression", "update_expression", "assignment_expression",
   "modifiers"]

/-- Kinds that fold into one leaf with their text, blanks left out. -/
def foldedKinds : List String := ["scoped_identifier", "scoped_type_identifier"]

def slice (source : Array Char) (e : Extent) : List Char :=
  (source.extract e.start e.stop).toList

theorem slice_toArray (source : List Char) (e : Extent) :
    slice source.toArray e = (source.drop e.start).take (e.stop - e.start) := by
  simp [slice, List.extract_eq_take_drop]

namespace Concrete

def tokenText? (nodes : List (Rose ConcreteLabel)) : Option String :=
  match nodes.filter (fun n => !n.label.isNamed) with
  | [] => none
  | tokens => some (String.intercalate " " (tokens.map (fun n => n.label.kind)))

/-- The value of a node that does not fold, given whether it has children in the syntax tree. -/
def valueOf (source : Array Char) (l : ConcreteLabel) (nodes : List (Rose ConcreteLabel))
    (isLeaf : Bool) : Option String :=
  if operatorKinds.contains l.kind then tokenText? nodes
  else if isLeaf then some (String.ofList (slice source l.extent))
  else none

mutual
def toAst (source : Array Char) : Rose ConcreteLabel → Ast
  | .node l cs =>
    if foldedKinds.contains l.kind then
      .node { kind := l.kind, field := l.field, line := l.extent.line
              value := some (String.ofList (Text.squeeze (slice source l.extent))) } []
    else
      let below := toAstAll source cs
      .node { kind := l.kind, field := l.field, line := l.extent.line
              value := valueOf source l cs below.isEmpty } below

def toAstAll (source : Array Char) : List (Rose ConcreteLabel) → List Ast
  | [] => []
  | c :: cs =>
    if c.label.isNamed && !c.label.isExtra then toAst source c :: toAstAll source cs
    else toAstAll source cs
end

end Concrete

/-- From the first node to the end of the text; the very end if there is no node. -/
def wholeExtent (source : List Char) (nodes : List Concrete) : Extent :=
  match nodes with
  | first :: _ => { first.label.extent with stop := source.length }
  | [] => ⟨1 + source.count '\n', source.length, source.length⟩

def program (source : List Char) (nodes : List Concrete) : Concrete :=
  .node { kind := "program", isNamed := true, isExtra := false, field := none
          extent := wholeExtent source nodes } nodes

/-- The concrete tree, or the line of a construct that cannot be read. A text with a null character
is no source. -/
def concrete (source : List Char) : Except Nat Concrete :=
  if source.contains '\x00' then .error 0
  else (Grammar.javaAutomaton.get.read source).map (program source)

/-- The syntax tree of a source text, given what makes concrete trees of texts. -/
def readBy (parse : List Char → Except Nat Concrete) (text : String) : Except Nat Ast :=
  let source := text.toList
  (parse source).map (Concrete.toAst source.toArray)

def read (text : String) : Except Nat Ast := readBy concrete text

end Relocate.Source
