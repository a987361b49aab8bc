import Relocate.Ast
import Relocate.Markup.Entity

/-!
# Printing tree documents

One element per line, two blanks of indentation per level, and the declaration in front.
-/

set_option autoImplicit false

namespace Relocate.Interchange

open Relocate.Markup

def declaration : String := "<?xml version=\"1.0\" encoding=\"UTF-8\"?>\n"

def escaped (text : String) : List Char := escape text.toList

def assignment (name : String) (text : List Char) : List Char :=
  ' ' :: name.toList ++ '=' :: '"' :: text ++ ['"']

def optionalAttribute (name : String) : Option String → List Char
  | some text => assignment name (escaped text)
  | none => []

def tagStart (indent : Nat) (tag : Tag) : List Char :=
  List.replicate (2 * indent) ' ' ++ "<tree".toList ++ assignment "kind" (escaped tag.kind) ++
    optionalAttribute "value" tag.value ++ optionalAttribute "field" tag.field ++
    assignment "line" (toString tag.line).toList

mutual
def printNode (indent : Nat) : Rose Tag → List Char
  | .node tag [] => tagStart indent tag ++ " />\n".toList
  | .node tag (c :: cs) =>
    tagStart indent tag ++ ">\n".toList ++ printNode (indent + 1) c ++ printAll (indent + 1) cs ++
      List.replicate (2 * indent) ' ' ++ "</tree>\n".toList

def printAll (indent : Nat) : List (Rose Tag) → List Char
  | [] => []
  | c :: cs => printNode indent c ++ printAll indent cs
end

def print (root : Ast) : String := declaration ++ String.ofList (printNode 0 root)

end Relocate.Interchange
