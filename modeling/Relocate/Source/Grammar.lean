import Relocate.Source.Grammar.Expressions
import Relocate.Source.Grammar.Statements
import Relocate.Source.Grammar.Types
import Relocate.Source.Reading

/-!
# The grammar of Java

A source is a row of statements and methods. Most words have a meaning only where a rule asks for
them; elsewhere they are names.
-/

set_option autoImplicit false

namespace Relocate.Source.Grammar

def topLevel : Definition := choice "top_level" [the "statement", the "method_declaration"]

def java : Grammar :=
  { start := .repeated (the "top_level")
    definitions := topLevel :: expressions ++ statements ++ declarations ++ types }

def javaAutomaton : Thunk Automaton := Thunk.mk fun _ => Automaton.ofGrammar java

end Relocate.Source.Grammar
