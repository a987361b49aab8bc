import Relocate.Source.Token

/-!
# Grammar rules

A grammar defines phrases, each by a rule: a regular expression over terminals and phrases. Rules
also say how a choice between two readings is made (ranks and weights) and what the nodes of a tree
are called (roles and kinds).
-/

set_option autoImplicit false

namespace Relocate.Source

inductive Side where
  | left
  | right
  deriving DecidableEq, Hashable, Inhabited

structure Rank where
  precedence : Int
  grouping : Option Side
  deriving DecidableEq, Hashable, Inhabited

def Rank.neutral : Rank := ⟨0, none⟩

inductive Rule where
  | empty
  | terminal (t : Terminal)
  | phrase (name : String)
  | both (first second : Rule)
  | either (first second : Rule)
  | repeated (rule : Rule)
  | role (name : String) (rule : Rule)
  | called (kind : String) (rule : Rule)
  /-- A conflict with other rules is settled by rank where that is possible. -/
  | ranked (precedence : Int) (grouping : Option Side) (rule : Rule)
  /-- Of two readings of a whole text the one with the greater weight is taken. -/
  | weighed (weight : Nat) (rule : Rule)
  deriving DecidableEq, Hashable, Inhabited

/-- A phrase with its rule. It makes a node of its own if it is named; otherwise its parts belong to
the node around it. -/
structure Definition where
  name : String
  isNamed : Bool
  rule : Rule
  deriving Inhabited

/-- Phrases, and what a whole text is. Where two readings of a text are equal in rank and weight,
phrases that are defined first are preferred. -/
structure Grammar where
  start : Rule
  definitions : List Definition

namespace Rule

instance : Coe String Rule := ⟨fun text => .terminal (.exact text)⟩

def all : List Rule → Rule
  | [] => .empty
  | [r] => r
  | r :: rs => .both r (all rs)

def any : List Rule → Rule
  | [] => .empty
  | [r] => r
  | r :: rs => .either r (any rs)

def opt (r : Rule) : Rule := .either r .empty

def many (r : Rule) : Rule := opt (.repeated r)

def separated (separator : Rule) (r : Rule) : Rule := .both r (many (.both separator r))

def list (r : Rule) : Rule := separated "," r

def oneOf (texts : List String) : Rule := any (texts.map fun text => .terminal (.exact text))

def repetitions : Rule → List Rule
  | .empty | .terminal _ | .phrase _ => []
  | .both a b | .either a b => repetitions a ++ repetitions b
  | .repeated r => repetitions r ++ [r]
  | .role _ r | .called _ r | .ranked _ _ r | .weighed _ r => repetitions r

end Rule

end Relocate.Source
