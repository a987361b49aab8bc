import Relocate.Source.Rule

/-!
# Productions

A rule as a list of productions without choices: sequences of symbols, each with what the rule says
of it. A repetition is a symbol, too, with productions of its own: it is what is repeated, or itself
followed by that.
-/

set_option autoImplicit false

namespace Relocate.Source

inductive Symbol where
  | terminal (t : Terminal)
  | phrase (name : String)
  | repetition (rule : Rule)
  deriving DecidableEq, Hashable, Inhabited

structure Label where
  kind : Option String
  role : Option String
  deriving DecidableEq, Hashable, Inhabited

structure Step (σ : Type) where
  symbol : σ
  rank : Rank
  label : Label
  deriving DecidableEq, Hashable, Inhabited

structure Production (σ : Type) where
  steps : List (Step σ)
  weight : Nat
  deriving DecidableEq, Inhabited

namespace Production

variable {σ τ : Type}

def map (f : σ → τ) (p : Production σ) : Production τ :=
  { p with steps := p.steps.map fun s => ⟨f s.symbol, s.rank, s.label⟩ }

def append (p q : Production σ) : Production σ := ⟨p.steps ++ q.steps, max p.weight q.weight⟩

def rerank (rank : Rank) (p : Production σ) : Production σ :=
  { p with
    steps := p.steps.dropLast ++ p.steps.getLast?.toList.map fun s => { s with rank } }

end Production

namespace Rule

/-- The productions of a rule inside a construct of some rank and label. A rank holds between the
parts of its rule: behind the last of them the rank of the construct around is back, unless that
ends there as well. -/
def productionsWithin (rank : Rank) (label : Label) (isLast : Bool) :
    Rule → List (Production Symbol)
  | .empty => [⟨[], 0⟩]
  | .terminal t => [⟨[⟨.terminal t, rank, label⟩], 0⟩]
  | .phrase name => [⟨[⟨.phrase name, rank, label⟩], 0⟩]
  | .repeated r => [⟨[⟨.repetition r, rank, label⟩], 0⟩]
  | .both a b =>
    (productionsWithin rank label false a).flatMap fun p =>
      (productionsWithin rank label isLast b).map fun q => p.append q
  | .either a b => productionsWithin rank label isLast a ++ productionsWithin rank label isLast b
  | .role name r => productionsWithin rank { label with role := some name } isLast r
  | .called kind r => productionsWithin rank { label with kind := some kind } isLast r
  | .ranked precedence grouping r =>
    let inner := productionsWithin ⟨precedence, grouping <|> rank.grouping⟩ label isLast r
    if isLast then inner else inner.map (Production.rerank rank)
  | .weighed weight r =>
    (productionsWithin rank label isLast r).map fun p => { p with weight := max p.weight weight }

def productions (r : Rule) : List (Production Symbol) :=
  (productionsWithin .neutral ⟨none, none⟩ true r).eraseDups

end Rule

namespace Grammar

/-- Symbols with productions: those of the grammar, then its repetitions. -/
def constructs (g : Grammar) : List (Symbol × Definition) :=
  let bodies := (g.start.repetitions ++ g.definitions.flatMap (·.rule.repetitions)).eraseDups
  g.definitions.map (fun d => (.phrase d.name, d)) ++
  bodies.map fun body =>
    (.repetition body,
      { name := "repetition", isNamed := false
        rule := .either (.both (.repeated body) body) body })

end Grammar

end Relocate.Source
