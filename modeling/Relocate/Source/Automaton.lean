import Relocate.Source.Production
import Std.Data.HashMap

/-!
# The automaton of a grammar

A state holds everything that a reader can be in the middle of after some symbols: items, which are
productions read up to some point. All items that continue with the same symbol go on to one state.
An item forgets which symbols it has read and keeps only what its node needs, so that states meet
again as soon as what may follow is the same.

Symbols are numbered, the terminals first, and sets of symbols are the binary digits of a number.
-/

set_option autoImplicit false

namespace Relocate.Source

/-- A set of numbers: a number is in it if the binary digit of that place is one. -/
abbrev NumberSet := Nat

namespace NumberSet

def single (i : Nat) : NumberSet := 1 <<< i

def union (s t : NumberSet) : NumberSet := s ||| t

def has (s : NumberSet) (i : Nat) : Bool := Nat.testBit s i

end NumberSet

structure Item where
  construct : Nat
  weight : Nat
  length : Nat
  read : Nat
  /-- The rank of the last symbol read. -/
  rank : Rank
  labels : List Label
  rest : List (Step Nat)
  deriving DecidableEq, Hashable, Inhabited

namespace Item

def ofProduction (construct : Nat) (p : Production Nat) : Item :=
  { construct, weight := p.weight, length := p.steps.length, read := 0, rank := .neutral
    labels := [], rest := p.steps }

def next? (item : Item) : Option (Nat × Item) :=
  match item.rest with
  | [] => none
  | s :: rest =>
    some (s.symbol, { item with
      read := item.read + 1, rank := s.rank, labels := item.labels ++ [s.label], rest })

/-- The order in which complete items are tried: shorter ones first, and then those of constructs
that are defined first. -/
def precedes (a b : Item) : Bool :=
  a.read < b.read || (a.read == b.read && a.construct ≤ b.construct)

end Item

structure State where
  complete : List Item
  /-- The next symbol of items that are begun but not complete, and their ranks. -/
  pending : List (Nat × Rank)
  /-- Where each symbol leads. -/
  moves : Std.HashMap Nat Nat
  deriving Inhabited

structure Automaton where
  /-- The numbers of all symbols; those of terminals are less than `terminals`. -/
  numbers : Std.HashMap Symbol Nat
  terminals : Nat
  /-- The definitions of all other symbols. -/
  constructs : Array Definition
  first : Array NumberSet
  follow : Array NumberSet
  states : Array State
  /-- Spellings of terminals that are no words, the longest first. -/
  operators : List String

/-! ## Symbols in numbers -/

namespace Grammar

def document : Symbol := .phrase ""

/-- All constructs with their productions. A document is what the grammar starts with, or nothing,
and then the end. -/
def productionTable (g : Grammar) : List (Symbol × Definition × List (Production Symbol)) :=
  let whole : Definition :=
    { name := "", isNamed := false, rule := .both (.opt g.start) (.terminal .ending) }
  (document, whole, whole.rule.productions) ::
  g.constructs.map fun (symbol, d) => (symbol, d, d.rule.productions)

def number (numbers : Std.HashMap Symbol Nat) (s : Symbol) : Std.HashMap Symbol Nat :=
  if numbers.contains s then numbers else numbers.insert s numbers.size

def isTerminal : Symbol → Bool
  | .terminal _ => true
  | _ => false

end Grammar

/-! ## What constructs begin with and what follows them -/

namespace Automaton

abbrev Numbered := List (Nat × Production Nat)

def saturate (f : Array NumberSet → Array NumberSet) : Nat → Array NumberSet → Array NumberSet
  | 0, sets => sets
  | fuel + 1, sets =>
    let next := f sets
    if next == sets then sets else saturate f fuel next

def setOf (terminals : Nat) (sets : Array NumberSet) (symbol : Nat) : NumberSet :=
  if symbol < terminals then .single symbol else sets.getD (symbol - terminals) 0

def grow (sets : Array NumberSet) (i : Nat) (more : NumberSet) : Array NumberSet :=
  sets.modify i (NumberSet.union more)

def firstStep (terminals : Nat) (productions : Numbered) (sets : Array NumberSet) :
    Array NumberSet :=
  productions.foldl (fun sets (k, p) =>
    match p.steps with
    | s :: _ => grow sets (k - terminals) (setOf terminals sets s.symbol)
    | [] => sets) sets

def followSteps (terminals : Nat) (first : Array NumberSet) (behind : Nat) :
    List (Step Nat) → Array NumberSet → Array NumberSet
  | [], sets => sets
  | [s], sets =>
    if s.symbol < terminals then sets
    else grow sets (s.symbol - terminals) (sets.getD behind 0)
  | s :: t :: rest, sets =>
    followSteps terminals first behind (t :: rest)
      (if s.symbol < terminals then sets
       else grow sets (s.symbol - terminals) (setOf terminals first t.symbol))

def followStep (terminals : Nat) (first : Array NumberSet) (productions : Numbered)
    (sets : Array NumberSet) : Array NumberSet :=
  productions.foldl (fun sets (k, p) => followSteps terminals first (k - terminals) p.steps sets)
    sets

def cornerStep (terminals : Nat) (productions : Numbered) (sets : Array NumberSet) :
    Array NumberSet :=
  productions.foldl (fun sets (k, p) =>
    match p.steps with
    | s :: _ =>
      if s.symbol < terminals then sets
      else grow sets (k - terminals) (sets.getD (s.symbol - terminals) 0)
    | [] => sets) sets

/-! ## Items in numbers -/

structure Items where
  items : Array (Item × Option (Nat × Nat))
  numbers : Std.HashMap Item Nat

namespace Items

def push (t : Items) (item : Item) (next : Option (Nat × Nat)) : Items × Nat :=
  (⟨t.items.push (item, next), t.numbers.insert item t.items.size⟩, t.items.size)

def number : Nat → Items → Item → Items × Nat
  | 0, t, item => t.push item none
  | fuel + 1, t, item =>
    match t.numbers[item]? with
    | some i => (t, i)
    | none =>
      match item.next? with
      | none => t.push item none
      | some (symbol, behind) =>
        let (t, j) := number fuel t behind
        t.push item (some (symbol, j))

def item (t : Items) (i : Nat) : Item := (t.items.getD i (default, none)).1

def next? (t : Items) (i : Nat) : Option (Nat × Nat) := (t.items.getD i (default, none)).2

end Items

abbrev Openings := Array (List Nat)

def openings (terminals count : Nat) (productions : Numbered) : Items × Openings :=
  productions.foldl
    (fun (t, opens) (k, p) =>
      let (t, i) := t.number (p.steps.length + 1) (Item.ofProduction k p)
      (t, opens.modify (k - terminals) (fun is => is ++ [i])))
    (⟨#[], ∅⟩, Array.replicate count [])

/-! ## States -/

def gather : List (Nat × Nat) → List (Nat × List Nat)
  | [] => []
  | (a, b) :: rest =>
    match gather rest with
    | (c, bs) :: more =>
      if a = c then (if bs.head? = some b then (c, bs) else (c, b :: bs)) :: more
      else (a, [b]) :: (c, bs) :: more
    | [] => [(a, [b])]

def pairPrecedes (a b : Nat × Nat) : Bool := a.1 < b.1 || (a.1 == b.1 && a.2 ≤ b.2)

structure Plan where
  terminals : Nat
  items : Items
  /-- By construct: the steps from items of which nothing is read. -/
  openings : Array (List (Nat × Nat))
  /-- By construct: the constructs that it can begin with. -/
  corners : Array NumberSet

def Plan.moves (plan : Plan) (kernel : List Nat) : List (Nat × List Nat) :=
  let begun := kernel.filterMap plan.items.next?
  let inside := begun.foldl (fun s (symbol, _) =>
    if symbol < plan.terminals then s
    else NumberSet.union s (plan.corners.getD (symbol - plan.terminals) 0)) 0
  let opened := (List.range plan.corners.size).flatMap fun k =>
    if inside.has k then plan.openings.getD k [] else []
  gather ((begun ++ opened).mergeSort pairPrecedes)

/-- States found so far, by their items; those of the first `states.size` are worked out. -/
structure Exploration where
  kernels : Array (List Nat)
  numbers : Std.HashMap (List Nat) Nat
  states : Array State

def Exploration.number (e : Exploration) (kernel : List Nat) : Exploration × Nat :=
  match e.numbers[kernel]? with
  | some i => (e, i)
  | none =>
    ({ e with
        kernels := e.kernels.push kernel
        numbers := e.numbers.insert kernel e.kernels.size }, e.kernels.size)

def Exploration.step (plan : Plan) (kernel : List Nat) (e : Exploration) : Exploration :=
  let (e, moves) := (plan.moves kernel).foldl
    (fun ((e, moves) : Exploration × Std.HashMap Nat Nat) (symbol, items) =>
      let (e, i) := e.number items
      (e, moves.insert symbol i)) (e, ∅)
  let items := kernel.map plan.items.item
  let pending := items.filterMap fun item =>
    if item.read = 0 then none else item.rest.head?.map fun s => (s.symbol, item.rank)
  let state : State :=
    { complete := (items.filter (fun item => item.rest.isEmpty)).mergeSort Item.precedes
      pending, moves }
  { e with states := e.states.push state }

def Exploration.run (plan : Plan) : Nat → Exploration → Exploration
  | 0, e => e
  | fuel + 1, e =>
    match e.kernels[e.states.size]? with
    | none => e
    | some kernel => Exploration.run plan fuel (e.step plan kernel)

def ofGrammar (g : Grammar) : Automaton :=
  let table := g.productionTable
  let symbols := table.flatMap fun (_, _, ps) => ps.flatMap fun p => p.steps.map (·.symbol)
  let numbers := (symbols.filter Grammar.isTerminal).foldl Grammar.number
    (Grammar.number ∅ (.terminal .identifier))
  let terminals := numbers.size
  let numbers := (table.map (·.1)).foldl Grammar.number numbers
  let productions : Numbered := table.flatMap fun (symbol, _, ps) =>
    ps.map fun p => (numbers.getD symbol 0, p.map fun s => numbers.getD s 0)
  let count := table.length
  let nothing := Array.replicate count 0
  let first := saturate (firstStep terminals productions) count nothing
  let follow := saturate (followStep terminals first productions) count nothing
  let corners := saturate (cornerStep terminals productions) count
    (Array.ofFn fun k : Fin count => NumberSet.single k)
  let (items, opens) := openings terminals count productions
  let plan : Plan :=
    { terminals, items, corners
      openings := opens.map fun is => is.filterMap items.next? }
  let start := opens.getD (numbers.getD Grammar.document 0 - terminals) []
  let found := Exploration.run plan (16 * items.items.size) ⟨#[start], {(start, 0)}, #[]⟩
  { numbers, terminals, first, follow
    constructs := (table.map fun (_, d, _) => d).toArray
    states := found.states
    operators := ((symbols.filterMap fun
      | .terminal t => t.operatorText?
      | _ => none).eraseDups).mergeSort fun a b => b.length ≤ a.length }

/-! ## Looking up -/

def number? (a : Automaton) (t : Terminal) : Option Nat := a.numbers[Symbol.terminal t]?

def state (a : Automaton) (i : Nat) : State := a.states.getD i default

def move? (a : Automaton) (i symbol : Nat) : Option Nat := (a.state i).moves[symbol]?

def canBegin (a : Automaton) (symbol terminal : Nat) : Bool :=
  (setOf a.terminals a.first symbol).has terminal

def canFollow (a : Automaton) (construct terminal : Nat) : Bool :=
  (a.follow.getD (construct - a.terminals) 0).has terminal

def definition (a : Automaton) (construct : Nat) : Definition :=
  a.constructs.getD (construct - a.terminals) default

end Automaton

end Relocate.Source
