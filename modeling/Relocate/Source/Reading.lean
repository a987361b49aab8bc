import Relocate.Source.Stacks

/-!
# Reading a text by an automaton

A reader keeps a stack of states for every reading of the text so far. A token is shifted on top of
a stack, or what lies on top of it is a complete item and is reduced to one cell. Which of these can
be done with a token follows from the stack: an item is reduced only if the token can be shifted in
the end. Where several can be done, ranks decide, and where they do not, all are done and the reader
follows each. Readings meet again in the same state; then the heavier is kept, or else the older.
-/

set_option autoImplicit false

namespace Relocate.Source

/-- The top of a stack with states on it that are only supposed. -/
structure Tip where
  supposed : List Nat
  cell : Nat

namespace Tip

def state (s : Stacks) (tip : Tip) : Nat := tip.supposed.headD (s.cell tip.cell).state

def pop (s : Stacks) (n : Nat) (tip : Tip) : List Tip :=
  if n ≤ tip.supposed.length then [⟨tip.supposed.drop n, tip.cell⟩]
  else (s.cellsBelow (n - tip.supposed.length) [tip.cell]).map fun i => ⟨[], i⟩

def push (state : Nat) (tip : Tip) : Tip := ⟨state :: tip.supposed, tip.cell⟩

end Tip

namespace Automaton

def canShift (a : Automaton) (s : Stacks) (terminal : Nat) : Nat → Tip → Bool
  | 0, _ => false
  | fuel + 1, tip =>
    let state := a.state (tip.state s)
    state.moves.contains terminal ||
      state.complete.any fun item =>
        a.canFollow item.construct terminal && (tip.pop s item.read).any fun below =>
          match a.move? (below.state s) item.construct with
          | some state => canShift a s terminal fuel (below.push state)
          | none => false

def canReduce (a : Automaton) (s : Stacks) (terminal fuel : Nat) (tip : Tip) (item : Item) :
    Bool :=
  a.canFollow item.construct terminal && (tip.pop s item.read).any fun below =>
    match a.move? (below.state s) item.construct with
    | some state => canShift a s terminal fuel (below.push state)
    | none => false

end Automaton

structure Action where
  reduced : List Item
  /-- The state behind the token. -/
  shifted : Option Nat

namespace Action

def strongest (items : List Item) : List Item :=
  items.filter fun item => items.all fun other => other.rank.precedence ≤ item.rank.precedence

/-- Settles a conflict between shifting a token in the midst of items of some ranks and reducing
items of one precedence: the higher precedence wins. If none is higher, items that are grouped to
the left are reduced and those grouped to the right wait; in all other cases both are done. -/
def settle (ranks : List Rank) (items : List Item) (target : Nat) : Action :=
  match items with
  | [] => ⟨[], some target⟩
  | item :: _ =>
    let isAbove := ranks.any fun r => item.rank.precedence < r.precedence
    let isBelow := ranks.any fun r => r.precedence < item.rank.precedence
    let areGrouped := fun side => items.all fun item => item.rank.grouping == some side
    let shift : Action := ⟨[], some target⟩
    let reduce : Action := ⟨items, none⟩
    if isAbove && !isBelow then shift
    else if isBelow && !isAbove then reduce
    else if isAbove && isBelow then ⟨items, some target⟩
    else if areGrouped .left then reduce
    else if areGrouped .right then shift
    else ⟨items, some target⟩

/-- A single item is reduced without a look at what follows, unless the token could be shifted as
the `other` terminal: if the token does not fit, the reading ends in one of the next states. -/
def ofCell (a : Automaton) (s : Stacks) (fuel terminal : Nat) (other : Option Nat) (i : Nat) :
    Action :=
  let state := a.state (s.cell i).state
  match state.moves[terminal]?, other.any state.moves.contains, state.complete with
  | none, false, [item] => ⟨[item], none⟩
  | target, _, items =>
    let items := strongest (items.filter (a.canReduce s terminal fuel ⟨[], i⟩))
    match target with
    | none => ⟨items, none⟩
    | some target =>
      let ranks := state.pending.filterMap fun (symbol, rank) =>
        if a.canBegin symbol terminal then some rank else none
      settle ranks items target

end Action

/-- Several readings of one text, the preferred ones first, and those that are complete. -/
structure Reader where
  stack : Stacks
  /-- The top of each reading's stack; none for a reading that has come to an end. -/
  heads : Array (Option Nat)
  /-- The last token of the text and what was read before it, if anything. -/
  finished : Option (Option Derivation × Token)
  /-- The line of the last token that did not fit. -/
  faultLine : Nat

namespace Reader

def head? (r : Reader) (i : Nat) : Option Nat := (r.heads.getD i none)

def maxHeads : Nat := 11

def maxKept : Nat := 6

/-- A further reading, unless it can be merged into another than the `i`th. -/
def addHead (r : Reader) (i cell : Nat) : Reader :=
  let others := (r.heads.setIfInBounds i none).toList.filterMap id
  match others.find? (r.stack.meets · cell) with
  | some other => { r with stack := r.stack.merge other cell }
  | none => { r with heads := r.heads.push (some cell) }

def gatherWays (ways : List (Nat × List Derivation)) : List (Nat × List (List Derivation)) :=
  (ways.map (·.1)).eraseDups.map fun i => (i, (ways.filter (·.1 == i)).map (·.2))

/-- Reduces an item on top of a stack: for every cell below there is one more reading. -/
def reduce (a : Automaton) (r : Reader) (i cell : Nat) (item : Item) : Reader :=
  (gatherWays (r.stack.ways item.read cell)).foldl (fun r (below, ways) =>
    match a.move? (r.stack.cell below).state item.construct,
      ways.map (Derivation.ofItem item) with
    | some state, d :: ds =>
      if maxHeads ≤ r.heads.size then r
      else
        let (stack, top) :=
          r.stack.push below (ds.foldl Derivation.better d) state (r.stack.cell cell).spot
        addHead { r with stack } i top
    | _, _ => r) r

def reduceAll (a : Automaton) (r : Reader) (i cell : Nat) (items : List Item) :
    Reader × Option Nat :=
  items.foldl (fun (r, added) item =>
    let count := r.heads.size
    let r := reduce a r i cell item
    (r, if count < r.heads.size then some count else added)) (r, none)

def drop (r : Reader) (i : Nat) (t : Token) : Reader :=
  { r with heads := r.heads.setIfInBounds i none, faultLine := t.extent.line }

def finish (r : Reader) (i cell : Nat) (t : Token) : Reader :=
  let d := (r.stack.cell cell).links.head?.map Link.derivation
  let finished :=
    match r.finished, d with
    | some (some e, t), some d => some (some (e.better d), t)
    | some other, _ => some other
    | none, d => some (d, t)
  { r with heads := r.heads.setIfInBounds i none, finished }

def shift (r : Reader) (i cell symbol state : Nat) (t : Token) (behind : Spot) : Reader :=
  let (stack, top) := r.stack.push cell (.token symbol t) state behind
  { r with stack, heads := r.heads.setIfInBounds i (some top) }

/-- Reads one token on one reading. The last reading added by reductions takes its place, unless the
token is shifted. A keyword that does not fit is a name. -/
def take (a : Automaton) (bound : Nat) : Nat → Reader → Nat → Token → Spot → Reader
  | 0, r, i, t, _ => r.drop i t
  | fuel + 1, r, i, t, behind =>
    match r.head? i, a.number? t.terminal with
    | some cell, some symbol =>
      let other := if t.terminal.isKeyword then a.number? .identifier else none
      let action := Action.ofCell a r.stack bound symbol other cell
      let (r, added) := reduceAll a r i cell action.reduced
      match action.shifted, added with
      | some state, _ =>
        if t.terminal = .ending then r.finish i cell t
        else r.shift i cell symbol state t behind
      | none, some j =>
        take a bound fuel
          { r with heads := (r.heads.setIfInBounds i (r.head? j)).eraseIdxIfInBounds j } i t behind
      | none, none =>
        if action.reduced.isEmpty && other.any (a.canShift r.stack · bound ⟨[], cell⟩) then
          take a bound fuel r i { t with terminal := .identifier } behind
        else r.drop i t
    | _, _ => r.drop i t

def advance (a : Automaton) (bound : Nat) (r : Reader) (i : Nat) : Reader :=
  match r.head? i with
  | none => r
  | some cell =>
    let spot := (r.stack.cell cell).spot
    let accepts := fun t =>
      match a.number? t with
      | some symbol => a.canShift r.stack symbol bound ⟨[], cell⟩
      | none => false
    match Token.read? a.operators accepts bound spot with
    | some (t, behind) => take a bound bound r i t behind
    | none =>
      { r with heads := r.heads.setIfInBounds i none, faultLine := spot.line }

/-- Reads tokens on one reading until it has come as far as the others, whose last place is
`reached`; gives the place that is reached then. -/
def catchUp (a : Automaton) (bound : Nat) : Nat → Reader → Nat → Nat → Reader × Nat
  | 0, r, _, reached => (r, reached)
  | fuel + 1, r, i, reached =>
    let r := advance a bound r i
    match r.head? i with
    | none => (r, reached)
    | some cell =>
      let offset := (r.stack.cell cell).spot.offset
      if reached < offset || (0 < i && offset = reached) then (r, offset)
      else catchUp a bound fuel r i reached

def catchUpAll (a : Automaton) (bound : Nat) : Nat → Reader → Nat → Nat → Reader × Nat
  | 0, r, _, reached => (r, reached)
  | fuel + 1, r, i, reached =>
    if i < r.heads.size then
      let (r, reached) :=
        match r.head? i with
        | some _ => catchUp a bound bound r i reached
        | none => (r, reached)
      catchUpAll a bound fuel r (i + 1) reached
    else (r, reached)

/-! ## Order of readings -/

/-- Puts a cell behind others: it is merged into the first that it meets, and changes places with
lighter ones. -/
def insert (s : Stacks) (weight : Nat) : List Nat → Nat → Stacks × List Nat
  | [], cell => (s, [cell])
  | c :: cs, cell =>
    if s.meets c cell then (s.merge c cell, c :: cs)
    else
      let isLighter := decide ((s.cell c).weight < weight)
      let (s, rest) := insert s weight cs (if isLighter then c else cell)
      (s, (if isLighter then cell else c) :: rest)

def condense (r : Reader) : Reader :=
  let (stack, kept) := (r.heads.toList.filterMap id).foldl
    (fun (s, kept) cell => insert s (s.cell cell).weight kept cell) (r.stack, [])
  { r with stack, heads := ((kept.take maxKept).map some).toArray }

def run (a : Automaton) (bound : Nat) : Nat → Reader → Nat → Reader
  | 0, r, _ => r
  | fuel + 1, r, reached =>
    if r.heads.isEmpty then r
    else
      let (r, reached) := catchUpAll a bound bound r 0 reached
      run a bound fuel r.condense reached

end Reader

namespace Automaton

/-- The nodes of a text and the comments behind them, or the line of a token that does not fit. No
token is read more often than a multiple of the characters of the text. -/
def read (a : Automaton) (source : List Char) : Except Nat (List Concrete) :=
  let bound := 64 * (source.length + 16)
  let start : Reader :=
    { stack := .base 0 (.ofText source), heads := #[some 0], finished := none, faultLine := 0 }
  let r := Reader.run a bound bound start 0
  match r.finished with
  | some (some d, t) => .ok (d.nodesBefore a (t.comments.map Concrete.comment))
  | some (none, t) => .ok (t.comments.map Concrete.comment)
  | none => .error r.faultLine

end Automaton

end Relocate.Source
