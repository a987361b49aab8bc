import Relocate.Ast
import Relocate.Error
import Relocate.Text.Blank

/-!
# Reading tree documents

A tree document holds one `tree` element per node, with the attributes `kind`, `value`, `field` and
`line`. Only the kind is required; the line is that of the parent, or 1 at the root, unless it is
given. Text other than white space is refused; references, character data and asides carry nothing.
-/

set_option autoImplicit false

namespace Relocate.Interchange

open Relocate.Text Relocate.Markup

structure Draft where
  kind : Option String := none
  value : Option String := none
  field : Option String := none
  line : Nat
  deriving Inhabited

namespace Draft

def set (d : Draft) (name : List Symbol) (text : String) : Except Error Draft :=
  if name = Symbols.ofString "kind" then .ok { d with kind := some text }
  else if name = Symbols.ofString "value" then .ok { d with value := some text }
  else if name = Symbols.ofString "field" then .ok { d with field := some text }
  else if name = Symbols.ofString "line" then
    match Number.readUnsigned? text.toList with
    | some n => .ok { d with line := n }
    | none => .error (.parse (.invalidLine text))
  else .ok d

def tag (d : Draft) : Except Error Tag :=
  match d.kind with
  | some kind => .ok { kind, value := d.value, field := d.field, line := d.line }
  | none => .error (.parse .withoutKind)

end Draft

def valueText (a : Attribute) : Except Error String :=
  match Symbols.decode a.value with
  | .error f => .error (.parse (.encoding f))
  | .ok cs =>
    match unescape cs with
    | .error f => .error (.parse (.escape f))
    | .ok cs => .ok (String.ofList cs)

def readAttribute (d : Draft) (a : Attribute) : Except Error Draft :=
  (valueText a).bind (d.set a.name)

/-- The node that a tag describes, on the given line unless it has one of its own. -/
def readTag (line : Nat) (t : StartTag) : Except Error Tag :=
  if t.hasName "tree" then
    (t.attributes.attributes.foldlM readAttribute { line }).bind fun d =>
      match t.attributes.fault with
      | some f => .error (.parse (.badAttribute f))
      | none => d.tag
  else .error (.parse (.unexpectedElement (String.ofList (Symbols.lossy t.name))))

structure Open where
  tag : Tag
  children : List Ast
  deriving Inhabited

structure State where
  /-- Open elements, the innermost first. -/
  opened : List Open := []
  root : Option Ast := none
  deriving Inhabited

namespace State

def line (s : State) : Nat :=
  match s.opened with
  | o :: _ => o.tag.line
  | [] => 1

/-- Adds a finished element to the innermost open one, or makes it the root. -/
def attach (s : State) (t : Ast) : Except Error State :=
  match s.opened, s.root with
  | o :: rest, _ => .ok { s with opened := { o with children := t :: o.children } :: rest }
  | [], none => .ok { s with root := some t }
  | [], some _ => .error (.parse .severalRoots)

def readText (run : List Symbol) : Except Error Unit :=
  match Symbols.decode run with
  | .error f => .error (.parse (.textEncoding f))
  | .ok cs =>
    if allBlank cs then .ok () else .error (.parse (.unexpectedText (String.ofList (trim cs))))

def step (s : State) : Event → Except Error State
  | .start t => (readTag s.line t).map fun tag => { s with opened := ⟨tag, []⟩ :: s.opened }
  | .empty t => (readTag s.line t).bind fun tag => s.attach (.node tag [])
  | .finish _ =>
    match s.opened with
    | o :: rest => attach { s with opened := rest } (.node o.tag o.children.reverse)
    | [] => .error (.parse .unbalancedEnd)
  | .text run => (readText run).map fun _ => s
  | .data _ => .ok s
  | .reference _ => .ok s
  | .aside => .ok s

def finish (s : State) : Except Error Ast :=
  if s.opened.isEmpty then
    match s.root with
    | some t => .ok t
    | none => .error (.parse .noElement)
  else .error (.parse .unclosedElement)

end State

def ofStream (stream : Stream) : Except Error Ast :=
  (stream.events.foldlM State.step {}).bind fun s =>
    match stream.fault with
    | some f => .error (.markup f)
    | none => s.finish

def ofSymbols (ss : List Symbol) : Except Error Ast := ofStream (Stream.ofSymbols ss).trimmed

def read (document : String) : Except Error Ast := ofSymbols (Symbols.ofString document)

def readBytes (bytes : List UInt8) : Except Error Ast := ofSymbols (Symbols.ofBytes bytes)

end Relocate.Interchange
