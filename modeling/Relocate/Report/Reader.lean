import Relocate.Interchange.Reader
import Relocate.Mutation.Finding

/-!
# Reading reports

A report is a `mutations` element with one `mutation` element per finding. The texts of its elements
are trimmed; a mutation without one of the required elements, or with a line that is no number, is
left out. Character data and references count as text, and elements of other names as nothing.
-/

set_option autoImplicit false

namespace Relocate.Report

open Relocate.Text Relocate.Markup

structure Draft where
  sourceFile : Option String := none
  mutatedClass : Option String := none
  mutatedMethod : Option String := none
  descriptor : Option String := none
  line : Option String := none
  operator : Option String := none
  indices : List Nat := []
  order : List Nat := []
  description : Option String := none
  status : Option String := none
  detected : Option Bool := none
  deriving Inhabited

namespace Draft

def setAttribute (d : Draft) (a : Attribute) : Except Error Draft :=
  (Interchange.valueText a).map fun text =>
    if a.name = Symbols.ofString "status" then { d with status := some text }
    else if a.name = Symbols.ofString "detected" then { d with detected := some (text == "true") }
    else d

def ofTag (t : StartTag) : Except Error Draft :=
  (t.attributes.attributes.foldlM setAttribute {}).bind fun d =>
    match t.attributes.fault with
    | some f => .error (.parse (.badAttribute f))
    | none => .ok d

def readNumber (element text : String) : Except Error Nat :=
  match Number.readUnsigned? text.toList with
  | some n => .ok n
  | none => .error (.report (.invalidNumber element text))

def set (d : Draft) (element : List Symbol) (raw : List Char) : Except Error Draft :=
  let text := String.ofList (trim raw)
  let named (name : String) : Prop := element = Symbols.ofString name
  if named "sourceFile" then .ok { d with sourceFile := some text }
  else if named "mutatedClass" then .ok { d with mutatedClass := some text }
  else if named "mutatedMethod" then .ok { d with mutatedMethod := some text }
  else if named "methodDescription" then .ok { d with descriptor := some text }
  else if named "lineNumber" then .ok { d with line := some text }
  else if named "mutator" then .ok { d with operator := some text }
  else if named "description" then .ok { d with description := some text }
  else if named "index" then
    (readNumber "index" text).map fun n => { d with indices := d.indices ++ [n] }
  else if named "block" then
    (readNumber "block" text).map fun n => { d with order := d.order ++ [n] }
  else .ok d

def finding? (d : Draft) : Option Finding := do
  let line ← d.line.bind (fun l => Number.readUnsigned? l.toList)
  return { sourceFile := ← d.sourceFile, mutatedClass := ← d.mutatedClass
           mutatedMethod := ← d.mutatedMethod, descriptor := ← d.descriptor, line
           operator := ← d.operator, indices := d.indices, order := d.order
           status := d.status, detected := d.detected, description := d.description }

end Draft

structure State where
  /-- Findings so far, last first. -/
  found : List Finding := []
  seenRoot : Bool := false
  current : Option Draft := none
  /-- Text since the last tag. -/
  text : List Char := []
  deriving Inhabited

namespace State

def referenceText (name : List Symbol) : Except Error Char :=
  match name, Symbols.decode name with
  | _, .error f => .error (.parse (.encoding f))
  | _, .ok ('#' :: number) =>
    (readReference number).mapError (fun f => .parse (.escape (.reference f)))
  | _, .ok cs =>
    match predefined? cs with
    | some c => .ok c
    | none => .error (.parse (.unknownEntity (String.ofList cs)))

def addText (s : State) (cs : List Char) : State := { s with text := s.text ++ cs }

def onStart (s : State) (t : StartTag) : Except Error State :=
  if s.seenRoot then
    if t.hasName "mutation" then
      (Draft.ofTag t).map fun d => { s with current := some d, text := [] }
    else .ok { s with text := [] }
  else if t.hasName "mutations" then .ok { s with seenRoot := true, text := [] }
  else .error (.report (.wrongRoot (String.ofList (Symbols.lossy t.name))))

def onFinish (s : State) (name : List Symbol) : Except Error State :=
  if name = Symbols.ofString "mutation" then
    let found := match s.current.bind Draft.finding? with
      | some f => f :: s.found
      | none => s.found
    .ok { s with found, current := none, text := [] }
  else
    match s.current with
    | some d => (d.set name s.text).map fun d => { s with current := some d, text := [] }
    | none => .ok { s with text := [] }

def step (s : State) : Event → Except Error State
  | .start t => s.onStart t
  | .empty t => .ok (if t.hasName "mutations" then { s with seenRoot := true } else s)
  | .finish name => s.onFinish name
  | .text run =>
    match Symbols.decode run with
    | .ok cs => .ok (s.addText cs)
    | .error f => .error (.parse (.textEncoding f))
  | .data run => .ok (s.addText (Symbols.lossy run))
  | .reference name => (referenceText name).map fun c => s.addText [c]
  | .aside => .ok s

def finish (s : State) : Except Error (List Finding) :=
  if s.seenRoot then .ok s.found.reverse else .error (.report .noRoot)

end State

def ofStream (stream : Stream) : Except Error (List Finding) :=
  (stream.events.foldlM State.step {}).bind fun s =>
    match stream.fault with
    | some f => .error (.markup f)
    | none => s.finish

def ofSymbols (ss : List Symbol) : Except Error (List Finding) := ofStream (Stream.ofSymbols ss)

def read (document : String) : Except Error (List Finding) := ofSymbols (Symbols.ofString document)

def readBytes (bytes : List UInt8) : Except Error (List Finding) :=
  ofSymbols (Symbols.ofBytes bytes)

end Relocate.Report
