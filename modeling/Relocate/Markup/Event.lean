import Relocate.Text.Encoding

/-!
# Markup as a sequence of events

A document is cut from front to back into tags, text runs, references, sections of character data
and asides (declarations, processing instructions, comments, document types). Names of end tags are
checked against the open elements. The first fault ends the sequence, and the events before it stay.
-/

set_option autoImplicit false

namespace Relocate.Markup

open Relocate.Text

inductive Fault where
  | unknownMarkup
  | unclosedTag
  | unclosedComment
  | unclosedSection
  | unclosedDoctype
  | unclosedInstruction
  | doctypeWithoutName
  | unclosedReference
  | mismatchedEnd (expected found : String)
  | unmatchedEnd (found : String)
  deriving DecidableEq, Inhabited

namespace Fault

def message : Fault → String
  | unknownMarkup => "syntax error: unknown or missed symbol in markup"
  | unclosedTag => "syntax error: tag not closed: `>` not found before end of input"
  | unclosedComment => "syntax error: comment not closed: `-->` not found before end of input"
  | unclosedSection => "syntax error: CDATA not closed: `]]>` not found before end of input"
  | unclosedDoctype => "syntax error: DOCTYPE not closed: `>` not found before end of input"
  | unclosedInstruction =>
    "syntax error: processing instruction or xml declaration not closed: " ++
      "`?>` not found before end of input"
  | doctypeWithoutName =>
    "ill-formed document: `<!DOCTYPE>` declaration does not contain a name of a document type"
  | unclosedReference =>
    "ill-formed document: entity or character reference not closed: " ++
      "`;` not found before end of input"
  | mismatchedEnd expected found =>
    s!"ill-formed document: expected `</{expected}>`, but `</{found}>` was found"
  | unmatchedEnd found =>
    s!"ill-formed document: close tag `</{found}>` does not match any open tag"

end Fault

structure StartTag where
  content : List Symbol
  deriving DecidableEq, Inhabited

def isSpaceChar (c : Char) : Bool := c = ' ' || c = '\t' || c = '\r' || c = '\n'

def isSpace : Symbol → Bool
  | .char c => isSpaceChar c
  | .stray _ => false

namespace StartTag

def name (t : StartTag) : List Symbol := t.content.takeWhile (fun s => !isSpace s)

def hasName (t : StartTag) (name : String) : Bool := t.name == Symbols.ofString name

end StartTag

inductive Event where
  | start (tag : StartTag)
  | empty (tag : StartTag)
  | finish (name : List Symbol)
  | text (run : List Symbol)
  | data (run : List Symbol)
  | reference (name : List Symbol)
  | aside
  deriving DecidableEq, Inhabited

def splitAt? (pattern : List Char) : List Symbol → Option (List Symbol × List Symbol)
  | [] => none
  | s :: rest =>
    if Symbols.ofChars pattern <+: s :: rest then some ([], (s :: rest).drop pattern.length)
    else (splitAt? pattern rest).map fun (before, behind) => (s :: before, behind)

/-- The content of a tag up to the first `>` outside quotes, and what follows it. -/
def tagContent? (quote : Option Symbol) : List Symbol → Option (List Symbol × List Symbol)
  | [] => none
  | s :: rest =>
    let next := match quote with
      | some q => if s = q then none else some q
      | none => if s = .char '"' ∨ s = .char '\'' then some s else none
    if quote = none ∧ s = .char '>' then some ([], rest)
    else (tagContent? next rest).map fun (before, behind) => (s :: before, behind)

/-- The content of a document type up to the `>` that no `<` inside it claims. -/
def doctypeContent? (depth : Nat) : List Symbol → Option (List Symbol × List Symbol)
  | [] => none
  | s :: rest =>
    if s = .char '>' then
      match depth with
      | 0 => some ([], rest)
      | depth + 1 => (doctypeContent? depth rest).map fun (before, behind) => (s :: before, behind)
    else
      let depth := if s = .char '<' then depth + 1 else depth
      (doctypeContent? depth rest).map fun (before, behind) => (s :: before, behind)

theorem splitAt?_length {pattern : List Char} {ss before behind : List Symbol}
    (h : splitAt? pattern ss = some (before, behind)) : behind.length ≤ ss.length := by
  induction ss generalizing before behind with
  | nil => cases h
  | cons s ss ih =>
    simp only [splitAt?] at h
    split at h
    · cases h
      rw [List.length_drop]
      omega
    · obtain ⟨⟨b, r⟩, hr, heq⟩ := Option.map_eq_some_iff.1 h
      cases heq
      have := ih hr
      simp only [List.length_cons]; omega

theorem tagContent?_length {quote : Option Symbol} {ss before behind : List Symbol}
    (h : tagContent? quote ss = some (before, behind)) : behind.length ≤ ss.length := by
  induction ss generalizing quote before behind with
  | nil => cases h
  | cons s ss ih =>
    simp only [tagContent?] at h
    split at h
    · cases h; simp
    · obtain ⟨⟨b, r⟩, hr, heq⟩ := Option.map_eq_some_iff.1 h
      cases heq
      have := ih hr
      simp only [List.length_cons]; omega

theorem doctypeContent?_length {depth : Nat} {ss before behind : List Symbol}
    (h : doctypeContent? depth ss = some (before, behind)) : behind.length ≤ ss.length := by
  induction ss generalizing depth before behind with
  | nil => cases h
  | cons s ss ih =>
    simp only [doctypeContent?] at h
    split at h
    · cases depth with
      | zero => cases h; simp
      | succ depth =>
        obtain ⟨⟨b, r⟩, hr, heq⟩ := Option.map_eq_some_iff.1 h
        cases heq
        have := ih hr
        simp only [List.length_cons]; omega
    · obtain ⟨⟨b, r⟩, hr, heq⟩ := Option.map_eq_some_iff.1 h
      cases heq
      have := ih hr
      simp only [List.length_cons]; omega

/-- Without white space at the end; a run of white space alone stays as it is. -/
def trimName (name : List Symbol) : List Symbol :=
  if name.all isSpace then name else (name.reverse.dropWhile isSpace).reverse

def tagEvent (content : List Symbol) : Event :=
  match content with
  | .char '/' :: name => .finish (trimName name)
  | _ =>
    match content.getLast? with
    | some (.char '/') => .empty ⟨content.dropLast⟩
    | _ => .start ⟨content⟩

def doctypeEvent (content : List Symbol) : Except Fault Event :=
  let word := (Symbols.lossy (content.take 7)).map Char.toUpper
  if word = "DOCTYPE".toList then
    if (content.drop 7).all isSpace then .error .doctypeWithoutName else .ok .aside
  else .error .unclosedDoctype

abbrev Cut := Except Fault (Event × List Symbol)

def cutAt (found : Option (List Symbol × List Symbol)) (missing : Fault)
    (event : List Symbol → Except Fault Event) : Cut :=
  match found with
  | some (content, rest) => (event content).map (·, rest)
  | none => .error missing

def cutBang : List Symbol → Cut
  | .char '-' :: .char '-' :: rest =>
    cutAt (splitAt? ['-', '-', '>'] rest) .unclosedComment (fun _ => .ok .aside)
  | .char '-' :: _ => .error .unclosedComment
  | .char '[' :: rest =>
    if Symbols.ofString "CDATA[" <+: rest then
      cutAt (splitAt? [']', ']', '>'] (rest.drop 6)) .unclosedSection (fun d => .ok (.data d))
    else .error .unclosedSection
  | .char 'D' :: rest => cutAt (doctypeContent? 0 (.char 'D' :: rest)) .unclosedDoctype doctypeEvent
  | .char 'd' :: rest => cutAt (doctypeContent? 0 (.char 'd' :: rest)) .unclosedDoctype doctypeEvent
  | _ => .error .unknownMarkup

def cutMarkup : List Symbol → Cut
  | .char '!' :: rest => cutBang rest
  | .char '?' :: rest =>
    match rest with
    | .char '>' :: _ => .error .unclosedInstruction
    | _ => cutAt (splitAt? ['?', '>'] rest) .unclosedInstruction (fun _ => .ok .aside)
  | rest => cutAt (tagContent? none rest) .unclosedTag (fun c => .ok (tagEvent c))

def isMark (s : Symbol) : Bool := s == .char '<' || s == .char '&'

def cutReference (rest : List Symbol) : Cut :=
  let name := rest.takeWhile (fun s => !isMark s && s != .char ';')
  match rest.dropWhile (fun s => !isMark s && s != .char ';') with
  | .char ';' :: rest => .ok (.reference name, rest)
  | _ => .error .unclosedReference

def cut (s : Symbol) (rest : List Symbol) : Cut :=
  if s = .char '<' then cutMarkup rest
  else if s = .char '&' then cutReference rest
  else .ok (.text (s :: rest.takeWhile (fun s => !isMark s)), rest.dropWhile (fun s => !isMark s))

theorem cutAt_length {found : Option (List Symbol × List Symbol)} {missing : Fault}
    {event : List Symbol → Except Fault Event} {e : Event} {rest ss : List Symbol}
    (hf : ∀ before behind, found = some (before, behind) → behind.length ≤ ss.length)
    (h : cutAt found missing event = .ok (e, rest)) : rest.length ≤ ss.length := by
  cases found with
  | none => cases h
  | some p =>
    obtain ⟨before, behind⟩ := p
    simp only [cutAt] at h
    cases he : event before with
    | error x => rw [he] at h; cases h
    | ok ev =>
      rw [he] at h
      cases h
      exact hf _ _ rfl

theorem cutBang_length {ss rest : List Symbol} {e : Event} (h : cutBang ss = .ok (e, rest)) :
    rest.length ≤ ss.length := by
  unfold cutBang at h
  split at h
  · refine Nat.le_trans (cutAt_length (fun _ _ hf => splitAt?_length hf) h) ?_
    simp only [List.length_cons]; omega
  · cases h
  · split at h
    · refine Nat.le_trans (cutAt_length (fun _ _ hf => splitAt?_length hf) h) ?_
      simp only [List.length_drop, List.length_cons]; omega
    · cases h
  · exact cutAt_length (fun _ _ hf => doctypeContent?_length hf) h
  · exact cutAt_length (fun _ _ hf => doctypeContent?_length hf) h
  · cases h

theorem cutMarkup_length {ss rest : List Symbol} {e : Event} (h : cutMarkup ss = .ok (e, rest)) :
    rest.length ≤ ss.length := by
  unfold cutMarkup at h
  split at h
  · have := cutBang_length h
    simp only [List.length_cons]; omega
  · split at h
    · cases h
    · refine Nat.le_trans (cutAt_length (fun _ _ hf => splitAt?_length hf) h) ?_
      simp only [List.length_cons]; omega
  · exact cutAt_length (fun _ _ hf => tagContent?_length hf) h

theorem cut_length {s : Symbol} {ss rest : List Symbol} {e : Event}
    (h : cut s ss = .ok (e, rest)) : rest.length ≤ ss.length := by
  unfold cut at h
  split at h
  · exact cutMarkup_length h
  · split at h
    · simp only [cutReference] at h
      have := (List.dropWhile_sublist (fun s => !isMark s && s != Symbol.char ';')
        : List.Sublist _ ss).length_le
      split at h
      · rename_i heq
        cases h
        rw [heq] at this
        simp only [List.length_cons] at this; omega
      · cases h
    · cases h
      exact (List.dropWhile_sublist _).length_le

structure Stream where
  events : List Event := []
  fault : Option Fault := none
  deriving DecidableEq, Inhabited

namespace Stream

def failed (f : Fault) : Stream := { fault := some f }

def before (e : Event) (s : Stream) : Stream := { s with events := e :: s.events }

def parts : List Symbol → Stream
  | [] => {}
  | s :: rest =>
    match _h : cut s rest with
    | .ok (e, rest) => (parts rest).before e
    | .error f => failed f
termination_by ss => ss.length
decreasing_by
  have := cut_length _h
  simp only [List.length_cons]; omega

def nameText (name : List Symbol) : String :=
  match Symbols.chars? name with
  | some cs => String.ofList cs
  | none => ""

/-- Checks every end tag against the innermost open element; a wrong one is the fault that ends the
stream, with `last` as the fault at its end. -/
def balanced (last : Option Fault) (opened : List (List Symbol)) : List Event → Stream
  | [] => { fault := last }
  | .start tag :: es => (balanced last (tag.name :: opened) es).before (.start tag)
  | .finish name :: es =>
    match opened with
    | [] => failed (.unmatchedEnd (nameText name))
    | expected :: opened =>
      if name = expected then (balanced last opened es).before (.finish name)
      else failed (.mismatchedEnd (nameText expected) (nameText name))
  | e :: es => (balanced last opened es).before e

/-- A byte order mark at the very start is no part of the document. -/
def withoutMark : List Symbol → List Symbol
  | .char '\uFEFF' :: rest => rest
  | ss => ss

def ofSymbols (ss : List Symbol) : Stream :=
  let s := parts (withoutMark ss)
  balanced s.fault [] s.events

def trimSpace (ss : List Symbol) : List Symbol :=
  ((ss.dropWhile isSpace).reverse.dropWhile isSpace).reverse

/-- The event without white space around text; text of white space alone is left out. -/
def trimmed? : Event → Option Event
  | .text run => if run.all isSpace then none else some (.text (trimSpace run))
  | e => some e

def trimmed (s : Stream) : Stream := { s with events := s.events.filterMap trimmed? }

end Stream

end Relocate.Markup
