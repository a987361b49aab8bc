import Relocate.Source.Extent
import Relocate.Source.Numeral
import Relocate.Text.Identifier

/-!
# Tokens of source text

The terminals that a grammar may ask for, and how they are spelled. What a text holds at a place
depends on what may stand there: a reader names the terminals that it accepts, and gets the longest
token among them. Inside a string the text is cut into fragments and escapes, anywhere else blanks
and comments may precede a token.
-/

set_option autoImplicit false

namespace Relocate.Source

open Relocate.Text

inductive Terminal where
  /-- A word or an operator with just this text. -/
  | exact (text : String)
  | identifier
  /-- A number or a character, with its kind. -/
  | literal (kind : String)
  /-- Text of a string up to its end or an escape. -/
  | fragment
  /-- Text of a text block; a quote in the block begins a new one. -/
  | blockFragment
  | escape
  /-- A backslash in a text block before a character that needs none. -/
  | bareEscape
  | ending
  deriving DecidableEq, Hashable, Inhabited

namespace Terminal

def isWordText (text : String) : Bool :=
  match text.toList with
  | c :: cs => isIdentifierStart c && cs.all isIdentifierPart
  | [] => false

def isKeyword : Terminal → Bool
  | exact text => isWordText text
  | _ => false

def operatorText? : Terminal → Option String
  | exact text => if isWordText text then none else some text
  | _ => none

end Terminal

structure Token where
  terminal : Terminal
  text : String
  extent : Extent
  /-- The comments between the token before and this one. -/
  comments : List Piece
  deriving Inhabited

/-- What is read at a place: a token or a comment of some length, or one blank. -/
inductive Lexeme where
  | token (terminal : Terminal) (length : Nat)
  | comment (kind : String) (length : Nat)
  | space
  deriving DecidableEq, Inhabited

inductive Mode where
  | code
  | string
  | block
  deriving DecidableEq

namespace Lexeme

def runLength (p : Char → Bool) (cs : List Char) : Nat := (cs.takeWhile p).length

def isSpace (c : Char) : Bool := c == ' ' || (0x9 ≤ c.toNat && c.toNat ≤ 0xD)

def closingLength? : List Char → Option Nat
  | '*' :: '/' :: _ => some 2
  | _ :: cs => (closingLength? cs).map (· + 1)
  | [] => none

def comment? : List Char → Option (String × Nat)
  | '/' :: '/' :: rest => some ("line_comment", 2 + runLength (· != '\n') rest)
  | '/' :: '*' :: rest => (closingLength? rest).map fun n => ("block_comment", n + 2)
  | _ => none

/-! ## Strings -/

def escapeLength? : List Char → Option Nat
  | 'x' :: a :: b :: _ => if Numeral.isHex a && Numeral.isHex b then some 3 else none
  | 'u' :: '{' :: cs =>
    let digits := runLength Numeral.isHex cs
    match cs.drop digits with
    | '}' :: _ => if digits = 0 then none else some (digits + 3)
    | _ => none
  | 'u' :: a :: b :: c :: d :: _ => if [a, b, c, d].all Numeral.isHex then some 5 else none
  | c :: cs =>
    if Numeral.isOctal c then some (1 + min 2 (runLength Numeral.isOctal cs))
    else if c == 'x' || c == 'u' then none
    else some 1
  | [] => none

def isEscaped (c : Char) : Bool := "bfnrts'\"\\".toList.contains c

/-- The longer of two readings of a backslash in a text block, the bare one on a tie. -/
def blockEscape? (cs : List Char) : Option Lexeme :=
  let bare := (cs.head?.map (fun c => !isEscaped c)).getD false
  match escapeLength? cs with
  | some n => some (if bare && n = 1 then .token .bareEscape 2 else .token .escape (n + 1))
  | none => if bare then some (.token .bareEscape 2) else none

def isPlain (c : Char) : Bool := c != '"' && c != '\\'

def inString? : List Char → Option Lexeme
  | '"' :: _ => some (.token (.exact "\"") 1)
  | '\\' :: '{' :: _ => some (.token (.exact "\\\x7b") 2)
  | '\\' :: cs => (escapeLength? cs).map fun n => .token .escape (n + 1)
  | [] => none
  | cs => some (.token .fragment (runLength isPlain cs))

/-- What stands at the front inside a text block. A comment longer than the fragment is none of
the block's text. -/
def inBlock? : List Char → Option Lexeme
  | '"' :: '"' :: '"' :: _ => some (.token (.exact "\"\"\"") 3)
  | '"' :: cs => some (.token .blockFragment (1 + runLength isPlain cs))
  | '\\' :: '{' :: _ => some (.token (.exact "\\\x7b") 2)
  | '\\' :: cs => blockEscape? cs
  | [] => none
  | cs =>
    let n := runLength isPlain cs
    match comment? cs with
    | some (kind, m) => some (if n < m then .comment kind m else .token .blockFragment n)
    | none => some (.token .blockFragment n)

/-! ## Between tokens -/

def characterLength? : List Char → Option Nat
  | '\'' :: _ => some 0
  | '\\' :: _ :: cs => (characterLength? cs).map (· + 2)
  | c :: cs => if c == '\n' || c == '\\' then none else (characterLength? cs).map (· + 1)
  | [] => none

def character? : List Char → Option Nat
  | '\'' :: cs =>
    match characterLength? cs with
    | some 0 => none
    | some n => some (n + 2)
    | none => none
  | _ => none

/-- The terminals that a text can begin with, the longest first: operators are given, the longest
first. A word is a keyword rather than a name. -/
def candidates (operators : List String) (cs : List Char) : List (Terminal × Nat) :=
  let n := if (cs.head?.map isIdentifierStart).getD false then runLength isIdentifierPart cs else 0
  let marks := (operators.filter (fun op => op.toList.isPrefixOf cs)).map
    fun op => (Terminal.exact op, op.length)
  let words := [(.exact (String.ofList (cs.take n)), n), (.identifier, n)]
  let numerals := (Numeral.read? cs).toList.map fun (kind, n) => (Terminal.literal kind, n)
  let characters := (character? cs).toList.map fun n => (Terminal.literal "character_literal", n)
  if n = 0 then numerals ++ characters ++ marks else marks ++ words

/-- The first candidate that is accepted. Where only one is left it is taken unseen. -/
def choose (accepts : Terminal → Bool) : List (Terminal × Nat) → Option (Terminal × Nat)
  | [] => none
  | [c] => some c
  | c :: cs => if accepts c.1 then some c else choose accepts cs

def inCode? (operators : List String) (accepts : Terminal → Bool) : List Char → Option Lexeme
  | [] => some (.token .ending 0)
  | c :: cs =>
    if isSpace c then some .space
    else
      match comment? (c :: cs) with
      | some (kind, n) => some (.comment kind n)
      | none => (choose accepts (candidates operators (c :: cs))).map fun (t, n) => .token t n

end Lexeme

namespace Token

open Lexeme

def lexeme? (mode : Mode) (operators : List String) (accepts : Terminal → Bool)
    (cs : List Char) : Option Lexeme :=
  match mode with
  | .code => inCode? operators accepts cs
  | .string => inString? cs
  | .block => inBlock? cs

/-- The next token from a place on, and the place behind it; `comments` are those passed on the way,
last first. Every lexeme but a token takes a character, so as much fuel as there is text is
enough. -/
def readFrom (mode : Mode) (operators : List String) (accepts : Terminal → Bool) :
    Nat → List Piece → Spot → Option (Token × Spot)
  | 0, _, _ => none
  | fuel + 1, comments, p =>
    match lexeme? mode operators accepts p.rest with
    | none => none
    | some .space => readFrom mode operators accepts fuel comments (p.skip 1)
    | some (.comment kind n) =>
      readFrom mode operators accepts fuel (⟨kind, p.extent n⟩ :: comments) (p.skip n)
    | some (.token terminal n) =>
      some ({ terminal, text := String.ofList (p.rest.take n), extent := p.extent n
              comments := comments.reverse }, p.skip n)

/-- The next token and the place behind it. The mode follows from what is accepted. -/
def read? (operators : List String) (accepts : Terminal → Bool) (fuel : Nat) (p : Spot) :
    Option (Token × Spot) :=
  let mode : Mode :=
    if accepts .fragment then .string else if accepts .blockFragment then .block else .code
  readFrom mode operators accepts fuel [] p

end Token

end Relocate.Source
