import Relocate.Command.Word
import Relocate.Matching.Config

/-!
# Requests

A command line asks for a task under some settings, for the version or for help. Settings stand
before or behind the name of the command, at most once on either side; one behind it wins. The
leftmost word decides: behind a fault nothing is looked at.
-/

set_option autoImplicit false

namespace Relocate.Command

open Relocate.Matching Relocate.Number

inductive Task where
  /-- Relocate the findings of a report; without an output file onto standard output. -/
  | mutations (old new report : String) (output : Option String)
  | diff (old new : String)
  | tree (file : String)
  deriving DecidableEq, Inhabited

inductive Request where
  | version
  | help
  | perform (task : Task) (config : Config)
  deriving DecidableEq, Inhabited

inductive UsageFault where
  | noCommand
  | unknownCommand (text : String)
  | unknownOption (text : String)
  | noValue (setting : Setting)
  | badValue (setting : Setting) (text : String)
  | repeated (setting : Setting)
  | tooManyOperands (text : String)
  | tooFewOperands
  deriving DecidableEq, Inhabited

namespace UsageFault

def message : UsageFault → String
  | noCommand => "a command is required"
  | unknownCommand text => s!"unknown command '{text}'"
  | unknownOption text => s!"unknown option '{text}'"
  | noValue s => s!"a value is required for {s.name}"
  | badValue s text => s!"invalid value '{text}' for {s.name}"
  | repeated s => s!"{s.name} cannot be used more than once"
  | tooManyOperands text => s!"unexpected argument '{text}'"
  | tooFewOperands => "a required argument is missing"

end UsageFault

structure Settings where
  minHeight : Option Nat := none
  minDice : Option Threshold := none
  maxSize : Option Nat := none
  deriving DecidableEq, Inhabited

namespace Settings

def once {α : Type} (setting : Setting) (text : String) (before after : Option α) :
    Except UsageFault α :=
  match before, after with
  | some _, _ => .error (.repeated setting)
  | none, some a => .ok a
  | none, none => .error (.badValue setting text)

def set (s : Settings) (setting : Setting) (text : String) : Except UsageFault Settings :=
  match setting with
  | .minHeight =>
    (once setting text s.minHeight (readUnsigned? text.toList)).map fun n =>
      { s with minHeight := some n }
  | .minDice =>
    (once setting text s.minDice ((Binary64.read? text.toList).map Threshold.above)).map fun t =>
      { s with minDice := some t }
  | .maxSize =>
    (once setting text s.maxSize (readUnsigned? text.toList)).map fun n =>
      { s with maxSize := some n }

/-- The settings of `s`, completed by those of `base`. -/
def completedBy (s base : Settings) : Settings :=
  { minHeight := s.minHeight <|> base.minHeight
    minDice := s.minDice <|> base.minDice
    maxSize := s.maxSize <|> base.maxSize }

def config (s : Settings) : Config :=
  let standard : Config := {}
  { minHeight := s.minHeight.getD standard.minHeight
    minDice := s.minDice.getD standard.minDice
    maxSize := s.maxSize.getD standard.maxSize }

end Settings

inductive Verb where
  | mutations
  | diff
  | tree
  deriving DecidableEq, Inhabited

namespace Verb

def ofName? : String → Option Verb
  | "mutations" | "m" => some mutations
  | "diff" | "d" => some diff
  | "tree" | "t" => some tree
  | _ => none

def limit : Verb → Nat
  | mutations => 4
  | diff => 2
  | tree => 1

def task? : Verb → List String → Option Task
  | mutations, [old, new, report] => some (.mutations old new report none)
  | mutations, [old, new, report, output] => some (.mutations old new report (some output))
  | diff, [old, new] => some (.diff old new)
  | tree, [file] => some (.tree file)
  | _, _ => none

end Verb

def asksHelp (flag : String) : Bool := flag == "--help" || flag.startsWith "-h"

def asksVersion (flag : String) : Bool := flag == "--version" || flag.startsWith "-V"

namespace Request

def ofOperands (verb : Verb) (base own : Settings) (operands : List String) :
    List Word → Except UsageFault Request
  | [] =>
    match verb.task? operands with
    | some task => .ok (.perform task (own.completedBy base).config)
    | none => .error .tooFewOperands
  | .operand text :: rest =>
    if operands.length < verb.limit then ofOperands verb base own (operands ++ [text]) rest
    else .error (.tooManyOperands text)
  | .setting s (some value) :: rest =>
    (own.set s value).bind fun own => ofOperands verb base own operands rest
  | .setting s none :: _ => .error (.noValue s)
  | .flag text :: _ => if asksHelp text then .ok .help else .error (.unknownOption text)
  | .mark :: rest => ofOperands verb base own operands rest

def ofHelp : List Word → Except UsageFault Request
  | [] => .ok .help
  | [.operand text] =>
    if text == "help" || (Verb.ofName? text).isSome then .ok .help
    else .error (.unknownCommand text)
  | .operand text :: _ => .error (.unknownCommand text)
  | .flag text :: _ => .error (.unknownCommand text)
  | .setting s _ :: _ => .error (.unknownCommand s.name)
  | .mark :: _ => .error (.unknownCommand "--")

def ofWords (base : Settings) : List Word → Except UsageFault Request
  | [] => .error .noCommand
  | .operand text :: rest =>
    match Verb.ofName? text with
    | some verb => ofOperands verb base {} [] rest
    | none => if text == "help" then ofHelp rest else .error (.unknownCommand text)
  | .setting s (some value) :: rest => (base.set s value).bind fun base => ofWords base rest
  | .setting s none :: _ => .error (.noValue s)
  | .flag text :: _ =>
    if asksVersion text then .ok .version
    else if asksHelp text then .ok .help
    else .error (.unknownOption text)
  | .mark :: _ => .error .noCommand

def ofArguments (arguments : List String) : Except UsageFault Request :=
  ofWords {} (Word.ofArguments arguments)

end Request

end Relocate.Command
