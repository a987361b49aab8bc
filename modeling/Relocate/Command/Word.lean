import Relocate.Text.Segments

/-!
# Words of a command line

An argument is an operand, an option or the mark `--`, behind which everything is an operand. The
options that take a value have it behind an equals sign or as the next argument, which then must not
look like an option itself.
-/

set_option autoImplicit false

namespace Relocate.Command

inductive Setting where
  | minHeight
  | minDice
  | maxSize
  deriving DecidableEq, Inhabited

namespace Setting

def name : Setting → String
  | minHeight => "--min-height"
  | minDice => "--min-dice"
  | maxSize => "--max-size"

def ofName? (text : String) : Option Setting :=
  [minHeight, minDice, maxSize].find? (fun s => s.name == text)

end Setting

inductive Word where
  | operand (text : String)
  /-- An option that takes a value, and its value unless that is missing. -/
  | setting (setting : Setting) (value : Option String)
  | flag (text : String)
  /-- The mark behind which everything is an operand. -/
  | mark
  deriving DecidableEq, Inhabited

/-- A lone dash is an operand. -/
def looksLikeOption (argument : String) : Bool := argument.startsWith "-" && argument != "-"

def splitEquals (argument : String) : String × Option String :=
  match Text.cut '=' argument.toList with
  | [] => (argument, none)
  | [_] => (argument, none)
  | name :: value => (String.ofList name, some (String.ofList (Text.joinWith '=' value)))

inductive Form where
  | flag
  /-- An option with its value behind an equals sign. -/
  | attached (setting : Setting) (value : String)
  /-- An option whose value is the next argument. -/
  | detached (setting : Setting)
  deriving DecidableEq, Inhabited

def formOf (argument : String) : Form :=
  let (name, value) := splitEquals argument
  match Setting.ofName? name, value with
  | none, _ => .flag
  | some s, some v => .attached s v
  | some s, none => .detached s

namespace Word

def ofArguments : List String → List Word
  | [] => []
  | argument :: rest =>
    if argument == "--" then .mark :: rest.map .operand
    else if !looksLikeOption argument then .operand argument :: ofArguments rest
    else
      match formOf argument with
      | .flag => .flag argument :: ofArguments rest
      | .attached s v => .setting s (some v) :: ofArguments rest
      | .detached s =>
        match rest with
        | [] => [.setting s none]
        | v :: rest =>
          if looksLikeOption v then [.setting s none]
          else .setting s (some v) :: ofArguments rest

end Word

end Relocate.Command
