import Relocate.Command.Session
import Relocate.Files.Volume

/-!
# Outcomes

What a command line does to a volume of files: the exit code, what it prints on the two standard
streams, and the volume afterwards.
-/

set_option autoImplicit false

namespace Relocate.Command

open Relocate.Files

def versionLine : String := "remap 0.1.0\n"

def usage : String :=
  "Relocate mutation-testing findings across source revisions\n\n" ++
  "Usage: remap [OPTIONS] <COMMAND>\n\n" ++
  "Commands:\n" ++
  "  mutations, m <OLD> <NEW> <REPORT> [OUTPUT]  Relocate the mutations of a report\n" ++
  "  diff, d <OLD> <NEW>                         Print the node pairs of two revisions\n" ++
  "  tree, t <FILE>                              Print the tree of a file as a document\n\n" ++
  "Options:\n" ++
  "      --min-height <N>  Subtrees this low are left to the second phase [default: 2]\n" ++
  "      --min-dice <X>    Similarity above which two containers are paired [default: 0.5]\n" ++
  "      --max-size <N>    Size from which pairs are not refined [default: 100]\n" ++
  "  -h, --help            Print help\n" ++
  "  -V, --version         Print version\n"

structure Outcome where
  code : Nat
  output : String
  notes : String
  volume : Volume
  deriving Inhabited

def lines (notes : List String) : String := String.join (notes.map (fun n => n ++ "\n"))

def failureLine (message : String) : String := s!"Error: {message}"

def failure (v : Volume) (notes : List String) (message : String) : Outcome :=
  { code := 1, output := "", notes := lines (notes ++ [failureLine message]), volume := v }

def deliver (v : Volume) (notes : List String) (d : Delivery) : Outcome :=
  match d.file with
  | none => { code := 0, output := d.document, notes := lines (notes ++ d.closing), volume := v }
  | some path =>
    match v.write path d.document.toUTF8.toList with
    | .ok after => { code := 0, output := "", notes := lines (notes ++ d.closing), volume := after }
    | .error f => failure v notes f.message

def conclude (v : Volume) (s : Session Delivery) : Outcome :=
  match s.result with
  | .ok d => deliver v s.notes d
  | .error message => failure v s.notes message

def outcome (v : Volume) (arguments : List String) : Outcome :=
  match Request.ofArguments arguments with
  | .error f => { code := 2, output := "", notes := lines [failureLine f.message], volume := v }
  | .ok .version => { code := 0, output := versionLine, notes := "", volume := v }
  | .ok .help => { code := 0, output := usage, notes := "", volume := v }
  | .ok (.perform task config) => conclude v (task.session v.read config)

end Relocate.Command
