import Relocate.Files.Path
import Relocate.Files.Volume
import Relocate.Interchange.Reader
import Relocate.Mutation.Relocation
import Relocate.Report.Reader
import Relocate.Source.Tree

/-!
# Reading revisions and reports from files

The extension of a path, in upper or lower case, says what a revision is written in. Sources and
documents picked by extension are read as text first and have to be UTF-8 throughout; a document or
report that is asked for as such is read as bytes.
-/

set_option autoImplicit false

namespace Relocate.Files

open Relocate.Text

inductive Format where
  | source
  | document
  deriving DecidableEq, Inhabited

namespace Format

def ofExtension? (ext : String) : Option Format :=
  match String.ofList (ext.toList.map Char.toLower) with
  | "java" => some .source
  | "xml" => some .document
  | _ => none

def ofPath? (path : String) : Option Format := (extension? path).bind ofExtension?

def parse : Format → String → Except Error SourceFile
  | .source, text =>
    match Source.read text with
    | .ok root => .ok { root, text }
    | .error line => .error (.parse (.source line))
  | .document, text => (Interchange.read text).map fun root => { root }

end Format

def parseAs (path text : String) : Except Error SourceFile :=
  match Format.ofPath? path with
  | some format => format.parse text
  | none => .error (.unsupported path)

abbrev Lookup := String → Except FileFault Bytes

def readText (files : Lookup) (path : String) : Except Error String :=
  match files path with
  | .error f => .error (.file f)
  | .ok bytes =>
    match Symbols.chars? (Symbols.ofBytes bytes) with
    | some cs => .ok (String.ofList cs)
    | none => .error (.file .notUtf8)

/-- A directory can be opened but not read. -/
def openFault : FileFault → Error
  | .isDirectory => .unreadable .isDirectory
  | f => .file f

def readBytes (files : Lookup) (path : String) : Except Error Bytes :=
  (files path).mapError openFault

def readSource (files : Lookup) (path : String) : Except Error SourceFile :=
  (readText files path).bind Format.source.parse

def readDocument (files : Lookup) (path : String) : Except Error SourceFile :=
  (readBytes files path).bind fun bytes =>
    (Interchange.readBytes bytes).map fun root => { root }

def readReport (files : Lookup) (path : String) : Except Error (List Finding) :=
  (readBytes files path).bind Report.readBytes

def readRevision (files : Lookup) (path : String) : Except Error SourceFile :=
  match Format.ofPath? path with
  | some format => (readText files path).bind format.parse
  | none => .error (.unsupported path)

end Relocate.Files
