import Relocate.Text.Segments

/-!
# Paths

A path is cut at its slashes. Its file name is its last part that is not empty and not `.`, unless
that is `..`. The extension is what follows the last point of the file name, if something precedes
that point.
-/

set_option autoImplicit false

namespace Relocate.Files

def parts (path : String) : List String := (Text.cut '/' path.toList).map String.ofList

def isIdle (part : String) : Bool := part == "" || part == "."

def fileName? (path : String) : Option String :=
  match ((parts path).filter (fun p => !isIdle p)).getLast? with
  | some name => if name == ".." then none else some name
  | none => none

def splitPoint? (name : List Char) : Option (List Char × List Char) :=
  match name.reverse.dropWhile (· != '.') with
  | [] => none
  | _ :: stem => some (stem.reverse, (name.reverse.takeWhile (· != '.')).reverse)

def extensionOf? (name : String) : Option String :=
  match splitPoint? name.toList with
  | some (_ :: _, ext) => some (String.ofList ext)
  | _ => none

def extension? (path : String) : Option String := (fileName? path).bind extensionOf?

end Relocate.Files
