import Relocate.Error
import Relocate.Files.Path

/-!
# Files in memory

A volume holds files by their paths. Its directories are those that its files lie in, and its own
root; whatever lies above the root is empty. A path is followed part by part, and every part but the
last has to be a directory.
-/

set_option autoImplicit false

namespace Relocate.Files

abbrev Bytes := List UInt8

structure StoredFile where
  path : List String
  content : Bytes
  deriving DecidableEq, Inhabited

structure Volume where
  files : List StoredFile := []
  deriving DecidableEq, Inhabited

inductive Spot where
  /-- A directory above the root. -/
  | outside
  | inside (path : List String)
  deriving DecidableEq, Inhabited

namespace Volume

def content? (v : Volume) (path : List String) : Option Bytes :=
  (v.files.find? (fun f => f.path == path)).map StoredFile.content

def isDirectory (v : Volume) (path : List String) : Bool :=
  path.isEmpty || v.files.any (fun f => path.isPrefixOf f.path && path.length < f.path.length)

def put (v : Volume) (path : List String) (content : Bytes) : Volume :=
  if (v.content? path).isSome then
    { files := v.files.map (fun f => if f.path == path then { f with content } else f) }
  else { files := v.files ++ [⟨path, content⟩] }

theorem find?_replaced (fs : List StoredFile) (path q : List String) (content : Bytes) :
    (fs.map (fun f => if f.path == path then { f with content } else f)).find?
        (fun f => f.path == q) =
      (fs.find? (fun f => f.path == q)).map
        (fun f => if f.path == path then { f with content } else f) := by
  induction fs with
  | nil => rfl
  | cons f fs ih =>
    by_cases hp : f.path = path <;> by_cases hq : f.path = q <;> simp_all

theorem content?_put (v : Volume) (path q : List String) (content : Bytes) :
    (v.put path content).content? q = if q = path then some content else v.content? q := by
  unfold put
  split
  · rename_i h
    simp only [content?, find?_replaced, Option.map_map] at h ⊢
    by_cases hq : q = path
    · subst hq
      cases hf : v.files.find? (fun f => f.path == q) with
      | none => simp [hf] at h
      | some f =>
        have := List.find?_some hf
        simp_all
    · cases hf : v.files.find? (fun f => f.path == q) with
      | none => simp [hq]
      | some f =>
        have := List.find?_some hf
        simp_all
  · rename_i h
    have hnone : v.files.find? (fun f => f.path == path) = none := by
      cases hf : v.files.find? (fun f => f.path == path) with
      | none => rfl
      | some f => simp [content?, hf] at h
    simp only [content?, List.find?_append]
    by_cases hq : q = path
    · subst hq
      simp [hnone]
    · have : path ≠ q := fun e => hq e.symm
      simp [hq, this]

def maxName : Nat := 255

def maxPath : Nat := 4095

def enter (v : Volume) (spot : Spot) (part : String) : Except FileFault Spot :=
  match spot with
  | .outside =>
    if isIdle part || part == ".." then .ok .outside
    else .error (if maxName < part.utf8ByteSize then .nameTooLong else .notFound)
  | .inside path =>
    if !v.isDirectory path then
      .error (if (v.content? path).isSome then .notDirectory else .notFound)
    else if isIdle part then .ok spot
    else if part == ".." then
      .ok (if path.isEmpty then .outside else .inside path.dropLast)
    else if maxName < part.utf8ByteSize then .error .nameTooLong
    else .ok (.inside (path ++ [part]))

def follow (v : Volume) (ps : List String) (spot : Spot) : Except FileFault Spot :=
  ps.foldlM v.enter spot

/-- Where a path starts: a slash in front leads out of the volume. -/
def start (path : String) : Spot := if path.startsWith "/" then .outside else .inside []

def pathFault? (path : String) : Option FileFault :=
  if path.toList.contains '\x00' then some .nullInName
  else if path == "" then some .notFound
  else if maxPath < path.utf8ByteSize then some .nameTooLong
  else none

/-- The spot that a path leads to. An empty path leads nowhere. -/
def locate (v : Volume) (path : String) : Except FileFault Spot :=
  match pathFault? path with
  | some fault => .error fault
  | none => v.follow (parts path) (start path)

def read (v : Volume) (path : String) : Except FileFault Bytes :=
  (v.locate path).bind fun
    | .outside => .error .isDirectory
    | .inside names =>
      match v.content? names with
      | some content => .ok content
      | none => .error (if v.isDirectory names then .isDirectory else .notFound)

def isName (part : String) : Bool := !isIdle part && part != ".."

def withoutEnd (ps : List String) : List String × Bool :=
  ((ps.reverse.dropWhile (· == "")).reverse, ps.getLast? == some "")

/-- The names of the file that writing to a path replaces or creates. Its directory has to exist,
and the path has to end in the name. -/
def target (v : Volume) (path : String) : Except FileFault (List String) :=
  match pathFault? path with
  | some fault => .error fault
  | none =>
    let (ps, isSlashed) := withoutEnd (parts path)
    (v.follow ps.dropLast (start path)).bind fun spot =>
      match spot, ps.getLast?.getD "" with
      | .outside, last => .error (if isName last && !isSlashed then .notFound else .isDirectory)
      | .inside names, last =>
        if !v.isDirectory names then
          .error (if (v.content? names).isSome then .notDirectory else .notFound)
        else if isSlashed || !isName last then .error .isDirectory
        else if maxName < last.utf8ByteSize then .error .nameTooLong
        else if v.isDirectory (names ++ [last]) then .error .isDirectory
        else .ok (names ++ [last])

def write (v : Volume) (path : String) (content : Bytes) : Except FileFault Volume :=
  (v.target path).map fun names => v.put names content

end Volume

end Relocate.Files
