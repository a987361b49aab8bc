/-!
# Names with separators

A name is cut at every separator into its parts, of which there is always at least one; put together
again they give the name.
-/

set_option autoImplicit false

namespace Relocate.Text

def cut (sep : Char) : List Char → List (List Char)
  | [] => [[]]
  | c :: cs =>
    if c = sep then [] :: cut sep cs
    else match cut sep cs with
      | [] => [[c]]
      | s :: rest => (c :: s) :: rest

def segments (cs : List Char) : List (List Char) := cut '.' cs

def joinWith (sep : Char) : List (List Char) → List Char
  | [] => []
  | [s] => s
  | s :: rest => s ++ sep :: joinWith sep rest

theorem cut_ne_nil (sep : Char) (cs : List Char) : cut sep cs ≠ [] := by
  cases cs with
  | nil => simp [cut]
  | cons c cs =>
    simp only [cut]
    split
    · simp
    · split <;> simp

theorem segments_ne_nil (cs : List Char) : segments cs ≠ [] := cut_ne_nil '.' cs

def replace (a b : Char) (cs : List Char) : List Char := cs.map (fun c => if c = a then b else c)

def replaceLast (a b : Char) (cs : List Char) : List Char :=
  let tail := cs.reverse.takeWhile (· != a)
  match cs.reverse.dropWhile (· != a) with
  | [] => cs
  | _ :: front => front.reverse ++ b :: tail.reverse

def startsUpper : List Char → Bool
  | c :: _ => c.isUpper
  | [] => false

def startsLower : List Char → Bool
  | c :: _ => c.isLower
  | [] => false

end Relocate.Text
