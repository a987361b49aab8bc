import Relocate.Matching.BottomUp
import Relocate.Matching.TopDown

/-!
# Matching two trees

The top-down phase followed by the bottom-up phase, both from the roots and over one store.
-/

set_option autoImplicit false

namespace Relocate.Matching

structure Result where
  src : Wrapped
  dst : Wrapped
  store : Store
  deriving Inhabited

namespace Result

def pairs (r : Result) : List (Place × Place) := r.store.pairs.toList

def isComplete (r : Result) : Bool :=
  r.store.size == r.src.size && r.store.size == r.dst.size

end Result

def matchWrapped (config : Config) (src dst : Wrapped) : Store :=
  let s := Place.root src
  let d := Place.root dst
  BottomUp.run config s d (TopDown.run config.minHeight s d (Store.empty src dst))

def matchWith (mix : Mix) (config : Config) (src dst : Ast) : Result :=
  let s := Rose.wrap mix src
  let d := Rose.wrap mix dst
  ⟨s, d, matchWrapped config s d⟩

def matchTrees (config : Config) (src dst : Ast) : Result := matchWith Mix.standard config src dst

end Relocate.Matching
