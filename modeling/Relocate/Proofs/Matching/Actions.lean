import Relocate.Proofs.Matching.Phases

/-!
# Any order of actions

Links, flags and whole phases in any order, from any nodes of two freshly wrapped trees and with any
settings.
-/

set_option autoImplicit false

namespace Relocate.Matching

abbrev NodeOf (T : Wrapped) := { p : Place // p ∈ nodes T }

inductive Action (S D : Wrapped) where
  | link (s : NodeOf S) (d : NodeOf D)
  | linkSubtrees (s : NodeOf S) (d : NodeOf D)
  | markSrc (s : NodeOf S)
  | markDst (d : NodeOf D)
  | topDown (config : Config) (s : NodeOf S) (d : NodeOf D)
  | bottomUp (config : Config) (s : NodeOf S) (d : NodeOf D)

namespace Action

variable {S D : Wrapped}

def perform (st : Store) : Action S D → Store
  | link s d => st.link s.1 d.1
  | linkSubtrees s d => st.linkSubtrees s.1 d.1
  | markSrc s => st.markSrc s.1
  | markDst d => st.markDst d.1
  | topDown config s d => TopDown.run config.minHeight s.1 d.1 st
  | bottomUp config s d => BottomUp.run config s.1 d.1 st

def performAll (actions : List (Action S D)) : Store := actions.foldl perform (Store.empty S D)

theorem performAll_append (actions later : List (Action S D)) :
    performAll (actions ++ later) = later.foldl perform (performAll actions) :=
  List.foldl_append

theorem performAll_concat (actions : List (Action S D)) (next : Action S D) :
    performAll (actions ++ [next]) = perform (performAll actions) next :=
  performAll_append actions [next]

theorem reaches_perform (st : Store) (action : Action S D) :
    Store.Reaches S D st (action.perform st) := by
  cases action with
  | link s d => exact (Store.advances_link st s.2 d.2).reaches
  | linkSubtrees s d => exact (Store.advances_linkSubtrees st s.2 d.2).reaches
  | markSrc s => exact .single (.markSrc st s.1)
  | markDst d => exact .single (.markDst st d.1)
  | topDown config s d => exact TopDown.reaches_run config.minHeight st s.2 d.2
  | bottomUp config s d => exact (BottomUp.advances_run config st s.2 d.2).reaches

theorem reaches_foldl_perform (actions : List (Action S D)) (st : Store) :
    Store.Reaches S D st (actions.foldl perform st) :=
  Store.foldl_rel (fun _ => .refl) .trans (fun action _ st => reaches_perform st action) st

theorem reaches_performAll (actions : List (Action S D)) :
    Store.Reaches S D (Store.empty S D) (performAll actions) :=
  reaches_foldl_perform actions _

end Action

/-- Flags, tables and list of a store describe one partial matching, one-to-one between the nodes of
the two trees; it is complete when every node takes part. -/
structure Store.Consistent (S D : Wrapped) (st : Store) : Prop where
  distinctSrc : (st.pairs.toList.map fun pair => pair.1.id).Nodup
  distinctDst : (st.pairs.toList.map fun pair => pair.2.id).Nodup
  inside : ∀ pair ∈ st.pairs.toList, pair.1 ∈ nodes S ∧ pair.2 ∈ nodes D
  mappedSrc : ∀ s ∈ nodes S, (st.isMappedSrc s = true ↔ ∃ d, (s, d) ∈ st.pairs.toList)
  mappedDst : ∀ d ∈ nodes D, (st.isMappedDst d = true ↔ ∃ s, (s, d) ∈ st.pairs.toList)
  destination : ∀ s ∈ nodes S, ∀ d, (st.destinationOf? s = some d ↔ (s, d) ∈ st.pairs.toList)
  source : ∀ d ∈ nodes D, ∀ s, (st.sourceOf? d = some s ↔ (s, d) ∈ st.pairs.toList)
  has : ∀ s ∈ nodes S, ∀ d ∈ nodes D, (st.has s d = true ↔ (s, d) ∈ st.pairs.toList)
  inverse : ∀ s ∈ nodes S, ∀ d ∈ nodes D,
    (st.destinationOf? s = some d ↔ st.sourceOf? d = some s)
  complete : (Result.mk S D st).isComplete = true ↔
    (∀ s ∈ nodes S, st.isMappedSrc s = true) ∧ ∀ d ∈ nodes D, st.isMappedDst d = true

theorem Store.Agrees.consistent {mix : Mix} {a b : Ast} {st : Store}
    (h : st.Agrees (Rose.wrap mix a) (Rose.wrap mix b)) :
    st.Consistent (Rose.wrap mix a) (Rose.wrap mix b) where
  distinctSrc := h.src.distinct
  distinctDst := by
    have hdst := h.dst.distinct
    rwa [List.map_map] at hdst
  inside := by
    intro pair hpair
    exact ⟨h.src.inside pair hpair, h.dst.inside pair.swap (List.mem_map_of_mem hpair)⟩
  mappedSrc := fun _ hs => h.isMappedSrc_iff hs
  mappedDst := fun _ hd => h.isMappedDst_iff hd
  destination := fun _ hs _ => h.destinationOf?_eq_some_iff hs
  source := fun _ hd _ => h.sourceOf?_eq_some_iff hd
  has := fun _ hs _ hd => h.has_iff hs hd
  inverse := by
    intro s hs d hd
    rw [h.destinationOf?_eq_some_iff hs, h.sourceOf?_eq_some_iff hd]
  complete := h.isComplete_iff

/-- Whatever was done, pairs and marks describe one partial matching, and whatever is done next only
adds pairs to the end of the list. -/
theorem Action.consistent_performAll (mix : Mix) (a b : Ast)
    (actions : List (Action (Rose.wrap mix a) (Rose.wrap mix b))) :
    (performAll actions).Consistent (Rose.wrap mix a) (Rose.wrap mix b) ∧
      ∀ next, (performAll actions).pairs.toList <+:
        (performAll (actions ++ [next])).pairs.toList := by
  constructor
  · exact ((Store.agrees_empty _ _).reaches (reaches_performAll actions)).consistent
  · intro next
    rw [performAll_concat]
    exact (reaches_perform (performAll actions) next).prefix_pairs

end Relocate.Matching
