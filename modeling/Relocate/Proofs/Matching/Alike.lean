import Relocate.Proofs.Matching.Phases
import Relocate.Proofs.Tree.Shape

/-!
# What the top-down phase pairs

Every pair of the top-down phase lies at one address in two subtrees that were compared and found
equal, so its two places are of one shape.
-/

set_option autoImplicit false

namespace Relocate.Matching

namespace Store

def Adds (Q : Place → Place → Prop) (st st' : Store) : Prop :=
  ∀ pair ∈ st'.pairs.toList, pair ∈ st.pairs.toList ∨ Q pair.1 pair.2

namespace Adds

variable {Q : Place → Place → Prop} {st st' st'' : Store} {s d : Place}

theorem refl (st : Store) : Adds Q st st := fun _ => Or.inl

theorem trans (h : Adds Q st st') (g : Adds Q st' st'') : Adds Q st st'' := by
  intro pair hpair
  rcases g pair hpair with hold | hnew
  · exact h pair hold
  · exact Or.inr hnew

theorem foldl {β : Type} {f : Store → β → Store} {l : List β}
    (h : ∀ x ∈ l, ∀ st, Adds Q st (f st x)) (st : Store) : Adds Q st (l.foldl f st) :=
  foldl_rel refl trans h st

theorem commit (h : Q s d) (st : Store) : Adds Q st (st.commit s d) := by
  intro pair hpair
  rw [Store.commit, Array.toList_push, List.mem_append, List.mem_singleton] at hpair
  rcases hpair with hold | rfl
  · exact Or.inl hold
  · exact Or.inr h

theorem link (h : Q s d) (st : Store) : Adds Q st (st.link s d) := by
  rw [Store.link]
  split
  · exact commit h st
  · exact refl st

theorem linkAll {l : List (Place × Place)} (h : ∀ pair ∈ l, Q pair.1 pair.2) (st : Store) :
    Adds Q st (st.linkAll l) :=
  foldl (fun pair hpair st => link (h pair hpair) st) st

end Adds

def Alike (s d : Place) : Prop := s.node.shape = d.node.shape

theorem adds_bump (st : Store) (s d : Place) : Adds Alike st (st.bump s d) := fun _ => Or.inl

theorem adds_linkSubtrees {s d : Place} (h : Alike s d) (st : Store) :
    Adds Alike st (st.linkSubtrees s d) :=
  Adds.linkAll (fun _ hpair => Place.shape_eq_of_mem_zip h hpair) st

end Store

namespace TopDown

open Store

variable {minHeight h : Nat} {σ σ' : State}

def State.DefersAlike (σ : State) : Prop := ∀ pair ∈ σ.deferred, Alike pair.1 pair.2

theorem alike_of_mem_equalPairs {srcs dsts : List Place} {pair : Place × Place}
    (hpair : pair ∈ equalPairs srcs dsts) : Alike pair.1 pair.2 :=
  Rose.shape_eq_of_isomorphic _ _ (mem_equalPairs.1 hpair).2.2

theorem adds_pairUp (σ : State) (h : Nat) : Adds Alike σ.store (pairUp σ h).store := by
  have hcount : Adds Alike σ.store ((equalPairs (σ.src.ofHeight h) (σ.dst.ofHeight h)).foldl
      (fun st p => st.bump p.1 p.2) σ.store) :=
    Adds.foldl (fun _ _ st => adds_bump st _ _) σ.store
  apply hcount.trans
  apply Adds.foldl
  intro pair hpair st
  exact adds_linkSubtrees (alike_of_mem_equalPairs (List.mem_filter.1 hpair).1) st

theorem State.DefersAlike.step (hσ : σ.DefersAlike) (hstep : step? minHeight σ = some σ') :
    σ'.DefersAlike ∧ Adds Alike σ.store σ'.store := by
  rcases step?_eq_some hstep with ⟨-, -, rfl⟩ | ⟨-, -, rfl⟩ | ⟨-, -, rfl⟩
  · exact ⟨hσ, Adds.refl _⟩
  · exact ⟨hσ, Adds.refl _⟩
  · refine ⟨?_, adds_pairUp σ _⟩
    intro pair hpair
    rcases List.mem_append.1 hpair with hold | hnew
    · exact hσ pair hold
    · exact alike_of_mem_equalPairs (List.mem_filter.1 hnew).1

theorem State.DefersAlike.exhaust (minHeight : Nat) (hσ : σ.DefersAlike) :
    (exhaust minHeight σ).DefersAlike ∧ Adds Alike σ.store (exhaust minHeight σ).store := by
  induction σ using exhaust.induct minHeight with
  | case1 σ hstep =>
    rw [TopDown.exhaust, hstep]
    exact ⟨hσ, Adds.refl _⟩
  | case2 σ σ' hstep ih =>
    obtain ⟨hdefers, hadds⟩ := hσ.step hstep
    rw [TopDown.exhaust, hstep]
    exact ⟨(ih hdefers).1, hadds.trans (ih hdefers).2⟩

theorem adds_settle {s d : Place} (halike : Alike s d) (st : Store) :
    Adds Alike st (settle st s d) := by
  rw [settle]
  split
  · exact adds_linkSubtrees halike st
  · exact Adds.refl st

theorem adds_run (minHeight : Nat) (s d : Place) (st : Store) :
    Adds Alike st (run minHeight s d st) := by
  have hstart : (start st s d).DefersAlike := fun pair hpair => absurd hpair List.not_mem_nil
  obtain ⟨hdefers, hadds⟩ := hstart.exhaust minHeight
  apply hadds.trans
  apply Adds.foldl
  intro c hc st
  exact adds_settle (hdefers c.2 (mem_ranked hc)) st

end TopDown

end Relocate.Matching
