import Relocate.Interchange.Reader
import Relocate.Proofs.Results
import Relocate.Proofs.Tree.Lines

/-!
# Lines of tree documents

The line of every node that is read from a document has 64 bits: it is read from digits that say so,
or inherited from the node above, and 1 at the root.
-/

set_option autoImplicit false

namespace Relocate.Interchange

open Relocate.Text Relocate.Markup Relocate.Number

theorem Draft.line_set {d d' : Draft} (hd : d.line ≤ unsignedLimit) {name : List Symbol}
    {text : String} (h : d.set name text = .ok d') : d'.line ≤ unsignedLimit := by
  unfold Draft.set at h
  split at h
  · cases h; exact hd
  split at h
  · cases h; exact hd
  split at h
  · cases h; exact hd
  split at h
  · split at h
    · rename_i n hn
      cases h
      exact readUnsigned?_le hn
    · cases h
  · cases h; exact hd

theorem line_readTag {line : Nat} (hline : line ≤ unsignedLimit) {t : StartTag} {tag : Tag}
    (h : readTag line t = .ok tag) : tag.line ≤ unsignedLimit := by
  unfold readTag at h
  split at h
  · obtain ⟨d, hfold, h⟩ := eq_of_bind_eq_ok h
    have hd : d.line ≤ unsignedLimit := by
      apply foldlM_invariant (P := fun d : Draft => d.line ≤ unsignedLimit) _ hline hfold
      intro d a d' hd ha
      obtain ⟨text, -, hset⟩ := eq_of_bind_eq_ok ha
      exact Draft.line_set hd hset
    split at h
    · cases h
    · unfold Draft.tag at h
      split at h
      · cases h
        exact hd
      · cases h
  · cases h

namespace State

structure Within (s : State) : Prop where
  opened : ∀ o ∈ s.opened, o.tag.line ≤ unsignedLimit ∧
    ∀ t ∈ o.children, Ast.Within unsignedLimit t
  root : ∀ t ∈ s.root, Ast.Within unsignedLimit t

theorem within_new : ({} : State).Within := ⟨List.forall_mem_nil _, fun _ h => by cases h⟩

namespace Within

variable {s s' : State} (hs : s.Within)

include hs

theorem line_le : s.line ≤ unsignedLimit := by
  unfold State.line
  split
  · rename_i o os hopened
    exact (hs.opened o (by simp [hopened])).1
  · decide

theorem attach {t : Ast} (ht : t.Within unsignedLimit) (h : s.attach t = .ok s') : s'.Within := by
  unfold State.attach at h
  split at h
  · rename_i o os hopened
    cases h
    have hall := hs.opened
    rw [hopened, List.forall_mem_cons] at hall
    exact ⟨List.forall_mem_cons.2 ⟨⟨hall.1.1, List.forall_mem_cons.2 ⟨ht, hall.1.2⟩⟩, hall.2⟩,
      hs.root⟩
  · cases h
    refine ⟨hs.opened, fun u hu => ?_⟩
    cases hu
    exact ht
  · cases h

theorem step {e : Event} (h : s.step e = .ok s') : s'.Within := by
  cases e with
  | start t =>
    obtain ⟨tag, htag, rfl⟩ := eq_of_map_eq_ok h
    have hline := line_readTag hs.line_le htag
    exact ⟨List.forall_mem_cons.2 ⟨⟨hline, List.forall_mem_nil _⟩, hs.opened⟩, hs.root⟩
  | empty t =>
    obtain ⟨tag, htag, hattach⟩ := eq_of_bind_eq_ok h
    have hline := line_readTag hs.line_le htag
    exact hs.attach (Rose.every_node.2 ⟨hline, List.forall_mem_nil _⟩) hattach
  | finish name =>
    simp only [State.step] at h
    split at h
    · rename_i o os hopened
      have hall := hs.opened
      rw [hopened, List.forall_mem_cons] at hall
      have hnode : Ast.Within unsignedLimit (.node o.tag o.children.reverse) :=
        Rose.every_node.2 ⟨hall.1.1, fun t ht => hall.1.2 t (List.mem_reverse.1 ht)⟩
      exact Within.attach (s := { s with opened := os }) ⟨hall.2, hs.root⟩ hnode h
    · cases h
  | text run =>
    obtain ⟨_, -, rfl⟩ := eq_of_map_eq_ok h
    exact hs
  | data run =>
    cases h
    exact hs
  | reference name =>
    cases h
    exact hs
  | aside =>
    cases h
    exact hs

end Within

end State

theorem within_ofSymbols {ss : List Symbol} {t : Ast} (h : ofSymbols ss = .ok t) :
    t.Within unsignedLimit := by
  obtain ⟨s, hfold, h⟩ := eq_of_bind_eq_ok h
  have hs : s.Within :=
    foldlM_invariant (fun _ _ _ hs hstep => hs.step hstep) State.within_new hfold
  split at h
  · cases h
  · unfold State.finish at h
    split at h
    · split at h
      · rename_i u hroot
        cases h
        exact hs.root t hroot
      · cases h
    · cases h

end Relocate.Interchange
