import Relocate.Proofs.Results
import Relocate.Proofs.Source.Reading
import Relocate.Proofs.Tree.Lines
import Relocate.Source.Tree

/-!
# Lines of source trees

Every node of the tree of a source text is on a line of that text: its line is at most one more than
the number of line feeds.
-/

set_option autoImplicit false

namespace Relocate.Source

variable {limit : Nat}

namespace Concrete

abbrev Within (limit : Nat) (c : Concrete) : Prop :=
  Rose.Every (fun l : ConcreteLabel => l.extent.line ≤ limit) c

def AllWithin (limit : Nat) (nodes : List Concrete) : Prop := ∀ c ∈ nodes, Within limit c

theorem AllWithin.nil : AllWithin limit [] := List.forall_mem_nil _

theorem AllWithin.append {as bs : List Concrete} (has : AllWithin limit as)
    (hbs : AllWithin limit bs) : AllWithin limit (as ++ bs) := by
  intro c hc
  rcases List.mem_append.1 hc with hc | hc
  · exact has c hc
  · exact hbs c hc

theorem AllWithin.map {f : Concrete → Concrete} {nodes : List Concrete}
    (hf : ∀ c, Within limit c → Within limit (f c)) (h : AllWithin limit nodes) :
    AllWithin limit (nodes.map f) := by
  intro c hc
  obtain ⟨b, hb, rfl⟩ := List.mem_map.1 hc
  exact hf b (h b hb)

theorem within_comments {t : Token} (h : t.Within limit) :
    AllWithin limit (t.comments.map Concrete.comment) := by
  intro c hc
  obtain ⟨p, hp, rfl⟩ := List.mem_map.1 hc
  exact Rose.every_node.2 ⟨h.comments p hp, List.forall_mem_nil _⟩

theorem within_withKind (kind : String) (c : Concrete) (h : Within limit c) :
    Within limit (withKind kind c) := by
  cases c with
  | node l cs =>
    rw [withKind, Within, Rose.every_node]
    rw [Within, Rose.every_node] at h
    refine ⟨?_, h.2⟩
    split <;> exact h.1

theorem within_withField (field : String) (c : Concrete) (h : Within limit c) :
    Within limit (withField field c) := by
  cases c with
  | node l cs =>
    rw [withField, Within, Rose.every_node]
    rw [Within, Rose.every_node] at h
    refine ⟨?_, h.2⟩
    split <;> exact h.1

theorem within_group {nodes : List Concrete} (h : AllWithin limit nodes) (kind : String) :
    AllWithin limit (group kind nodes) := by
  have hfront : AllWithin limit (nodes.takeWhile fun n => n.label.isExtra) :=
    fun c hc => h c ((List.takeWhile_prefix _).subset hc)
  have hback : AllWithin limit (nodes.dropWhile fun n => n.label.isExtra) :=
    fun c hc => h c ((List.dropWhile_suffix _).subset hc)
  simp only [group]
  split
  · exact hfront
  · rename_i first rest hnodes
    rw [hnodes] at hback
    apply hfront.append
    intro c hc
    rw [List.mem_singleton.1 hc]
    exact Rose.every_node.2 ⟨(hback first List.mem_cons_self).label, hback⟩

end Concrete

namespace Derivation

open Concrete (AllWithin)

theorem within_ofToken {t : Token} (h : t.Within limit) : AllWithin limit (ofToken t) := by
  have hleaf : ∀ l : ConcreteLabel, l.extent = t.extent → Concrete.Within limit (.node l []) :=
    fun l hl => Rose.every_node.2 ⟨hl ▸ h.extent, List.forall_mem_nil _⟩
  apply (Concrete.within_comments h).append
  intro c hc
  rw [List.mem_singleton.1 hc]
  split <;> exact hleaf _ rfl

theorem within_marked {nodes : List Concrete} (h : AllWithin limit nodes) (l : Label) :
    AllWithin limit (marked l nodes) := by
  simp only [marked]
  split <;> split
  · exact (h.map (Concrete.within_withKind _)).map (Concrete.within_withField _)
  · exact h.map (Concrete.within_withField _)
  · exact h.map (Concrete.within_withKind _)
  · exact h

mutual
theorem within_nodesBefore (a : Automaton) : (d : Derivation) → (rest : List Concrete) →
    d.Within limit → AllWithin limit rest → AllWithin limit (nodesBefore a d rest)
  | token _ t, rest => by
    intro h hrest
    cases h with
    | token ht => exact (within_ofToken ht).append hrest
  | construct s labels _ _ ds, rest => by
    intro h hrest
    cases h with
    | construct hds =>
      simp only [nodesBefore]
      split
      · have hparts := within_partsBefore a labels ds [] hds AllWithin.nil
        exact (Concrete.within_group hparts _).append hrest
      · exact within_partsBefore a labels ds rest hds hrest

theorem within_partsBefore (a : Automaton) : (labels : List Label) → (ds : List Derivation) →
    (rest : List Concrete) → (∀ d ∈ ds, d.Within limit) → AllWithin limit rest →
      AllWithin limit (partsBefore a labels ds rest)
  | l :: labels, d :: ds, rest => by
    intro h hrest
    obtain ⟨hd, hds⟩ := List.forall_mem_cons.1 h
    have hbehind := within_partsBefore a labels ds rest hds hrest
    simp only [partsBefore]
    split
    · exact within_nodesBefore a d _ hd hbehind
    · have hnodes := within_nodesBefore a d [] hd AllWithin.nil
      exact (within_marked hnodes l).append hbehind
  | [], ds, rest => by
    intro _ hrest
    simpa only [partsBefore] using hrest
  | l :: labels, [], rest => by
    intro _ hrest
    simpa only [partsBefore] using hrest
end

end Derivation

theorem Automaton.within_read (a : Automaton) {source : List Char} {nodes : List Concrete}
    (h : a.read source = .ok nodes) : Concrete.AllWithin (1 + source.count '\n') nodes := by
  have hstart : Reader.Within (1 + source.count '\n')
      { stack := .base 0 (.ofText source), heads := #[some 0], finished := none, faultLine := 0 } :=
    ⟨Stacks.within_base 0 (Spot.within_ofText source), fun _ hx => by cases hx⟩
  unfold Automaton.read at h
  generalize 64 * (source.length + 16) = bound at h
  have hend := Reader.Within.run a bound bound hstart 0
  simp only at h
  split at h
  · rename_i d t hfinished
    cases h
    have hread := hend.finished _ hfinished
    exact Derivation.within_nodesBefore a d _ (hread.2 d rfl) (Concrete.within_comments hread.1)
  · rename_i t hfinished
    cases h
    exact Concrete.within_comments (hend.finished _ hfinished).1
  · cases h

namespace Concrete

theorem within_program {source : List Char} {nodes : List Concrete}
    (h : AllWithin (1 + source.count '\n') nodes) :
    Within (1 + source.count '\n') (program source nodes) := by
  refine Rose.every_node.2 ⟨?_, h⟩
  simp only [wholeExtent]
  split
  · rename_i first rest
    exact (h first List.mem_cons_self).label
  · exact Nat.le_refl _

mutual
theorem within_toAst (source : Array Char) : (c : Concrete) → Within limit c →
    Ast.Within limit (toAst source c)
  | .node l cs => by
    intro h
    obtain ⟨hl, hcs⟩ := Rose.every_node.1 h
    rw [toAst]
    split
    · exact Rose.every_node.2 ⟨hl, List.forall_mem_nil _⟩
    · exact Rose.every_node.2 ⟨hl, within_toAstAll source cs hcs⟩

theorem within_toAstAll (source : Array Char) : (cs : List Concrete) → AllWithin limit cs →
    ∀ t ∈ toAstAll source cs, Ast.Within limit t
  | [] => by
    intro _ t ht
    simp [toAstAll] at ht
  | c :: cs => by
    intro h
    obtain ⟨hc, hcs⟩ := List.forall_mem_cons.1 h
    have hrest := within_toAstAll source cs hcs
    simp only [toAstAll]
    split
    · exact List.forall_mem_cons.2 ⟨within_toAst source c hc, hrest⟩
    · exact hrest
end

end Concrete

theorem within_concrete {source : List Char} {c : Concrete} (h : concrete source = .ok c) :
    Concrete.Within (1 + source.count '\n') c := by
  unfold concrete at h
  by_cases hnull : source.contains '\x00' = true
  · rw [if_pos hnull] at h
    cases h
  · rw [if_neg hnull] at h
    obtain ⟨nodes, hnodes, rfl⟩ := eq_of_map_eq_ok h
    exact Concrete.within_program (Automaton.within_read _ hnodes)

theorem within_read {text : String} {t : Ast} (h : read text = .ok t) :
    t.Within (1 + text.toList.count '\n') := by
  obtain ⟨c, hconcrete, rfl⟩ := eq_of_map_eq_ok h
  exact Concrete.within_toAst _ _ (within_concrete hconcrete)

end Relocate.Source
