import Mathlib.Tactic.SplitIfs
import Relocate.Proofs.Results
import Relocate.Proofs.Text.Blank
import Relocate.Report.Reader

/-!
# What the reader of reports returns

Whatever document a finding is read from, the texts of its elements are trimmed and its numbers have
64 bits. Both hold of the draft of the open mutation at every moment of the reading.
-/

set_option autoImplicit false

namespace Relocate

open Relocate.Text Relocate.Markup

namespace Finding

def trimmed (f : Finding) : Finding :=
  { f with
    sourceFile := Text.trimmed f.sourceFile
    mutatedClass := Text.trimmed f.mutatedClass
    mutatedMethod := Text.trimmed f.mutatedMethod
    descriptor := Text.trimmed f.descriptor
    operator := Text.trimmed f.operator
    description := f.description.map Text.trimmed }

structure Fits (f : Finding) : Prop where
  line : f.line ≤ Number.unsignedLimit
  indices : ∀ n ∈ f.indices, n ≤ Number.unsignedLimit
  order : ∀ n ∈ f.order, n ≤ Number.unsignedLimit

/-- A finding that a report can say: nothing to trim and no number too large. -/
structure Tidy (f : Finding) : Prop where
  trimmed : f.trimmed = f
  fits : f.Fits

end Finding

namespace Report

namespace Draft

/-- Texts that are trimmed and numbers of 64 bits, as far as there are any. The line is still a
text here, and status and verdict are no elements. -/
structure Tidy (d : Draft) : Prop where
  sourceFile : d.sourceFile.map trimmed = d.sourceFile
  mutatedClass : d.mutatedClass.map trimmed = d.mutatedClass
  mutatedMethod : d.mutatedMethod.map trimmed = d.mutatedMethod
  descriptor : d.descriptor.map trimmed = d.descriptor
  operator : d.operator.map trimmed = d.operator
  description : d.description.map trimmed = d.description
  indices : ∀ n ∈ d.indices, n ≤ Number.unsignedLimit
  order : ∀ n ∈ d.order, n ≤ Number.unsignedLimit

theorem tidy_new : ({} : Draft).Tidy where
  sourceFile := rfl
  mutatedClass := rfl
  mutatedMethod := rfl
  descriptor := rfl
  operator := rfl
  description := rfl
  indices := List.forall_mem_nil _
  order := List.forall_mem_nil _

theorem readNumber_le {name text : String} {n : Nat} (h : readNumber name text = .ok n) :
    n ≤ Number.unsignedLimit := by
  unfold readNumber at h
  split at h
  · rename_i m hm
    cases h
    exact Number.readUnsigned?_le hm
  · cases h

namespace Tidy

variable {d d' : Draft} (hd : d.Tidy)

include hd

theorem setAttribute {a : Attribute} (h : d.setAttribute a = .ok d') : d'.Tidy := by
  obtain ⟨text, -, rfl⟩ := eq_of_map_eq_ok h
  split_ifs
  · exact { hd with }
  · exact { hd with }
  · exact hd

theorem set {element : List Symbol} {raw : List Char} (h : d.set element raw = .ok d') :
    d'.Tidy := by
  have htext : (some (String.ofList (trim raw))).map trimmed = some (String.ofList (trim raw)) := by
    rw [Option.map_some, trimmed, String.toList_ofList, trim_trim]
  have hlist : ∀ {ns : List Nat} {n : Nat}, (∀ m ∈ ns, m ≤ Number.unsignedLimit) →
      n ≤ Number.unsignedLimit → ∀ m ∈ ns ++ [n], m ≤ Number.unsignedLimit := by
    intro ns n hns hn m hm
    rcases List.mem_append.1 hm with hm | hm
    · exact hns m hm
    · rw [List.mem_singleton.1 hm]
      exact hn
  simp only [Draft.set] at h
  split_ifs at h
  · cases h; exact { hd with sourceFile := htext }
  · cases h; exact { hd with mutatedClass := htext }
  · cases h; exact { hd with mutatedMethod := htext }
  · cases h; exact { hd with descriptor := htext }
  · cases h; exact { hd with }
  · cases h; exact { hd with operator := htext }
  · cases h; exact { hd with description := htext }
  · obtain ⟨n, hn, rfl⟩ := eq_of_map_eq_ok h
    exact { hd with indices := hlist hd.indices (readNumber_le hn) }
  · obtain ⟨n, hn, rfl⟩ := eq_of_map_eq_ok h
    exact { hd with order := hlist hd.order (readNumber_le hn) }
  · cases h; exact hd

theorem finding? {f : Finding} (h : d.finding? = some f) : f.Tidy := by
  simp only [Draft.finding?, Option.bind_eq_bind, Option.bind_eq_some_iff, Option.pure_def,
    Option.some.injEq] at h
  obtain ⟨line, ⟨text, -, hline⟩, sourceFile, hsourceFile, mutatedClass, hmutatedClass,
    mutatedMethod, hmutatedMethod, descriptor, hdescriptor, operator, hoperator, rfl⟩ := h
  have hkept : ∀ {text : Option String} {t : String}, text.map Text.trimmed = text →
      text = some t → Text.trimmed t = t := by
    intro text t hmap heq
    rw [heq] at hmap
    exact Option.some.inj hmap
  refine ⟨?_, Number.readUnsigned?_le hline, hd.indices, hd.order⟩
  simp only [Finding.trimmed, hkept hd.sourceFile hsourceFile, hkept hd.mutatedClass hmutatedClass,
    hkept hd.mutatedMethod hmutatedMethod, hkept hd.descriptor hdescriptor,
    hkept hd.operator hoperator, hd.description]

end Tidy

theorem tidy_ofTag {t : StartTag} {d : Draft} (h : ofTag t = .ok d) : d.Tidy := by
  unfold ofTag at h
  obtain ⟨e, hfold, h⟩ := eq_of_bind_eq_ok h
  split at h
  · cases h
  · cases h
    exact foldlM_invariant (fun _ _ _ hd hset => hd.setAttribute hset) tidy_new hfold

end Draft

namespace State

structure Tidy (s : State) : Prop where
  found : ∀ f ∈ s.found, f.Tidy
  current : ∀ d ∈ s.current, d.Tidy

theorem tidy_new : ({} : State).Tidy :=
  ⟨List.forall_mem_nil _, fun _ h => by cases h⟩

namespace Tidy

variable {s s' : State} (hs : s.Tidy)

include hs

theorem onStart {t : StartTag} (h : s.onStart t = .ok s') : s'.Tidy := by
  unfold State.onStart at h
  split_ifs at h
  · obtain ⟨d, hd, rfl⟩ := eq_of_map_eq_ok h
    refine ⟨hs.found, fun e he => ?_⟩
    cases he
    exact Draft.tidy_ofTag hd
  · cases h
    exact ⟨hs.found, hs.current⟩
  · cases h
    exact ⟨hs.found, hs.current⟩

theorem onFinish {name : List Symbol} (h : s.onFinish name = .ok s') : s'.Tidy := by
  unfold State.onFinish at h
  split_ifs at h
  · cases h
    refine ⟨?_, fun _ h => by cases h⟩
    cases hfinding : s.current.bind Draft.finding? with
    | none => exact hs.found
    | some f =>
      obtain ⟨d, hd, hf⟩ := Option.bind_eq_some_iff.1 hfinding
      intro g hg
      rcases List.mem_cons.1 hg with rfl | hg
      · exact (hs.current d hd).finding? hf
      · exact hs.found g hg
  · split at h
    · rename_i d hd
      obtain ⟨e, hset, rfl⟩ := eq_of_map_eq_ok h
      refine ⟨hs.found, fun d' hd' => ?_⟩
      cases hd'
      exact (hs.current d hd).set hset
    · cases h
      exact ⟨hs.found, hs.current⟩

theorem addText (cs : List Char) : (s.addText cs).Tidy := ⟨hs.found, hs.current⟩

theorem step {e : Event} (h : s.step e = .ok s') : s'.Tidy := by
  cases e with
  | start t => exact hs.onStart h
  | empty t =>
    cases h
    split_ifs
    · exact ⟨hs.found, hs.current⟩
    · exact hs
  | finish name => exact hs.onFinish h
  | text run =>
    simp only [State.step] at h
    split at h
    · cases h
      exact hs.addText _
    · cases h
  | data run =>
    cases h
    exact hs.addText _
  | reference name =>
    obtain ⟨c, -, rfl⟩ := eq_of_map_eq_ok h
    exact hs.addText [c]
  | aside =>
    cases h
    exact hs

end Tidy

end State

theorem tidy_of_ofStream {stream : Stream} {found : List Finding}
    (h : ofStream stream = .ok found) : ∀ f ∈ found, f.Tidy := by
  unfold ofStream at h
  obtain ⟨s, hfold, h⟩ := eq_of_bind_eq_ok h
  have hs : s.Tidy := foldlM_invariant (fun _ _ _ hs hstep => hs.step hstep) State.tidy_new hfold
  split at h
  · cases h
  · unfold State.finish at h
    split_ifs at h
    cases h
    exact fun f hf => hs.found f (List.mem_reverse.1 hf)

end Report

end Relocate
