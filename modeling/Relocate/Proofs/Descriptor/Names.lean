import Relocate.Descriptor.Scope
import Relocate.Proofs.Descriptor.Grammar
import Relocate.Proofs.Descriptor.Nesting
import Relocate.Proofs.Tree.Lines

/-!
# Binary names

Where the package, the imports and the declared types of a file have proper names, all that a dotted
name is resolved to is the name of a class in internal form: slashes between the parts of a package,
dollars between a type and its members, and no points left.
-/

set_option autoImplicit false

namespace Relocate

open Relocate.Text Relocate.Descriptor

def IsDotted (name : String) : Prop := ∀ s ∈ segments name.toList, IsUnqualified s

instance (name : String) : Decidable (IsDotted name) :=
  inferInstanceAs (Decidable (∀ s ∈ segments name.toList, IsUnqualified s))

theorem IsDotted.unqualified {name : String} (h : IsDotted name) (hdot : '.' ∉ name.toList) :
    IsUnqualified name.toList := by
  rw [IsDotted, segments, cut_of_not_mem hdot] at h
  exact List.forall_mem_singleton.1 h

theorem unqualified_dollar : IsUnqualified "$".toList := by decide

namespace BinaryName

theorem internal_append_joinFrom {a : List Char} {parts : List (List Char)} (inType : Bool)
    (ha : IsInternal a) (hparts : ∀ s ∈ parts, IsUnqualified s) :
    IsInternal (a ++ joinFrom inType parts) := by
  induction parts generalizing a inType with
  | nil => rwa [joinFrom, List.append_nil]
  | cons s parts ih =>
    obtain ⟨hs, hparts⟩ := List.forall_mem_cons.1 hparts
    rw [joinFrom, ← List.append_assoc]
    apply ih _ _ hparts
    cases inType with
    | true =>
      apply ha.append
      exact List.forall_mem_cons.2 ⟨by decide, hs.2⟩
    | false => exact ha.append_cons hs.internal

theorem internal_ofDotted {name : String} (h : IsDotted name) :
    IsInternal (ofDotted name).toList := by
  rw [IsDotted] at h
  rw [ofDotted, String.toList_ofList]
  cases hparts : segments name.toList with
  | nil => exact absurd hparts (segments_ne_nil _)
  | cons s parts =>
    rw [hparts] at h
    obtain ⟨hs, hrest⟩ := List.forall_mem_cons.1 h
    exact internal_append_joinFrom _ hs.internal hrest

theorem internal_member {outer rest : String} (houter : IsInternal outer.toList)
    (hrest : IsDotted rest) : IsInternal (member outer rest).toList := by
  simp only [member, String.toList_append, String.toList_ofList]
  apply (houter.append unqualified_dollar.2).append
  intro c hc
  obtain ⟨d, hd, rfl⟩ := List.mem_map.1 hc
  by_cases hdot : d = '.'
  · rw [if_pos hdot]
    decide
  · rw [if_neg hdot]
    obtain ⟨s, hs, hmem⟩ := (mem_cut_of_mem hd).resolve_left hdot
    exact (hrest s hs).2 d hmem

end BinaryName

namespace Scope

def typeName? (t : Ast) : Option String := if Kinds.isType t.kind then t.name? else none

def below (t : Ast) : List Ast := Rose.preOrderAll t.children

/-- The names that a file gives to its package, its imports and its types are proper names. The
first node of a package or import declaration is the one that counts as its name. -/
structure WellNamed (root : Ast) : Prop where
  package : ∀ p ∈ packageOf root, IsDotted p
  imports : ∀ d ∈ root.children, d.kind = "import_declaration" →
    ∀ n ∈ d.children.head?, IsDotted n.text
  declared : ∀ t ∈ below root, ∀ name ∈ typeName? t, IsDotted name
  /-- Only a simple name has types declared inside. -/
  outer : ∀ t ∈ below root, ∀ name ∈ typeName? t, ∀ u ∈ below t, (typeName? u).isSome →
    '.' ∉ name.toList

section Below

variable {t c u : Ast}

theorem mem_below_of_mem_children (hc : c ∈ t.children) : c ∈ below t :=
  Rose.mem_preOrderAll.2 ⟨c, hc, Rose.mem_preOrder_self c⟩

theorem below_subset_of_mem_children (hc : c ∈ t.children) : below c ⊆ below t := by
  intro u hu
  obtain ⟨d, hd, hu⟩ := Rose.mem_preOrderAll.1 hu
  exact Rose.mem_preOrderAll.2 ⟨c, hc, Rose.mem_preOrder_of_mem_children hd hu⟩

end Below

/-- What makes internal names of internal names when it is put in front of them. -/
def IsHome (home : String) : Prop := ∀ s, IsInternal s → IsInternal (home.toList ++ s)

theorem isHome_packagePath {package : Option String} (h : ∀ p ∈ package, IsDotted p) :
    IsHome (packagePath package) := by
  cases package with
  | none => exact fun s hs => hs
  | some p =>
    intro s hs
    have hp : IsInternal (replace '.' '/' p.toList) := by
      have hslash : '/' ∉ p.toList := by
        intro hmem
        have hdot : '/' ≠ '.' := by decide
        obtain ⟨part, hpart, hslash⟩ := (mem_cut_of_mem hmem).resolve_left hdot
        exact (h p rfl part hpart).2 _ hslash (by decide)
      rw [IsInternal, cut_replace hslash]
      exact h p rfl
    simp only [packagePath, String.toList_append, String.toList_ofList, List.append_assoc]
    exact hp.append_cons hs

theorem internal_of_mem_declaredIn {home : String} (hhome : IsHome home) {outer : Option String}
    {t : Ast} (hdeclared : ∀ u ∈ below t, ∀ name ∈ typeName? u, IsDotted name)
    (hsimple : ∀ u ∈ below t, ∀ name ∈ typeName? u, ∀ v ∈ below u, (typeName? v).isSome →
      '.' ∉ name.toList)
    (houter : ∀ u ∈ below t, (typeName? u).isSome → ∀ o ∈ outer, IsInternal o.toList)
    {entry : String × String} (hentry : entry ∈ declaredIn home outer t)
    (hdot : '.' ∉ entry.1.toList) : IsInternal entry.2.toList := by
  -- by size, since what is around a declaration changes on the way down to it
  generalize hsize : t.size = size
  induction size using Nat.strongRecOn generalizing t outer with
  | ind size ih =>
    rw [declaredIn_eq_flatMap] at hentry
    obtain ⟨c, hc, hentry⟩ := List.mem_flatMap.1 hentry
    have hbelow := mem_below_of_mem_children hc
    have hsubset := below_subset_of_mem_children hc
    have hchild : ∀ outer : Option String,
        (∀ u ∈ below c, (typeName? u).isSome → ∀ o ∈ outer, IsInternal o.toList) →
        entry ∈ declaredIn home outer c → IsInternal entry.2.toList := by
      intro outer houter hentry
      exact ih c.size (hsize ▸ t.size_lt_of_mem_children hc)
        (fun u hu => hdeclared u (hsubset hu)) (fun u hu => hsimple u (hsubset hu))
        houter hentry rfl
    rw [declaredFrom, ← typeName?] at hentry
    cases hname : typeName? c with
    | none =>
      rw [hname] at hentry
      exact hchild outer (fun u hu => houter u (hsubset hu)) hentry
    | some name =>
      rw [hname] at hentry
      have hbinary : '.' ∉ name.toList → IsInternal (binaryName home outer name).toList := by
        intro hdot
        have hunqualified := (hdeclared c hbelow name hname).unqualified hdot
        cases outer with
        | none =>
          rw [binaryName, String.toList_append]
          exact hhome _ hunqualified.internal
        | some o =>
          have ho := houter c hbelow (by rw [hname]; rfl) o rfl
          simp only [binaryName, String.toList_append]
          exact (ho.append unqualified_dollar.2).append hunqualified.2
      rcases List.mem_cons.1 hentry with rfl | hentry
      · exact hbinary hdot
      · apply hchild _ _ hentry
        intro u hu hsome o ho
        cases ho
        exact hbinary (hsimple c hbelow name hname u hu hsome)

section Resolve

variable {root : Ast} {name binary : String}

theorem mem_of_lookup_eq_some {α : Type} {l : List (String × α)} {x : α}
    (h : l.lookup name = some x) : (name, x) ∈ l := by
  obtain ⟨front, back, rfl, -⟩ := List.lookup_eq_some_iff.1 h
  exact List.mem_append_right _ List.mem_cons_self

theorem unqualified_of_mem_implicitTypes : ∀ n ∈ implicitTypes, IsUnqualified n.toList := by
  decide +kernel

theorem internal_of_resolveSimple? (hroot : WellNamed root) (hdot : '.' ∉ name.toList)
    (h : (ofRoot root).resolveSimple? name = some binary) : IsInternal binary.toList := by
  rw [resolveSimple?] at h
  split at h
  · rename_i found hlookup
    cases h
    apply internal_of_mem_declaredIn (isHome_packagePath hroot.package) hroot.declared hroot.outer
      _ (mem_of_lookup_eq_some hlookup) hdot
    intro u _ _ o ho
    cases ho
  · split at h
    · rename_i found hlookup
      cases h
      have hmem := mem_of_lookup_eq_some hlookup
      obtain ⟨d, hd, himport⟩ := List.mem_filterMap.1 hmem
      rw [importOf?] at himport
      split at himport
      · rename_i hkind
        obtain ⟨n, hn, heq⟩ := Option.map_eq_some_iff.1 himport
        cases heq
        exact BinaryName.internal_ofDotted
          (hroot.imports d hd (by simpa using (Bool.and_eq_true_iff.1 hkind).1) n hn)
      · cases himport
    · split at h
      · rename_i himplicit
        cases h
        have hname := unqualified_of_mem_implicitTypes name (List.contains_iff_mem.1 himplicit)
        have hhome : IsInternal "java/lang".toList := by decide
        rw [String.toList_append]
        exact hhome.append_cons hname.internal
      · cases h

theorem exists_first_part {c : Char} {rest : List Char}
    (h : name.toList.dropWhile (· != '.') = c :: rest) :
    name.toList = name.toList.takeWhile (· != '.') ++ '.' :: rest := by
  have hhead := List.head?_dropWhile_not (· != '.') name.toList
  rw [h] at hhead
  have hc : c = '.' := by simpa using hhead
  have hwhole := List.takeWhile_append_dropWhile (p := (· != '.')) (l := name.toList)
  rw [h, hc] at hwhole
  exact hwhole.symm

/-- Whatever a dotted name stands for in a file, it is the name of a class. -/
theorem internal_of_resolve? (hroot : WellNamed root) (hname : IsDotted name)
    (h : (ofRoot root).resolve? name = some binary) : IsInternal binary.toList := by
  have hfirst : '.' ∉ name.toList.takeWhile (· != '.') := by
    intro hmem
    simpa using List.mem_takeWhile_imp hmem
  rw [resolve?] at h
  split at h
  · rename_i hwhole
    have hdot : '.' ∉ name.toList := by
      rwa [← List.takeWhile_append_dropWhile (p := (· != '.')) (l := name.toList), hwhole,
        List.append_nil]
    exact internal_of_resolveSimple? hroot hdot h
  · rename_i c rest hsplit
    have hparts : segments name.toList =
        segments (name.toList.takeWhile (· != '.')) ++ segments rest :=
      (congrArg segments (exists_first_part hsplit)).trans (cut_append_cons '.' _ rest)
    have hrest : IsDotted (String.ofList rest) := by
      intro s hs
      rw [String.toList_ofList] at hs
      exact hname s (hparts ▸ List.mem_append_right _ hs)
    split at h
    · rename_i outer houter
      cases h
      apply BinaryName.internal_member _ hrest
      apply internal_of_resolveSimple? hroot _ houter
      rwa [String.toList_ofList]
    · split at h
      · cases h
        exact BinaryName.internal_ofDotted hname
      · cases h

end Resolve

end Scope

end Relocate
