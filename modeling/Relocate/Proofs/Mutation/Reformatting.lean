import Relocate.Mutation.Relocation
import Relocate.Proofs.Descriptor.Lines
import Relocate.Proofs.Matching.Identity
import Relocate.Proofs.Mutation.Parts
import Relocate.Proofs.Mutation.Vote
import Relocate.Proofs.Results

/-!
# Relocation under reformatting

When only lines change, every node that is mapped is mapped to itself on its new line. So all votes
of a line are for the same new line, and the anchor, the method and the type around it are those of
the old revision, on other lines.
-/

set_option autoImplicit false

namespace Relocate

namespace Relabelling

def relining (f : Nat → Nat) : Relabelling := ⟨id, Tag.relined f⟩

theorem carries_relining (f : Nat → Nat) (mix : Mix) : (relining f).Carries mix mix := by
  intro t below
  exact congrArg (mix t.toContent) (List.map_id below)

theorem wrap_relined (f : Nat → Nat) (mix : Mix) (t : Ast) :
    Rose.wrap mix (t.relined f) = (Rose.wrap mix t).map (relining f).label :=
  (Rose.map_wrap (carries_relining f mix) t).symm

end Relabelling

namespace Place

variable (f : Nat → Nat) (p : Place)

theorem kind_relining : (p.relabel (.relining f)).kind = p.kind := by
  rw [kind, tag_relabel]
  rfl

theorem line_relining : (p.relabel (.relining f)).line = f p.line := by
  rw [line, tag_relabel]
  rfl

theorem ast_relining : (p.relabel (.relining f)).ast = p.ast.relined f := by
  rw [ast, ast, relabel, Rose.ast, Rose.ast, Rose.relined, Rose.map_map, Rose.map_map]
  rfl

end Place

namespace Matching

variable {mix : Mix} {config : Config} {a : Ast} {f : Nat → Nat} {s d : Place}

/-- A node is only ever mapped to itself on its new line. -/
theorem eq_relining_of_mem_pairs (h : (s, d) ∈ (matchWith mix config a (a.relined f)).pairs) :
    s ∈ nodes (Rose.wrap mix a) ∧ d = s.relabel (.relining f) := by
  have hagrees := agrees_matchWrapped mix config a (a.relined f)
  have hs := hagrees.src.inside (s, d) h
  have hd := hagrees.dst.inside (d, s) (List.mem_map_of_mem h)
  have hid : s.id = d.id :=
    diagonal_matchWrapped mix config (Rose.outline_relined f a).symm (s, d) h
  refine ⟨hs, eq_of_id_eq hd ?_ (hid.symm.trans (Place.id_relabel _ s).symm)⟩
  rw [Relabelling.wrap_relined, Place.nodes_map]
  exact List.mem_map_of_mem hs

end Matching

namespace Relocation

open Matching

section Around

variable (f : Nat → Nat) (p : Place)

theorem isConstructor_relining : isConstructor (p.relabel (.relining f)) = isConstructor p := by
  rw [isConstructor, isConstructor, Place.kind_relining]

theorem methodAround?_relining : methodAround? (p.relabel (.relining f)) =
    (methodAround? p).map (Place.relabel (.relining f)) := by
  simp only [methodAround?, Place.upward_relabel, List.find?_map, Function.comp_def,
    Place.kind_relining]

theorem typeAround?_relining : typeAround? (p.relabel (.relining f)) =
    (typeAround? p).map (Place.relabel (.relining f)) := by
  simp only [typeAround?, Place.ancestors_relabel, List.find?_map, Function.comp_def,
    Place.kind_relining]

theorem typeChain_relining : typeChain (p.relabel (.relining f)) =
    (typeChain p).map (Place.relabel (.relining f)) := by
  simp only [typeChain, Place.upward_relabel, List.filter_map, Function.comp_def,
    Place.kind_relining]

theorem methodName?_relining : methodName? (p.relabel (.relining f)) = methodName? p := by
  rw [methodName?, methodName?, isConstructor_relining, Place.ast_relining, Rose.name?_relined]

theorem foldl_withTypeParameters_relining (scope : Scope) (chain : List Place) :
    (chain.map (Place.relabel (.relining f))).foldl (fun scope t => scope.withTypeParameters t.ast)
        (scope.relined f) =
      (chain.foldl (fun scope t => scope.withTypeParameters t.ast) scope).relined f := by
  induction chain generalizing scope with
  | nil => rfl
  | cons t chain ih =>
    rw [List.map_cons, List.foldl_cons, Place.ast_relining, Scope.withTypeParameters_relined, ih,
      List.foldl_cons]

theorem scopeAround_relining (root : Ast) (chain : List Place) :
    scopeAround (root.relined f) (chain.map (Place.relabel (.relining f))) =
      (scopeAround root chain).relined f := by
  rw [scopeAround, Scope.ofRoot_relined, foldl_withTypeParameters_relining, scopeAround]

end Around

theorem isSome_className? {package : Option String} {chain : List Place}
    (h : ∀ t ∈ chain, t.ast.name?.isSome) : (className? package chain).isSome := by
  rw [className?, Option.isSome_map]
  exact isSome_mapM fun t ht => h t (List.mem_reverse.1 ht)

theorem isSome_descriptor? {scope : Scope} {x : Finding} {report : List Finding}
    {method enclosing : Place} {name : String}
    (h : (Descriptor.ofMethod scope method.ast).isSome ∨ isConstructor method = true) :
    (descriptor? scope x report method enclosing name).isSome := by
  rw [descriptor?]
  split
  · rfl
  · obtain ⟨d, hd⟩ := Option.isSome_iff_exists.1 (h.resolve_right ‹_›)
    rw [hd]
    rfl

/-- All of a line is in one method, and all that a relocation takes from there can be had. -/
structure InMethod (root : Ast) (line : Nat) (method enclosing : Place) (name : String) : Prop where
  inhabited : ∃ p ∈ nodes (Rose.wrap Mix.standard root), p.line = line
  methodAround : ∀ p ∈ nodes (Rose.wrap Mix.standard root), p.line = line →
    methodAround? p = some method
  typeAround : typeAround? method = some enclosing
  named : method.ast.name? = some name
  chainNamed : ∀ t ∈ typeChain enclosing, t.ast.name?.isSome
  descriptor : (Descriptor.ofMethod (scopeAround root (typeChain enclosing)) method.ast).isSome ∨
    isConstructor method = true

variable {config : Config} {a : Ast} {oldText newText : String} {f : Nat → Nat}
  {report : List Finding} {x : Finding} {u : Relocation}

theorem of_ofLine?_relined {line target : Nat} {anchor : Place}
    (h : Vote.ofLine? (matchTrees config a (a.relined f)) line = some (target, anchor)) :
    target = f line ∧ ∃ s ∈ nodes (Rose.wrap Mix.standard a), s.line = line ∧
      anchor = s.relabel (.relining f) := by
  obtain ⟨htarget, s, hpair, hline⟩ := Vote.of_ofLine? h
  obtain ⟨hs, hanchor⟩ := eq_relining_of_mem_pairs hpair
  refine ⟨?_, s, hs, hline, hanchor⟩
  rw [← htarget, hanchor, Place.line_relining, hline]

theorem line_of_ofResult? {r : Result} {text : String} (h : ofResult? r text report x = some u) :
    ∃ anchor, Vote.ofLine? r x.line = some (u.line, anchor) := by
  obtain ⟨anchor, _, _, steps⟩ := exists_steps h
  exact ⟨anchor, steps.vote⟩

theorem exists_vote (hcomplete : (matchTrees config a (a.relined f)).isComplete = true)
    {line : Nat} {s : Place} (hs : s ∈ nodes (Rose.wrap Mix.standard a)) (hline : s.line = line) :
    ∃ target anchor,
      Vote.ofLine? (matchTrees config a (a.relined f)) line = some (target, anchor) := by
  have hagrees := agrees_matchWrapped Mix.standard config a (a.relined f)
  obtain ⟨d, hd⟩ := (hagrees.isMappedSrc_iff hs).1 ((hagrees.isComplete_iff.1 hcomplete).1 s hs)
  exact Vote.exists_ofLine? hd hline

theorem InMethod.methodName? {root : Ast} {line : Nat} {method enclosing : Place} {name : String}
    (h : InMethod root line method enclosing name) :
    methodName? method = some (if isConstructor method then constructorName else name) := by
  rw [Relocation.methodName?, h.named]
  split <;> rfl

/-- All parts of a relocation can be had if the method and the types around it are named, and the
descriptor of the method follows from its declaration. -/
theorem exists_ofResult? {r : Result} {target : Nat} {anchor method enclosing : Place}
    {name : String} (text : String) (hvote : Vote.ofLine? r x.line = some (target, anchor))
    (hmethod : methodAround? anchor = some method)
    (henclosing : typeAround? method = some enclosing)
    (hchain : ∀ t ∈ typeChain enclosing, t.ast.name?.isSome)
    (hname : methodName? method = some name)
    (hknown :
      (Descriptor.ofMethod (scopeAround r.dst.ast (typeChain enclosing)) method.ast).isSome ∨
      isConstructor method = true) :
    ∃ u, ofResult? r text report x = some u ∧ u.methodName = name := by
  have hclass : (className? (scopeAround r.dst.ast (typeChain enclosing)).package
      (typeChain enclosing)).isSome := isSome_className? hchain
  have hdescriptor : (descriptor? (scopeAround r.dst.ast (typeChain enclosing)) x report method
      enclosing name).isSome := isSome_descriptor? hknown
  obtain ⟨className, hclass⟩ := Option.isSome_iff_exists.1 hclass
  obtain ⟨descriptor, hdescriptor⟩ := Option.isSome_iff_exists.1 hdescriptor
  refine ⟨⟨x, target, className, name, descriptor, (Text.lineText? text target).getD ""⟩, ?_, rfl⟩
  simp only [ofResult?, hvote, hmethod, henclosing, hclass, hname, hdescriptor, bind, pure,
    Option.bind_some]

theorem exists_ofResult?_relined {method enclosing : Place} {name : String} (text : String)
    (hcomplete : (matchTrees config a (a.relined f)).isComplete = true)
    (h : InMethod a x.line method enclosing name) :
    ∃ u, ofResult? (matchTrees config a (a.relined f)) text report x = some u ∧
      u.methodName = if isConstructor method then constructorName else name := by
  obtain ⟨p, hp, hline⟩ := h.inhabited
  obtain ⟨target, anchor, hvote⟩ := exists_vote hcomplete hp hline
  obtain ⟨-, s, hs, hsline, rfl⟩ := of_ofLine?_relined hvote
  have hscope : scopeAround (matchTrees config a (a.relined f)).dst.ast
      (typeChain (enclosing.relabel (.relining f))) =
        (scopeAround a (typeChain enclosing)).relined f := by
    rw [typeChain_relining, ← scopeAround_relining]
    exact congrArg (scopeAround · _) (Rose.ast_wrap Mix.standard (a.relined f))
  have hmethod : methodAround? (s.relabel (.relining f)) = some (method.relabel (.relining f)) := by
    rw [methodAround?_relining, h.methodAround s hs hsline, Option.map_some]
  have henclosing : typeAround? (method.relabel (.relining f)) =
      some (enclosing.relabel (.relining f)) := by
    rw [typeAround?_relining, h.typeAround, Option.map_some]
  apply exists_ofResult? text hvote hmethod henclosing
  case hchain =>
    intro t ht
    rw [typeChain_relining] at ht
    obtain ⟨old, hold, rfl⟩ := List.mem_map.1 ht
    rw [Place.ast_relining, Rose.name?_relined]
    exact h.chainNamed old hold
  case hname => rw [methodName?_relining, h.methodName?]
  case hknown =>
    rw [hscope, Place.ast_relining, Descriptor.ofMethod_relined, isConstructor_relining]
    exact h.descriptor

/-- When only lines change, a finding goes to the new line of its own. If everything is mapped and
its line is in one method, it is relocated and stays in that method. -/
theorem ofFinding?_relined (config : Config) (a : Ast) (oldText newText : String) (f : Nat → Nat)
    (report : List Finding) (x : Finding) :
    (∀ u, ofFinding? config ⟨a, oldText⟩ ⟨a.relined f, newText⟩ report x = some u →
      u.line = f x.line) ∧
    (∀ (method enclosing : Place) (name : String),
      (matchTrees config a (a.relined f)).isComplete = true →
      InMethod a x.line method enclosing name →
      ∃ u, ofFinding? config ⟨a, oldText⟩ ⟨a.relined f, newText⟩ report x = some u ∧
        u.methodName = if isConstructor method then constructorName else name) := by
  constructor
  · intro u hu
    obtain ⟨anchor, hvote⟩ := line_of_ofResult? hu
    exact (of_ofLine?_relined hvote).1
  · intro method enclosing name hcomplete hmethod
    exact exists_ofResult?_relined newText hcomplete hmethod

namespace Reversed

def method : Ast :=
  .node ⟨⟨"method_declaration", none⟩, none, 2⟩
    [.node ⟨⟨"void_type", some "void"⟩, some "type", 2⟩ [],
      .node ⟨⟨"identifier", some "run"⟩, some "name", 2⟩ []]

def job : Ast :=
  .node ⟨⟨"class_declaration", none⟩, none, 1⟩
    [.node ⟨⟨"identifier", some "Job"⟩, some "name", 1⟩ [], method]

def enclosing : Place := Place.root (Rose.wrap Mix.standard job)

def run : Place := ⟨Rose.wrapFrom Mix.standard 2 method, [Rose.wrap Mix.standard job]⟩

theorem inMethod_run : InMethod job 2 run enclosing "run" where
  inhabited := ⟨run, mem_nodes_of_mem_children (root_mem_nodes _)
    (List.mem_cons_of_mem _ List.mem_cons_self), rfl⟩
  methodAround := by
    intro p hp hline
    simp only [nodes, Place.preOrder_eq, Place.children, Place.root, job, method, Rose.wrap,
      Rose.wrapFrom, Rose.wrapAllFrom, Rose.children, List.map_cons, List.map_nil,
      List.flatMap_cons, List.flatMap_nil, List.append_nil, List.cons_append, List.nil_append,
      List.mem_cons, List.not_mem_nil, or_false] at hp
    rcases hp with rfl | rfl | rfl | rfl | rfl
    · cases hline
    · cases hline
    · rfl
    · rfl
    · rfl
  typeAround := rfl
  named := rfl
  chainNamed := by decide
  descriptor := Or.inl (by decide +kernel)

end Reversed

/-- Turning a class upside down takes line 2 to line 8, and what was in its only method stays. -/
theorem ofFinding?_relined_reversed :
    (matchTrees {} Reversed.job (Reversed.job.relined (10 - ·))).isComplete = true ∧
      InMethod Reversed.job 2 Reversed.run Reversed.enclosing "run" ∧
      ∃ u, ofFinding? {} ⟨Reversed.job, ""⟩ ⟨Reversed.job.relined (10 - ·), ""⟩ [] { line := 2 } =
        some u ∧ u.line = 8 ∧ u.methodName = "run" := by
  have hcomplete :
      (matchTrees {} Reversed.job (Reversed.job.relined (10 - ·))).isComplete = true := by
    decide +kernel
  obtain ⟨hline, hmethod⟩ := ofFinding?_relined {} Reversed.job "" "" (10 - ·) [] { line := 2 }
  obtain ⟨u, hu, hname⟩ := hmethod _ _ _ hcomplete Reversed.inMethod_run
  exact ⟨hcomplete, Reversed.inMethod_run, u, hu, hline u hu, hname⟩

end Relocation

end Relocate
