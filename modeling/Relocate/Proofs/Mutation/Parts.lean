import Relocate.Descriptor.Sketch
import Relocate.Mutation.Relocation
import Relocate.Proofs.Descriptor.Lexical

/-!
# What a relocation is made of

A relocation exists when the line goes somewhere, the anchor is inside a method, the method is
inside a type, and name and descriptor can be had; each part is then what that step gives. The
descriptor is computed in one scope for all type parameters around the method. Where none of them is
hidden, it is the lexically scoped one.
-/

set_option autoImplicit false

namespace Relocate.Relocation

open Matching Descriptor

variable {r : Result} {text : String} {report : List Finding} {x : Finding} {u : Relocation}

structure Steps (r : Result) (report : List Finding) (x : Finding) (u : Relocation)
    (anchor method enclosing : Place) : Prop where
  vote : Vote.ofLine? r x.line = some (u.line, anchor)
  methodAround : methodAround? anchor = some method
  typeAround : typeAround? method = some enclosing
  className : className? (scopeAround r.dst.ast (typeChain enclosing)).package
    (typeChain enclosing) = some u.className
  methodName : methodName? method = some u.methodName
  descriptor : descriptor? (scopeAround r.dst.ast (typeChain enclosing)) x report method enclosing
    u.methodName = some u.descriptor
  old : u.old = x

theorem exists_steps (h : ofResult? r text report x = some u) :
    ∃ anchor method enclosing, Steps r report x u anchor method enclosing := by
  simp only [ofResult?, bind, pure, Option.bind_eq_some_iff, Option.some.injEq] at h
  obtain ⟨⟨line, anchor⟩, hvote, method, hmethod, enclosing, henclosing, className, hclass,
    methodName, hname, descriptor, hdescriptor, rfl⟩ := h
  exact ⟨anchor, method, enclosing, hvote, hmethod, henclosing, hclass, hname, hdescriptor, rfl⟩

namespace Steps

variable {anchor method enclosing : Place} (steps : Steps r report x u anchor method enclosing)

include steps

theorem descriptor_of_constructor (hkind : isConstructor method = true) :
    u.descriptor = constructorDescriptor := by
  have h := steps.descriptor
  rw [descriptor?, if_pos hkind] at h
  exact (Option.some.inj h).symm

theorem descriptor_of_ofMethod (hkind : isConstructor method = false) {d : String}
    (hd : ofMethod (scopeAround r.dst.ast (typeChain enclosing)) method.ast = some d) :
    u.descriptor = d := by
  have h := steps.descriptor
  rw [descriptor?, hkind, hd] at h
  exact (Option.some.inj h).symm

end Steps

theorem scopeAround_eq (root : Ast) (chain : List Place) : scopeAround root chain =
    (chain.map Place.ast).foldl Scope.withTypeParameters (Scope.ofRoot root) := by
  rw [scopeAround, List.foldl_map]

theorem ofMethod_scopeAround (root : Ast) (method : Ast) (chain : List Place)
    (h : Unhidden method (chain.map Place.ast)) :
    ofMethod (scopeAround root chain) method =
      describe (lexicalMeaning (Scope.ofRoot root) (method :: chain.map Place.ast)) method := by
  rw [ofMethod_eq_describe, scopeAround_eq]
  exact congrArg (describe · method) (scopeMeaning_flatScope rfl h)

/-- The descriptor of a relocated method is the lexically scoped one, if there is one and no type
parameter around the method is hidden. The finding and the report are asked only where there is
none. -/
theorem ofResult?_descriptor_lexical {anchor method enclosing : Place}
    (hu : ofResult? r text report x = some u)
    (hvote : Vote.ofLine? r x.line = some (u.line, anchor))
    (hmethod : methodAround? anchor = some method)
    (henclosing : typeAround? method = some enclosing)
    (hkind : isConstructor method = false)
    (h : Unhidden method.ast ((typeChain enclosing).map Place.ast)) :
    some u.descriptor = (describe (lexicalMeaning (Scope.ofRoot r.dst.ast)
        (method.ast :: (typeChain enclosing).map Place.ast)) method.ast).or
      ((ownDescriptor? x u.methodName enclosing.ast).or (reportedDescriptor? x report)) := by
  obtain ⟨anchor', method', enclosing', steps⟩ := exists_steps hu
  obtain rfl : anchor = anchor' := by simpa [hvote] using steps.vote
  obtain rfl : method = method' := by simpa [hmethod] using steps.methodAround
  obtain rfl : enclosing = enclosing' := by simpa [henclosing] using steps.typeAround
  have hdescriptor := steps.descriptor
  rw [descriptor?, hkind, ofMethod_scopeAround _ _ _ h] at hdescriptor
  rw [← hdescriptor]
  cases describe (lexicalMeaning (Scope.ofRoot r.dst.ast)
      (method.ast :: (typeChain enclosing).map Place.ast)) method.ast with
  | some d => rfl
  | none => cases ownDescriptor? x u.methodName enclosing.ast <;> rfl

namespace Layered

def method : Ast := Sketch.method "method" "run" 4 [("U", "S")] "U"

def inner : Ast := Sketch.type "class" "Inner" 3 [("S", "T")] [method]

def outer : Ast := Sketch.type "class" "Outer" 2 [("T", "Number")] [inner]

def file : Ast := Sketch.file "demo" [outer]

def enclosing : Place := Sketch.place file [1, 2, 0]

def run : Place := Sketch.place file [1, 2, 0, 2, 0]

def result : Result :=
  let w := Rose.wrap Mix.standard file
  ⟨w, w, (Store.empty w w).link run run⟩

end Layered

/-- The argument's type follows two bounds, each to the next type outwards. -/
theorem ofResult?_descriptor_lexical_layered :
    ∃ u, ofResult? Layered.result "" [] { line := 4 } = some u ∧
      some u.descriptor = (describe (lexicalMeaning (Scope.ofRoot Layered.result.dst.ast)
          (Layered.run.ast :: (typeChain Layered.enclosing).map Place.ast)) Layered.run.ast).or
        ((ownDescriptor? { line := 4 } u.methodName Layered.enclosing.ast).or
          (reportedDescriptor? { line := 4 } [])) := by
  have hu : ofResult? Layered.result "" [] { line := 4 } = some
      ⟨{ line := 4 }, 4, "demo.Outer$Inner", "run", "(Ljava/lang/Number;)V", ""⟩ := by
    decide +kernel
  have hvote : Vote.ofLine? Layered.result 4 = some (4, Layered.run) := rfl
  refine ⟨_, hu, ?_⟩
  apply ofResult?_descriptor_lexical hu hvote
  case hmethod => rfl
  case henclosing => rfl
  case hkind => decide
  case h => decide +kernel

namespace Hiding

def method : Ast := Sketch.method "method" "run" 4 [] "T"

def inner : Ast := Sketch.type "class" "Inner" 3 [("T", "String")] [method]

def outer : Ast := Sketch.type "class" "Outer" 2 [("T", "Number")] [inner]

def file : SourceFile := ⟨Sketch.file "demo" [outer], ""⟩

def generic : Ast := Sketch.method "method" "run" 4 [("T", "String")] "U"

def bounded : Ast := Sketch.type "class" "Outer" 2 [("T", "Number"), ("U", "T")] [generic]

def boundedFile : SourceFile := ⟨Sketch.file "demo" [bounded], ""⟩

end Hiding

/-- A type parameter of an outer type overrides one of an inner type, and a method's own one
replaces what a bound outside the method refers to. -/
theorem descriptor_not_lexical_hiding :
    (ofFinding? {} Hiding.file Hiding.file [] { line := 4 }).map Relocation.descriptor =
        some "(Ljava/lang/Number;)V" ∧
      describe (lexicalMeaning (Scope.ofRoot Hiding.file.root)
        [Hiding.method, Hiding.inner, Hiding.outer]) Hiding.method = some "(Ljava/lang/String;)V" ∧
      (ofFinding? {} Hiding.boundedFile Hiding.boundedFile [] { line := 4 }).map
        Relocation.descriptor = some "(Ljava/lang/String;)V" ∧
      describe (lexicalMeaning (Scope.ofRoot Hiding.boundedFile.root)
        [Hiding.generic, Hiding.bounded]) Hiding.generic = some "(Ljava/lang/Number;)V" := by
  refine ⟨?_, ?_, ?_, ?_⟩ <;> decide +kernel

end Relocate.Relocation
