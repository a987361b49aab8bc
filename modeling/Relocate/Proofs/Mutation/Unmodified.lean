import Relocate.Proofs.Descriptor.Nesting
import Relocate.Proofs.Matching.Identity
import Relocate.Proofs.Mutation.Parts
import Relocate.Proofs.Mutation.Vote

/-!
# Relocation within an unmodified file

When a file is matched with itself, nodes are only mapped to themselves, so a line leads back into
the method that it is in. What a relocation then says about the method differs from its binary names
in two ways: only the innermost nesting of types is marked with a dollar sign, and constructors
count as having no parameters. Annotation types do not count as the type around a method.
-/

set_option autoImplicit false

namespace Relocate

theorem Text.replaceLast_append {a b : Char} (front : List Char) {tail : List Char} (h : a ∉ tail) :
    replaceLast a b (front ++ a :: tail) = front ++ b :: tail := by
  have hpass : ∀ c ∈ tail.reverse, (c != a) = true := by
    intro c hc
    rw [bne_iff_ne]
    rintro rfl
    exact h (List.mem_reverse.1 hc)
  have hreverse : (front ++ a :: tail).reverse = tail.reverse ++ a :: front.reverse := by
    rw [List.reverse_append, List.reverse_cons, List.append_assoc, List.singleton_append]
  rw [replaceLast, hreverse, List.takeWhile_append_of_pos hpass, List.dropWhile_append_of_pos hpass,
    List.takeWhile_cons_of_neg (by simp), List.dropWhile_cons_of_neg (by simp)]
  simp only [List.append_nil, List.reverse_reverse]

theorem filterMap_of_mapM {α β : Type} {f : α → Option β} {l : List α} {ys : List β}
    (h : l.mapM f = some ys) : l.filterMap f = ys := by
  induction l generalizing ys with
  | nil => simpa using h
  | cons x l ih =>
    rw [List.mapM_cons] at h
    simp only [bind, pure, Option.bind_eq_some_iff, Option.some.injEq] at h
    obtain ⟨y, hy, rest, hrest, rfl⟩ := h
    rw [List.filterMap_cons, hy, ih hrest]

namespace Place

theorem filterMap_declaredName? (ps : List Place) : ps.filterMap declaredName? =
    (ps.filter fun q => Kinds.isType q.kind).filterMap fun q => q.ast.name? := by
  rw [List.filterMap_filter]
  rfl

theorem ancestors_of_split {p e : Place} {before after : List Place}
    (h : p.ancestors = before ++ e :: after) : e.ancestors = after := by
  have main : ∀ (ns : List Wrapped) (before : List Place), chain ns = before ++ e :: after →
      e.ancestors = after := by
    intro ns
    induction ns with
    | nil =>
      intro before h
      simp [chain] at h
    | cons n ns ih =>
      intro before h
      rw [chain] at h
      cases before with
      | nil =>
        obtain ⟨rfl, rfl⟩ := List.cons.inj h
        rfl
      | cons first before => exact ih before (List.cons.inj h).2
  exact main p.above before h

end Place

namespace Matching

theorem eq_of_mem_pairs {mix : Mix} {config : Config} {a : Ast} {s d : Place}
    (h : (s, d) ∈ (matchWith mix config a a).pairs) : s ∈ nodes (Rose.wrap mix a) ∧ d = s := by
  have hagrees := agrees_matchWrapped mix config a a
  have hs := hagrees.src.inside (s, d) h
  have hd := hagrees.dst.inside (d, s) (List.mem_map_of_mem h)
  exact ⟨hs, eq_of_id_eq hd hs (diagonal_matchWrapped mix config rfl (s, d) h).symm⟩

end Matching

namespace Relocation

open Matching Descriptor

theorem ast_dst_matchTrees (config : Config) (a b : Ast) : (matchTrees config a b).dst.ast = b :=
  Rose.ast_wrap Mix.standard b

def typesAround (method : Place) : List Place :=
  method.ancestors.filter fun q => Kinds.isType q.kind

def packagePrefix (package : Option String) : String :=
  match package with
  | some p => p ++ "."
  | none => ""

/-- The line of a finding is in one method, and its names are the binary ones of that method. -/
structure Describes (root : Ast) (x : Finding) (method : Place) : Prop where
  inhabited : ∃ p ∈ nodes (Rose.wrap Mix.standard root), p.line = x.line
  methodAround : ∀ p ∈ nodes (Rose.wrap Mix.standard root), p.line = x.line →
    methodAround? p = some method
  className : x.mutatedClass =
    packagePrefix (Scope.packageOf root) ++ "$".intercalate method.typePath
  methodName : methodName? method = some x.mutatedMethod
  descriptor : ofMethod (scopeAround root (typesAround method).reverse) method.ast =
    some x.descriptor

theorem describes_of_id {root : Ast} {x : Finding} {method : Place}
    (hmethod : method ∈ nodes (Rose.wrap Mix.standard root))
    (hline : (∃ p ∈ nodes (Rose.wrap Mix.standard root), p.line = x.line) ∧
      ∀ p ∈ nodes (Rose.wrap Mix.standard root), p.line = x.line →
        (methodAround? p).map Place.id = some method.id)
    (hnames : x.mutatedClass =
        packagePrefix (Scope.packageOf root) ++ "$".intercalate method.typePath ∧
      methodName? method = some x.mutatedMethod ∧
      ofMethod (scopeAround root (typesAround method).reverse) method.ast = some x.descriptor) :
    Describes root x method := by
  obtain ⟨hclass, hname, hdescriptor⟩ := hnames
  refine ⟨hline.1, ?_, hclass, hname, hdescriptor⟩
  intro p hp hpline
  obtain ⟨around, haround, hid⟩ := Option.map_eq_some_iff.1 (hline.2 p hp hpline)
  have hin : around ∈ nodes (Rose.wrap Mix.standard root) := by
    rcases List.mem_cons.1 (List.mem_of_find?_eq_some haround) with rfl | habove
    · exact hp
    · exact (mem_nodes_of_mem_ancestors hp habove).1
  rw [haround, eq_of_id_eq hin hmethod hid]

/-- Package and types with points in between, only the innermost nesting with a dollar sign. -/
def markedName (package : Option String) (outer : List String) (name : String) : String :=
  packagePrefix package ++
    if outer.isEmpty then name else ".".intercalate outer ++ "$" ++ name

theorem intercalate_package (package : Option String) {names : List String} (h : names ≠ []) :
    ".".intercalate (package.toList ++ names) = packagePrefix package ++ ".".intercalate names := by
  cases package with
  | none => rw [Option.toList_none, List.nil_append, packagePrefix, String.empty_append]
  | some p =>
    rw [Option.toList_some, String.intercalate_append_of_ne_nil (List.cons_ne_nil _ _) h,
      String.intercalate_singleton]
    rfl

theorem className?_eq_markedName {package : Option String} {enclosing : Place} {className : String}
    (h : className? package (typeChain enclosing) = some className) {outer : List String}
    {name : String} (hpath : enclosing.typePath = outer ++ [name])
    (hdots : outer ≠ [] → '.' ∉ name.toList) : className = markedName package outer name := by
  obtain ⟨names, hnames, rfl⟩ := Option.map_eq_some_iff.1 h
  have hnames : names = outer ++ [name] := by
    rw [← filterMap_of_mapM hnames, ← hpath, Place.typePath, Place.filterMap_declaredName?,
      List.filterMap_reverse, typeChain]
  have hne : outer ++ [name] ≠ [] := List.append_ne_nil_of_right_ne_nil _ (List.cons_ne_nil _ _)
  rw [hnames, intercalate_package package hne]
  cases outer with
  | nil => simp [markedName]
  | cons first rest =>
    have houter : first :: rest ≠ [] := List.cons_ne_nil _ _
    -- the last point of the whole name is the one in front of the innermost type
    have hlength : 1 < (first :: rest ++ [name]).length := by simp
    have hlist : (packagePrefix package ++ ".".intercalate (first :: rest ++ [name])).toList =
        (packagePrefix package ++ ".".intercalate (first :: rest)).toList ++
          '.' :: name.toList := by
      rw [String.intercalate_append_of_ne_nil houter (List.cons_ne_nil _ _),
        String.intercalate_singleton]
      simp
    rw [if_pos hlength, hlist, Text.replaceLast_append _ (hdots houter), markedName,
      List.isEmpty_cons, if_neg Bool.false_ne_true, ← String.toList_inj]
    simp

/-- With at most one type around the innermost one, the class has its binary name. -/
theorem markedName_eq {package : Option String} {outer : List String} {name : String}
    (h : outer.length ≤ 1) :
    markedName package outer name = packagePrefix package ++ "$".intercalate (outer ++ [name]) := by
  match outer, h with
  | [], _ => simp [markedName]
  | [first], _ => simp [markedName, String.append_assoc]

/-- Between a method and the type that counts as its own there are only annotation types. -/
theorem exists_skipped {method enclosing : Place} (h : typeAround? method = some enclosing) :
    ∃ skipped, typesAround method = skipped ++ typeChain enclosing ∧
      ∀ t ∈ skipped, Kinds.isEnclosing t.kind = false := by
  obtain ⟨-, before, after, hsplit, hbefore⟩ := List.find?_eq_some_iff_append.1 h
  refine ⟨before.filter fun q => Kinds.isType q.kind, ?_, ?_⟩
  · rw [typesAround, hsplit, List.filter_append, typeChain, Place.upward,
      Place.ancestors_of_split hsplit]
  · intro t ht
    simpa using hbefore t (List.mem_filter.1 ht).1

theorem typesAround_eq {method enclosing : Place} (h : typeAround? method = some enclosing)
    (hnearest : (typesAround method).head? = some enclosing) :
    typesAround method = typeChain enclosing := by
  obtain ⟨skipped, hsplit, hkinds⟩ := exists_skipped h
  cases skipped with
  | nil => exact hsplit
  | cons t skipped =>
    rw [hsplit, List.cons_append, List.head?_cons, Option.some.injEq] at hnearest
    have hkind := List.find?_some h
    rw [← hnearest, hkinds t List.mem_cons_self] at hkind
    cases hkind

theorem typePath_method {method enclosing : Place} (hmethod : Kinds.isMethod method.kind = true)
    (h : typesAround method = typeChain enclosing) : method.typePath = enclosing.typePath := by
  have hkind : method.declaredName? = none := by
    rw [Kinds.isMethod, Kinds.methods, List.contains_iff_mem] at hmethod
    simp only [List.mem_cons, List.not_mem_nil, or_false] at hmethod
    rw [Place.declaredName?]
    rcases hmethod with hmethod | hmethod <;> rw [hmethod] <;> rfl
  rw [Place.typePath, Place.upward, List.filterMap_cons, hkind, Place.typePath]
  simp only [Place.filterMap_declaredName?]
  rw [← typesAround, ← typeChain, h]

/-- No two types around a method share the name of a type parameter. -/
def Apart (method : Place) : Prop :=
  ((typesAround method).map Place.ast).Pairwise fun inner outer =>
    ∀ name ∈ Scope.parameterNames inner, name ∉ Scope.parameterNames outer

instance (method : Place) : Decidable (Apart method) :=
  inferInstanceAs (Decidable (List.Pairwise _ _))

/-- No annotation type around a method has type parameters. -/
def Plain (method : Place) : Prop :=
  ∀ t ∈ typesAround method, Kinds.isEnclosing t.kind = false → Scope.typeParameters t.ast = []

/-- The order in which types add their type parameters does not matter if these have different
names, and types without type parameters do not matter at all. -/
theorem ofMethod_scopeAround_reverse {root : Ast} {method : Place} {skipped chain : List Place}
    (hsplit : typesAround method = skipped ++ chain) (h : Apart method)
    (hskipped : ∀ t ∈ skipped, Scope.typeParameters t.ast = []) :
    ofMethod (scopeAround root (typesAround method).reverse) method.ast =
      ofMethod (scopeAround root chain) method.ast := by
  rw [Apart, hsplit, List.map_append, List.pairwise_append] at h
  have hnone : (skipped.map Place.ast).flatMap Scope.typeParameters = [] := by
    rw [List.flatMap_map, List.flatMap_eq_nil_iff]
    exact hskipped
  rw [hsplit, scopeAround_eq, scopeAround_eq, List.map_reverse, List.map_append,
    Scope.foldl_withTypeParameters, Scope.foldl_withTypeParameters, List.reverse_reverse,
    List.flatMap_append, hnone, List.nil_append]
  apply ofMethod_congr
  · intro name
    rfl
  · intro name
    rw [Scope.withTypeParameters_eq, Scope.withTypeParameters_eq]
    simp only [List.lookup_append, Scope.lookup_flatMap_reverse h.2.1]

variable {config : Config} {root : Ast} {oldText newText : String} {report : List Finding}
  {x : Finding} {u : Relocation} {method enclosing : Place}

/-- What a relocation within one file says about the method of a finding; `enclosing` is the nearest
type around it that is no annotation type. -/
structure Kept (root : Ast) (x : Finding) (method enclosing : Place) (u : Relocation) : Prop where
  methodName : u.methodName = x.mutatedMethod
  className : ∀ outer name, enclosing.typePath = outer ++ [name] →
    (outer ≠ [] → '.' ∉ name.toList) →
    u.className = markedName (Scope.packageOf root) outer name
  constructor : isConstructor method = true → u.descriptor = constructorDescriptor
  descriptor : isConstructor method = false → Apart method → Plain method →
    u.descriptor = x.descriptor
  sameMethod : ∀ outer name, (typesAround method).head? = some enclosing → Apart method →
    enclosing.typePath = outer ++ [name] → outer.length ≤ 1 → (outer ≠ [] → '.' ∉ name.toList) →
    (isConstructor method = true → x.descriptor = constructorDescriptor) → u.sameMethod = true

/-- The steps of a relocation within one file lead to the method that the finding's line is in. -/
theorem exists_steps_unmodified
    (hu : ofResult? (matchTrees config root root) newText report x = some u)
    (h : Describes root x method) :
    ∃ anchor enclosing, Steps (matchTrees config root root) report x u anchor method enclosing := by
  obtain ⟨anchor, around, enclosing, steps⟩ := exists_steps hu
  -- the anchor is itself on the old line, since the node behind its vote is mapped to itself
  obtain ⟨-, s, hpair, hline⟩ := Vote.of_ofLine? steps.vote
  obtain ⟨hs, rfl⟩ := eq_of_mem_pairs hpair
  have hmethod := h.methodAround anchor hs hline
  rw [steps.methodAround, Option.some.injEq] at hmethod
  exact ⟨anchor, enclosing, hmethod ▸ steps⟩

section Unmodified

variable {anchor : Place}
  (steps : Steps (matchTrees config root root) report x u anchor method enclosing)

include steps

theorem className_unmodified {outer : List String} {name : String}
    (hpath : enclosing.typePath = outer ++ [name]) (hdots : outer ≠ [] → '.' ∉ name.toList) :
    u.className = markedName (Scope.packageOf root) outer name := by
  have hclass := steps.className
  rw [ast_dst_matchTrees, scopeAround_eq, Scope.foldl_withTypeParameters] at hclass
  exact className?_eq_markedName hclass hpath hdots

variable (h : Describes root x method)

include h

theorem binaryName_unmodified (hnearest : typesAround method = typeChain enclosing)
    {outer : List String} {name : String} (hpath : enclosing.typePath = outer ++ [name])
    (hnested : outer.length ≤ 1) (hdots : outer ≠ [] → '.' ∉ name.toList) :
    u.className = x.mutatedClass := by
  have hkind := List.find?_some steps.methodAround
  rw [className_unmodified steps hpath hdots, markedName_eq hnested, h.className,
    typePath_method hkind hnearest, hpath]

theorem descriptor_unmodified (hkind : isConstructor method = false) (hapart : Apart method)
    {skipped : List Place} (hsplit : typesAround method = skipped ++ typeChain enclosing)
    (hskipped : ∀ t ∈ skipped, Scope.typeParameters t.ast = []) : u.descriptor = x.descriptor := by
  have hown := h.descriptor
  rw [ofMethod_scopeAround_reverse hsplit hapart hskipped] at hown
  apply steps.descriptor_of_ofMethod hkind
  rwa [ast_dst_matchTrees]

end Unmodified

/-- Relocation within an unmodified file keeps the method name, it keeps the descriptor of a method,
and with at most two types around each other it keeps the class. -/
theorem ofFinding?_unmodified
    (hu : ofFinding? config ⟨root, oldText⟩ ⟨root, newText⟩ report x = some u)
    (h : Describes root x method) :
    ∃ enclosing, typeAround? method = some enclosing ∧ Kept root x method enclosing u := by
  obtain ⟨anchor, enclosing, steps⟩ := exists_steps_unmodified hu h
  have hname : u.methodName = x.mutatedMethod :=
    Option.some.inj (steps.methodName.symm.trans h.methodName)
  -- the class needs no conditions on type parameters, the descriptor none on names
  refine ⟨enclosing, steps.typeAround, hname, ?className, steps.descriptor_of_constructor,
    ?descriptor, ?sameMethod⟩
  case className =>
    intro outer name hpath hdots
    exact className_unmodified steps hpath hdots
  case descriptor =>
    intro hkind hapart hplain
    obtain ⟨skipped, hsplit, hkinds⟩ := exists_skipped steps.typeAround
    apply descriptor_unmodified steps h hkind hapart hsplit
    intro t ht
    exact hplain t (hsplit ▸ List.mem_append_left _ ht) (hkinds t ht)
  case sameMethod =>
    intro outer name hnearest hapart hpath hnested hdots hempty
    have hsplit := typesAround_eq steps.typeAround hnearest
    have hdescriptor : u.descriptor = x.descriptor := by
      cases hkind : isConstructor method with
      | true => rw [steps.descriptor_of_constructor hkind, hempty hkind]
      | false =>
        exact descriptor_unmodified steps h hkind hapart (hsplit.trans (List.nil_append _).symm)
          (List.forall_mem_nil _)
    rw [sameMethod, steps.old, binaryName_unmodified steps h hsplit hpath hnested hdots, hname,
      hdescriptor]
    simp only [beq_self_eq_true, Bool.and_self]

namespace Nested

def inner : Ast := Sketch.type "class" "Inner" 3 [("T", "Number")]
  [Sketch.method "method" "run" 4 [] "T"]

def file : Ast := Sketch.file "demo" [Sketch.type "class" "Outer" 2 [] [inner]]

def run : Place := Sketch.place file [1, 1, 0, 2, 0]

def finding : Finding :=
  { mutatedClass := "demo.Outer$Inner", mutatedMethod := "run",
    descriptor := "(Ljava/lang/Number;)V", line := 4 }

theorem describes_run : Describes file finding run :=
  describes_of_id (Sketch.place_mem_nodes rfl) (by decide +kernel) (by decide +kernel)

end Nested

/-- A method of a member class stays what it is. -/
theorem ofFinding?_unmodified_nested :
    ∃ u, ofFinding? {} ⟨Nested.file, ""⟩ ⟨Nested.file, ""⟩ [] Nested.finding = some u ∧
      Describes Nested.file Nested.finding Nested.run ∧ u.sameMethod = true := by
  have hu : ofFinding? {} ⟨Nested.file, ""⟩ ⟨Nested.file, ""⟩ [] Nested.finding = some
      ⟨Nested.finding, 4, "demo.Outer$Inner", "run", "(Ljava/lang/Number;)V", ""⟩ := by
    decide +kernel
  obtain ⟨enclosing, henclosing, hkept⟩ := ofFinding?_unmodified hu Nested.describes_run
  obtain rfl : Sketch.place Nested.file [1, 1, 0] = enclosing := Option.some.inj henclosing
  refine ⟨_, hu, Nested.describes_run, ?_⟩
  exact hkept.sameMethod ["Outer"] "Inner" rfl (by decide +kernel) (by decide +kernel) (by decide)
    (by decide) (by decide +kernel)

namespace Renamed

def constructor : Ast :=
  Sketch.file "demo"
    [Sketch.type "class" "Box" 2 [] [Sketch.method "constructor" "Box" 4 [] "String"]]

def constructing : Finding :=
  { mutatedClass := "demo.Box", mutatedMethod := "<init>", descriptor := "(Ljava/lang/String;)V"
    line := 4 }

def deep : Ast := Sketch.file "demo" [Sketch.type "class" "A" 2 [] [Sketch.type "class" "B" 2 []
  [Sketch.type "class" "C" 3 [] [Sketch.method "method" "run" 4 [] "String"]]]]

def deepest : Finding :=
  { mutatedClass := "demo.A$B$C", mutatedMethod := "run", descriptor := "(Ljava/lang/String;)V"
    line := 4 }

def annotated : Ast := Sketch.file "demo" [Sketch.type "class" "A" 2 []
  [Sketch.type "annotation_type" "B" 3 [] [.node ⟨⟨"object_creation_expression", none⟩, none, 3⟩
    [Sketch.method "method" "run" 4 [] "String"]]]]

def annotating : Finding :=
  { mutatedClass := "demo.A$B", mutatedMethod := "run", descriptor := "(Ljava/lang/String;)V"
    line := 4 }

def pointed : Ast := Sketch.file "demo" [Sketch.type "class" "A" 2 []
  [Sketch.type "class" "B.C" 3 [] [Sketch.method "method" "run" 4 [] "String"]]]

def pointing : Finding :=
  { mutatedClass := "demo.A$B.C", mutatedMethod := "run", descriptor := "(Ljava/lang/String;)V"
    line := 4 }

end Renamed

/-- Constructors lose their parameters, nesting beyond the innermost is not marked, and annotation
types are left out. -/
theorem not_sameMethod_unmodified_renamed :
    (Describes Renamed.constructor Renamed.constructing
      (Sketch.place Renamed.constructor [1, 1, 0]) ∧
      (ofFinding? {} ⟨Renamed.constructor, ""⟩ ⟨Renamed.constructor, ""⟩ []
        Renamed.constructing).map sameMethod = some false) ∧
    (Describes Renamed.deep Renamed.deepest (Sketch.place Renamed.deep [1, 1, 0, 1, 0, 1, 0]) ∧
      (ofFinding? {} ⟨Renamed.deep, ""⟩ ⟨Renamed.deep, ""⟩ [] Renamed.deepest).map sameMethod =
        some false) ∧
    (Describes Renamed.annotated Renamed.annotating
        (Sketch.place Renamed.annotated [1, 1, 0, 1, 0, 0]) ∧
      (ofFinding? {} ⟨Renamed.annotated, ""⟩ ⟨Renamed.annotated, ""⟩ []
        Renamed.annotating).map sameMethod = some false) ∧
    (Describes Renamed.pointed Renamed.pointing (Sketch.place Renamed.pointed [1, 1, 0, 1, 0]) ∧
      (ofFinding? {} ⟨Renamed.pointed, ""⟩ ⟨Renamed.pointed, ""⟩ [] Renamed.pointing).map
        sameMethod = some false) := by
  refine ⟨⟨?_, by decide +kernel⟩, ⟨?_, by decide +kernel⟩, ⟨?_, by decide +kernel⟩,
    ⟨?_, by decide +kernel⟩⟩
  all_goals
    apply describes_of_id
    case hmethod => exact Sketch.place_mem_nodes rfl
    case hline => decide +kernel
    case hnames => decide +kernel

end Relocation

end Relocate
