import Mathlib.Data.List.Forall2
import Mathlib.Data.List.TakeWhile
import Relocate.Descriptor.Sketch
import Relocate.Proofs.Descriptor.Lexical

/-!
# Declared types and where their names reach

The binary name of a type in a file is made of the package and the names of the declarations around
it. A scope keeps one binary name for each simple name, that of the first declaration of the name in
the file, wherever it stands. So a name in a method's signature means the member of the innermost
type around the method, or else the top-level type, as long as that one comes first.
-/

set_option autoImplicit false

namespace Relocate

def Kinds.bodies : List String :=
  ["class_body", "interface_body", "enum_body", "enum_body_declarations", "annotation_type_body"]

namespace Place

def declaredName? (p : Place) : Option String :=
  if Kinds.isType p.kind then p.ast.name? else none

def typePath (p : Place) : List String := (p.upward.filterMap declaredName?).reverse

def isBody (p : Place) : Bool := Kinds.bodies.contains p.kind

/-- The bodies of a type; those of an enumeration may have one more inside. -/
def bodies (p : Place) : List Place :=
  let outer := p.children.filter isBody
  outer ++ outer.flatMap fun body => body.children.filter isBody

def member? (p : Place) (name : String) : Option Place :=
  (p.bodies.flatMap children).find? fun q => q.declaredName? == some name

/-- The innermost type around a place that has a member type of this name, and the member. -/
def enclosingMember? (p : Place) (name : String) : Option (Place × Place) :=
  p.ancestors.findSome? fun e =>
    if e.declaredName?.isSome then (e.member? name).map fun q => (e, q) else none

def DeclaredFirst (T : Wrapped) (p : Place) : Prop :=
  ∀ q ∈ nodes T, q.declaredName? = p.declaredName? → p.id ≤ q.id

instance (T : Wrapped) (p : Place) : Decidable (p.DeclaredFirst T) :=
  inferInstanceAs (Decidable (∀ q ∈ nodes T, q.declaredName? = p.declaredName? → p.id ≤ q.id))

theorem typePath_of_mem_children {p c : Place} (h : c ∈ p.children) :
    c.typePath = p.typePath ++ c.declaredName?.toList := by
  rw [typePath, upward, ancestors_of_mem_children h, typePath, upward, List.filterMap_cons]
  cases c.declaredName? with
  | none => rw [Option.toList_none, List.append_nil]
  | some name => rw [List.reverse_cons, Option.toList_some]

theorem declaredName?_of_isBody {p : Place} (h : p.isBody = true) : p.declaredName? = none := by
  have hkind : Kinds.isType p.kind = false := by
    rw [isBody, Kinds.bodies, List.contains_iff_mem] at h
    simp only [List.mem_cons, List.not_mem_nil, or_false] at h
    rcases h with h | h | h | h | h <;> rw [h] <;> rfl
  rw [declaredName?, hkind]
  rfl

theorem typePath_of_mem_bodies {p b : Place} (h : b ∈ p.bodies) :
    b.typePath = p.typePath ∧ b ∈ p.preOrder := by
  have hchild : ∀ {q c : Place}, c ∈ q.children.filter isBody →
      c.typePath = q.typePath ∧ c ∈ q.preOrder := by
    intro q c hc
    obtain ⟨hmem, hbody⟩ := List.mem_filter.1 hc
    refine ⟨?_, mem_preOrder_of_mem_children hmem (mem_preOrder_self c)⟩
    rw [typePath_of_mem_children hmem, declaredName?_of_isBody hbody, Option.toList_none,
      List.append_nil]
  rcases List.mem_append.1 h with h | h
  · exact hchild h
  · obtain ⟨outer, houter, hb⟩ := List.mem_flatMap.1 h
    exact ⟨(hchild hb).1.trans (hchild houter).1,
      mem_preOrder_trans (hchild houter).2 (hchild hb).2⟩

theorem of_member? {p q : Place} {name : String} (h : p.member? name = some q) :
    q.declaredName? = some name ∧ q.typePath = p.typePath ++ [name] ∧ q ∈ p.preOrder := by
  have hname : q.declaredName? = some name := by
    simpa using List.find?_some h
  obtain ⟨body, hbody, hq⟩ := List.mem_flatMap.1 (List.mem_of_find?_eq_some h)
  obtain ⟨hpath, hmem⟩ := typePath_of_mem_bodies hbody
  refine ⟨hname, ?_,
    mem_preOrder_trans hmem (mem_preOrder_of_mem_children hq (mem_preOrder_self q))⟩
  rw [typePath_of_mem_children hq, hname, hpath, Option.toList_some]

theorem of_enclosingMember? {p e q : Place} {name : String}
    (h : p.enclosingMember? name = some (e, q)) :
    e ∈ p.ancestors ∧ e.declaredName?.isSome ∧ e.member? name = some q := by
  obtain ⟨a, ha, hmember⟩ := List.exists_of_findSome?_eq_some h
  split at hmember
  · obtain ⟨m, hm, heq⟩ := Option.map_eq_some_iff.1 hmember
    cases heq
    exact ⟨ha, ‹_›, hm⟩
  · cases hmember

theorem typePath_root {T : Wrapped} (h : (root T).declaredName? = none) :
    (root T).typePath = [] := by
  rw [typePath, upward, List.filterMap_cons, h]
  rfl

theorem typePath_ne_nil {p : Place} (h : p.declaredName?.isSome) : p.typePath ≠ [] := by
  obtain ⟨name, hname⟩ := Option.isSome_iff_exists.1 h
  rw [typePath, upward, List.filterMap_cons, hname, List.reverse_cons]
  exact List.append_ne_nil_of_right_ne_nil _ (List.cons_ne_nil _ _)

end Place

def topLevel? (T : Wrapped) (name : String) : Option Place :=
  (Place.root T).children.find? fun q => q.declaredName? == some name

namespace Scope

def binaryNameOf (root : Ast) (p : Place) : String :=
  packagePath (packageOf root) ++ "$".intercalate p.typePath

def outerName (home : String) : List String → Option String
  | [] => none
  | path => some (home ++ "$".intercalate path)

theorem outerName_append_singleton (home : String) (path : List String) (name : String) :
    outerName home (path ++ [name]) = some (home ++ "$".intercalate (path ++ [name])) := by
  cases path <;> rfl

theorem binaryName_outerName (home : String) (path : List String) (name : String) :
    binaryName home (outerName home path) name = home ++ "$".intercalate (path ++ [name]) := by
  cases path with
  | nil => rw [outerName, binaryName, List.nil_append, String.intercalate_singleton]
  | cons first rest =>
    rw [outerName, binaryName, String.intercalate_append_of_ne_nil (List.cons_ne_nil _ _)
      (List.cons_ne_nil _ _), String.intercalate_singleton]
    · simp only [String.append_assoc]
    · exact List.cons_ne_nil _ _

def typeEntry (home : String) (p : Place) : Option (String × String) :=
  p.declaredName?.map fun name => (name, home ++ "$".intercalate p.typePath)

def declaredFrom (home : String) (outer : Option String) (c : Ast) : List (String × String) :=
  match (if Kinds.isType c.kind then c.name? else none) with
  | some name => (name, binaryName home outer name) ::
      declaredIn home (some (binaryName home outer name)) c
  | none => declaredIn home outer c

theorem declaredIn_eq_flatMap (home : String) (outer : Option String) (t : Ast) :
    declaredIn home outer t = t.children.flatMap (declaredFrom home outer) := by
  have main : ∀ cs : List Ast,
      declaredInAll home outer cs = cs.flatMap (declaredFrom home outer) := by
    intro cs
    induction cs with
    | nil => rfl
    | cons c cs ih => exact congrArg (declaredFrom home outer c ++ ·) ih
  cases t with
  | node tag cs => exact main cs

/-- The declared types of a subtree, one after the other in pre-order. -/
theorem declaredIn_ast (home : String) (p : Place) :
    declaredIn home (outerName home p.typePath) p.ast =
      p.descendants.filterMap (typeEntry home) := by
  induction p using Place.childInduction with
  | h p ih =>
    rw [declaredIn_eq_flatMap, Place.children_ast, List.flatMap_map, Place.descendants,
      Place.preWalk_eq_flatMap, List.filterMap_flatMap]
    apply List.flatMap_congr
    intro c hc
    -- the child's own entry, if it has one, comes before those below it
    have hpath := Place.typePath_of_mem_children hc
    rw [Place.preOrder_eq_cons_descendants, List.filterMap_cons, ← ih c hc, typeEntry, hpath,
      declaredFrom, Place.kind_ast, ← Place.declaredName?]
    cases c.declaredName? with
    | none => simp only [Option.map_none, Option.toList_none, List.append_nil]
    | some name =>
      simp only [Option.map_some, Option.toList_some, binaryName_outerName,
        outerName_append_singleton]

theorem lookup_filterMap_typeEntry (home name : String) (ps : List Place) :
    (ps.filterMap (typeEntry home)).lookup name =
      (ps.find? fun q => q.declaredName? == some name).map
        fun q => home ++ "$".intercalate q.typePath := by
  induction ps with
  | nil => rfl
  | cons q ps ih =>
    rw [List.filterMap_cons, List.find?_cons, typeEntry]
    cases q.declaredName? with
    | none => exact ih
    | some declared =>
      simp only [Option.map_some, List.lookup_cons, ih, Option.some_beq_some,
        BEq.comm (a := declared)]
      cases name == declared <;> rfl

section File

variable {mix : Mix} {root : Ast} {p : Place} {name : String}

theorem declaredName?_root (hfile : Kinds.isType root.kind = false) :
    (Place.root (Rose.wrap mix root)).declaredName? = none := by
  have hkind : (Place.root (Rose.wrap mix root)).kind = root.kind := by
    rw [← Place.kind_ast]
    exact congrArg Rose.kind (Rose.ast_wrap mix root)
  rw [Place.declaredName?, hkind, hfile]
  rfl

theorem id_le_of_find? {q : Place} {test : Place → Bool} (hp : p ∈ nodes (Rose.wrap mix root))
    (hq : p.descendants.find? test = some q) {r : Place} (hr : r ∈ p.descendants)
    (htest : test r = true) : q.id ≤ r.id := by
  have hsorted : p.descendants.Pairwise fun a b => a.id < b.id := by
    rw [← List.pairwise_map, map_id_descendants hp]
    exact List.pairwise_lt_range'
  obtain ⟨-, before, after, hsplit, hbefore⟩ := List.find?_eq_some_iff_append.1 hq
  rw [hsplit] at hr hsorted
  rcases List.mem_append.1 hr with hr | hr
  · exact absurd htest (by simpa using hbefore r hr)
  · rcases List.mem_cons.1 hr with rfl | hr
    · exact Nat.le_refl _
    · exact Nat.le_of_lt (List.rel_of_pairwise_cons (List.pairwise_append.1 hsorted).2.1 hr)

/-- The search for a declaration finds the one that comes first. -/
theorem find?_declaredName?
    (hfile : (Place.root (Rose.wrap mix root)).declaredName? = none)
    (hp : p ∈ nodes (Rose.wrap mix root)) (hname : p.declaredName? = some name)
    (hfirst : p.DeclaredFirst (Rose.wrap mix root)) :
    ((Place.root (Rose.wrap mix root)).descendants.find?
      fun q => q.declaredName? == some name) = some p := by
  have hroot := root_mem_nodes (Rose.wrap mix root)
  have hbelow : p ∈ (Place.root (Rose.wrap mix root)).descendants := by
    rw [nodes, Place.preOrder_eq_cons_descendants] at hp
    rcases List.mem_cons.1 hp with rfl | hp
    · rw [hfile] at hname
      cases hname
    · exact hp
  have htest : (p.declaredName? == some name) = true := beq_iff_eq.2 hname
  have hfound : ((Place.root (Rose.wrap mix root)).descendants.find?
      fun q => q.declaredName? == some name).isSome := by
    rw [List.find?_isSome]
    exact ⟨p, hbelow, htest⟩
  -- something of this name is found; it is neither before nor behind the first declaration
  obtain ⟨q, hq⟩ := Option.isSome_iff_exists.1 hfound
  have hqname : q.declaredName? = some name := by simpa using List.find?_some hq
  have hqmem := Place.mem_preOrder_of_mem_descendants (List.mem_of_find?_eq_some hq)
  have hid : q.id = p.id :=
    Nat.le_antisymm (id_le_of_find? hroot hq hbelow htest)
      (hfirst q hqmem (hqname.trans hname.symm))
  rw [hq, eq_of_id_eq hqmem hp hid]

theorem resolve?_ofRoot (hfile : (Place.root (Rose.wrap mix root)).declaredName? = none)
    (hp : p ∈ nodes (Rose.wrap mix root)) (hname : p.declaredName? = some name)
    (hfirst : p.DeclaredFirst (Rose.wrap mix root)) (hdots : '.' ∉ name.toList) :
    (ofRoot root).resolve? name = some (binaryNameOf root p) := by
  have hdeclared : (ofRoot root).declared =
      (Place.root (Rose.wrap mix root)).descendants.filterMap
        (typeEntry (packagePath (packageOf root))) := by
    rw [← declaredIn_ast, Place.typePath_root hfile]
    exact congrArg (declaredIn _ none) (Rose.ast_wrap mix root).symm
  have hlookup : (ofRoot root).declared.lookup name = some (binaryNameOf root p) := by
    rw [hdeclared, lookup_filterMap_typeEntry, find?_declaredName? hfile hp hname hfirst]
    rfl
  have hdrop : name.toList.dropWhile (· != '.') = [] := by
    rw [List.dropWhile_eq_nil_iff]
    intro c hc
    rw [bne_iff_ne]
    rintro rfl
    exact hdots hc
  rw [resolve?, hdrop]
  simp only [resolveSimple?, hlookup]

end File

end Scope

namespace Descriptor

open Scope

/-- A piece of a descriptor, for brackets and a simple name, is that of the first declaration of the
name in the file, in particular that of the member of the innermost type around the method, or else
of the top-level type, if this one is the first. -/
structure FirstDeclared (root : Ast) (T : Wrapped) (method : Place) (brackets name part : String) :
    Prop where
  first : ∀ p ∈ nodes T, p.declaredName? = some name → p.DeclaredFirst T →
    part = brackets ++ ofBinaryName (binaryNameOf root p)
  member : ∀ e p, method.enclosingMember? name = some (e, p) → p.DeclaredFirst T →
    part = brackets ++ ofBinaryName (binaryNameOf root e ++ "$" ++ name)
  topLevel : ∀ p, method.enclosingMember? name = none → topLevel? T name = some p →
    p.DeclaredFirst T → part = brackets ++ ofBinaryName (packagePath (packageOf root) ++ name)

/-- The same for a type of a signature, if it is written as a simple name that is none of the type
parameters of the method and the other declarations. -/
def NamesFirst (root : Ast) (T : Wrapped) (method : Place) (declarations : List Ast)
    (type : Option Erased) (part : String) : Prop :=
  ∀ brackets name, type = some ⟨brackets, .simple name⟩ → '.' ∉ name.toList →
    (∀ e ∈ method.ast :: declarations, name ∉ parameterNames e) →
    FirstDeclared root T method brackets name part

section Signature

variable {mix : Mix} {root : Ast} {method : Place} {name : String}

theorem binaryNameOf_member {p q : Place} (hp : p.declaredName?.isSome)
    (hq : p.member? name = some q) :
    binaryNameOf root q = binaryNameOf root p ++ "$" ++ name := by
  rw [binaryNameOf, binaryNameOf, (Place.of_member? hq).2.1,
    String.intercalate_append_of_ne_nil (Place.typePath_ne_nil hp) (List.cons_ne_nil _ _),
    String.intercalate_singleton]
  simp only [String.append_assoc]

/-- A piece that follows from what the file says about its name is that of the first declaration. -/
theorem firstDeclared_of_resolve? (hfile : (Place.root (Rose.wrap mix root)).declaredName? = none)
    (hmethod : method ∈ nodes (Rose.wrap mix root)) (hdots : '.' ∉ name.toList)
    {brackets part : String}
    (hpart : ((ofRoot root).resolve? name).map (brackets ++ ofBinaryName ·) = some part) :
    FirstDeclared root (Rose.wrap mix root) method brackets name part := by
  have hfirst : ∀ p ∈ nodes (Rose.wrap mix root), p.declaredName? = some name →
      p.DeclaredFirst (Rose.wrap mix root) →
      part = brackets ++ ofBinaryName (binaryNameOf root p) := by
    intro p hp hname hfirst
    rw [resolve?_ofRoot hfile hp hname hfirst hdots] at hpart
    exact (Option.some.inj hpart).symm
  refine ⟨hfirst, ?_, ?_⟩
  · intro e p hmember hp
    obtain ⟨habove, hdeclared, hmember⟩ := Place.of_enclosingMember? hmember
    obtain ⟨hname, -, hbelow⟩ := Place.of_member? hmember
    have hin : p ∈ nodes (Rose.wrap mix root) :=
      mem_nodes_of_mem_preOrder (mem_nodes_of_mem_ancestors hmethod habove).1 hbelow
    rw [hfirst p hin hname hp, binaryNameOf_member hdeclared hmember]
  · intro p _ htop hp
    have hname : p.declaredName? = some name := by simpa using List.find?_some htop
    have hchild := List.mem_of_find?_eq_some htop
    have hin := mem_nodes_of_mem_children (root_mem_nodes (Rose.wrap mix root)) hchild
    rw [hfirst p hin hname hp, binaryNameOf, Place.typePath_of_mem_children hchild,
      Place.typePath_root hfile, hname, Option.toList_some, List.nil_append,
      String.intercalate_singleton]

theorem scopeMeaning_simple {declarations : List Ast}
    (h : ∀ d ∈ declarations, name ∉ parameterNames d) (erase : Option Ast → Option String) :
    scopeMeaning (declarations.foldl withTypeParameters (ofRoot root)) erase (.simple name) =
      ((ofRoot root).resolve? name).map ofBinaryName := by
  have hlookup : (declarations.reverse.flatMap typeParameters ++
      (ofRoot root).typeVariables).lookup name = none := by
    rw [show (ofRoot root).typeVariables = [] from rfl, List.append_nil]
    exact lookup_flatMap_typeParameters fun d hd => h d (List.mem_reverse.1 hd)
  rw [foldl_withTypeParameters, scopeMeaning, meaning]
  simp only [hlookup]
  rfl

theorem namesFirst_of_descriptor (hfile : (Place.root (Rose.wrap mix root)).declaredName? = none)
    (hmethod : method ∈ nodes (Rose.wrap mix root)) {declarations : List Ast} {type : Option Erased}
    {part : String} (erase : Option Ast → Option String)
    (hpart : type.bind (Erased.descriptor (scopeMeaning
      ((declarations ++ [method.ast]).foldl withTypeParameters (ofRoot root)) erase)) = some part) :
    NamesFirst root (Rose.wrap mix root) method declarations type part := by
  rintro brackets name rfl hdots hvariable
  apply firstDeclared_of_resolve? hfile hmethod hdots
  rw [Option.bind_some, Erased.descriptor, scopeMeaning_simple] at hpart
  · rw [← hpart, Option.map_map]
    rfl
  · intro e he
    apply hvariable
    rwa [List.mem_cons, or_comm, ← List.mem_singleton, ← List.mem_append]

/-- Every piece of a descriptor that stands for a simple name, type parameters apart, names the
first declaration of that name in the file, if there is one. -/
theorem ofMethod_names_first (hfile : Kinds.isType root.kind = false)
    (hmethod : method ∈ nodes (Rose.wrap mix root)) {declarations : List Ast} {d : String}
    (hd : ofMethod (declarations.foldl withTypeParameters (ofRoot root)) method.ast = some d) :
    ∃ parts result, d = "(" ++ String.join parts ++ ")" ++ result ∧
      List.Forall₂ (NamesFirst root (Rose.wrap mix root) method declarations)
        (parameterTypes method.ast) parts ∧
      NamesFirst root (Rose.wrap mix root) method declarations (resultType? method.ast) result := by
  have hscope :
      (declarations.foldl withTypeParameters (ofRoot root)).withTypeParameters method.ast =
      (declarations ++ [method.ast]).foldl withTypeParameters (ofRoot root) := by
    rw [List.foldl_append]
    rfl
  rw [ofMethod_eq_describe, hscope, describe_eq_some_iff] at hd
  obtain ⟨parts, result, hparts, hresult, rfl⟩ := hd
  have hroot : (Place.root (Rose.wrap mix root)).declaredName? = none := declaredName?_root hfile
  refine ⟨parts, result, rfl, ?_, namesFirst_of_descriptor hroot hmethod _ hresult⟩
  have hforall := List.forall₂_eq_eq_eq ▸ hparts
  rw [List.forall₂_map_left_iff, List.forall₂_map_right_iff] at hforall
  exact hforall.imp fun type part hpart => namesFirst_of_descriptor hroot hmethod _ hpart

end Signature

namespace Builders

def outer : Ast := Sketch.type "class" "Outer" 2 []
  [Sketch.type "class" "Node" 3 [] [], Sketch.method "method" "run" 4 [] "Node"]

def file : Ast := Sketch.file "demo" [outer, Sketch.type "class" "Node" 5 [] []]

def holder : Place := Sketch.place file [1]

def run : Place := Sketch.place file [1, 1, 1]

end Builders

/-- The member of the method's class, which stands before the type at top level. -/
theorem ofMethod_names_first_builders :
    ∃ result, ofMethod (Scope.ofRoot Builders.file) Builders.run.ast = some
      ("(" ++ ofBinaryName (binaryNameOf Builders.file Builders.holder ++ "$" ++ "Node") ++ ")" ++
        result) := by
  have hd : ofMethod (Scope.ofRoot Builders.file) Builders.run.ast =
      some "(Ldemo/Outer$Node;)V" := by
    decide +kernel
  have htypes : parameterTypes Builders.run.ast = [some ⟨"", .simple "Node"⟩] := by
    decide +kernel
  obtain ⟨parts, result, hjoin, hparts, -⟩ :=
    @ofMethod_names_first Mix.standard Builders.file Builders.run rfl
      (Sketch.place_mem_nodes rfl) [] _ hd
  rw [htypes] at hparts
  obtain ⟨part, _, hpart, hrest, rfl⟩ := List.forall₂_cons_left_iff.1 hparts
  rw [List.forall₂_nil_left_iff] at hrest
  have hmember := (hpart "" "Node" rfl (by decide) (by decide +kernel)).member
    Builders.holder (Sketch.place Builders.file [1, 1, 0]) rfl (by decide +kernel)
  refine ⟨result, ?_⟩
  rw [hd, hjoin, hrest, hmember, String.join_cons, String.join_nil, String.append_empty,
    String.empty_append]

namespace Crossing

def left : Ast := Sketch.type "class" "Left" 2 [] [Sketch.type "class" "Node" 3 [] []]

def right : Ast := Sketch.type "class" "Right" 4 []
  [Sketch.type "class" "Node" 5 [] [], Sketch.method "method" "run" 6 [] "Node"]

def user : Ast := Sketch.type "class" "User" 8 [] [Sketch.method "method" "use" 9 [] "Node"]

def file : Ast := Sketch.file "demo" [left, right, Sketch.type "class" "Node" 7 [] [], user]

def run : Place := Sketch.place file [2, 1, 1]

def use : Place := Sketch.place file [4, 1, 0]

end Crossing

/-- A member of another class that comes first is named instead of the member of the method's own
class, and instead of the type at top level. -/
theorem ofMethod_names_other_crossing :
    ofMethod (Scope.ofRoot Crossing.file) Crossing.run.ast =
        some "(Ldemo/Left$Node;)V" ∧
      (Crossing.run.enclosingMember? "Node").map (fun (e, p) =>
        (binaryNameOf Crossing.file e, binaryNameOf Crossing.file p)) =
          some ("demo/Right", "demo/Right$Node") ∧
      ofMethod (Scope.ofRoot Crossing.file) Crossing.use.ast =
        some "(Ldemo/Left$Node;)V" ∧
      (Crossing.use.enclosingMember? "Node").isNone ∧
      (topLevel? (Rose.wrap Mix.standard Crossing.file) "Node").map (binaryNameOf Crossing.file) =
        some "demo/Node" := by
  refine ⟨?_, ?_, ?_, ?_, ?_⟩ <;> decide +kernel

end Descriptor

end Relocate
