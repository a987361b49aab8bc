import Relocate.Ast

/-!
# Sample declarations

Files, types and methods as the parser gives them, each declaration on one line.
-/

set_option autoImplicit false

namespace Relocate.Descriptor

namespace Sketch

def named (line : Nat) (name : String) : Ast :=
  .node ⟨⟨"identifier", some name⟩, some "name", line⟩ []

def typeParameters (line : Nat) (bounded : List (String × String)) : List Ast :=
  if bounded.isEmpty then []
  else [.node ⟨⟨"type_parameters", none⟩, some "type_parameters", line⟩
    (bounded.map fun (name, bound) =>
      .node ⟨⟨"type_parameter", none⟩, none, line⟩
        [.leaf "type_identifier" (some name) line,
          .node ⟨⟨"type_bound", none⟩, none, line⟩ [.leaf "type_identifier" (some bound) line]])]

def type (kind name : String) (line : Nat) (bounded : List (String × String)) (members : List Ast) :
    Ast :=
  .node ⟨⟨kind ++ "_declaration", none⟩, none, line⟩
    (named line name :: typeParameters line bounded ++
      [.node ⟨⟨kind ++ "_body", none⟩, some "body", line⟩ members])

def method (kind name : String) (line : Nat) (bounded : List (String × String))
    (argument : String) : Ast :=
  .node ⟨⟨kind ++ "_declaration", none⟩, none, line⟩
    (typeParameters line bounded ++
      (if kind == "method" then [.node ⟨⟨"void_type", some "void"⟩, some "type", line⟩ []]
        else []) ++
      [named line name,
        .node ⟨⟨"formal_parameters", none⟩, some "parameters", line⟩
          [.node ⟨⟨"formal_parameter", none⟩, none, line⟩
            [.node ⟨⟨"type_identifier", some argument⟩, some "type", line⟩ [], named line "it"]]])

def file (package : String) (types : List Ast) : Ast :=
  .node ⟨⟨"program", none⟩, none, 1⟩
    (.node ⟨⟨"package_declaration", none⟩, none, 1⟩ [.leaf "identifier" (some package) 1] :: types)

end Sketch

end Relocate.Descriptor
