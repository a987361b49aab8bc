import Relocate.Tree.Rose

/-!
# Syntax trees

A syntax tree node has a kind, an optional value (a name, a literal, an operator), an optional field
(its role in the parent) and the line it starts on. Two nodes have the same content when kind and
value agree; field and line do not count. An absent value differs from an empty one.
-/

set_option autoImplicit false

namespace Relocate

structure Content where
  kind : String
  value : Option String
  deriving DecidableEq, Inhabited

structure Tag extends Content where
  field : Option String
  line : Nat
  deriving DecidableEq, Inhabited

abbrev Ast := Rose Tag

namespace Rose

def leaf (kind : String) (value : Option String) (line : Nat) : Rose Tag :=
  node { kind, value, field := none, line } []

def kind (t : Rose Tag) : String := t.label.kind

def value (t : Rose Tag) : Option String := t.label.value

def field (t : Rose Tag) : Option String := t.label.field

def line (t : Rose Tag) : Nat := t.label.line

def text (t : Rose Tag) : String := t.value.getD ""

def childByField? (t : Rose Tag) (field : String) : Option (Rose Tag) :=
  t.children.find? (fun c => c.field == some field)

def childByKind? (t : Rose Tag) (kind : String) : Option (Rose Tag) :=
  t.children.find? (fun c => c.kind == kind)

def name? (t : Rose Tag) : Option String :=
  (t.childByField? "name").bind value

mutual
def agrees : Rose Tag → Rose Tag → Bool
  | node a as, node b bs => a == b && agreesAll as bs

def agreesAll : List (Rose Tag) → List (Rose Tag) → Bool
  | [], [] => true
  | a :: as, b :: bs => agrees a b && agreesAll as bs
  | _, _ => false
end

theorem mem_children_of_childByField? {t c : Rose Tag} {field : String}
    (h : t.childByField? field = some c) : c ∈ t.children :=
  List.mem_of_find?_eq_some h

end Rose

end Relocate
