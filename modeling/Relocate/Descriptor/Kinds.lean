import Relocate.Ast

/-!
# Kinds of declarations and types

Which kinds of syntax nodes declare methods and types, and which denote types.
-/

set_option autoImplicit false

namespace Relocate.Kinds

def methods : List String := ["method_declaration", "constructor_declaration"]

def types : List String :=
  ["class_declaration", "interface_declaration", "enum_declaration", "record_declaration",
   "annotation_type_declaration"]

def enclosing : List String :=
  ["class_declaration", "record_declaration", "enum_declaration", "interface_declaration"]

def typeUses : List String :=
  ["integral_type", "floating_point_type", "boolean_type", "void_type", "type_identifier",
   "scoped_type_identifier", "generic_type", "array_type", "annotated_type"]

def isMethod (kind : String) : Bool := methods.contains kind

def isType (kind : String) : Bool := types.contains kind

def isEnclosing (kind : String) : Bool := enclosing.contains kind

def isTypeUse (kind : String) : Bool := typeUses.contains kind

end Relocate.Kinds
