import Relocate.Source.Rule

/-!
# Parts of the grammar of Java

Rules that many phrases share: names, lists in brackets, and the operators by rank.
-/

set_option autoImplicit false

namespace Relocate.Source.Grammar

def node (kind : String) (parts : List Rule) : Definition := ⟨kind, true, .all parts⟩

def part (name : String) (parts : List Rule) : Definition := ⟨name, false, .all parts⟩

def choice (name : String) (alternatives : List Rule) : Definition :=
  ⟨name, false, .any alternatives⟩

def the (phrase : String) : Rule := .phrase phrase

def theAny (phrases : List String) : Rule := .any (phrases.map the)

def as (role : String) (r : Rule) : Rule := .role role r

def opt (r : Rule) : Rule := .opt r

def many (r : Rule) : Rule := .many r

def braced (parts : List Rule) : Rule := .all ["\x7b", .all parts, "\x7d"]

def parens (parts : List Rule) : Rule := .all ["(", .all parts, ")"]

def commas (r : Rule) : Rule := opt (.list r)

/-- A construct that binds as tightly as its operator. -/
def grouped (side : Side) (precedence : Int) (parts : List Rule) : Rule :=
  .ranked precedence (some side) (.all parts)

def ranked (precedence : Int) (parts : List Rule) : Rule := .ranked precedence none (.all parts)

/-! ## Names -/

def identifier : Rule := .terminal .identifier

/-- A name that may also be one of the words with a meaning in some places only. -/
def name : Rule := .either identifier (the "reserved_name")

def dottedName : Rule := .either name (the "scoped_identifier")

def typeName : Rule := .called "type_identifier" identifier

def simpleType : Rule :=
  .any
    [theAny ["void_type", "integral_type", "floating_point_type", "boolean_type"], typeName,
     theAny ["scoped_type_identifier", "generic_type"]]

/-! ## Roles that occur often -/

def expression : Rule := the "expression"

def primary : Rule := the "primary"

def block : Rule := the "block"

def condition : Rule := as "condition" (the "parenthesized_expression")

def annotations : Rule := many (the "annotation_use")

def modifiers : Rule := opt (the "modifiers")

def dimensions : Rule := as "dimensions" (opt (the "dimensions"))

def plainType : Rule := the "plain_type"

def typeRole : Rule := as "type" plainType

def nameRole : Rule := as "name" identifier

def argumentsRole : Rule := as "arguments" (the "argument_list")

def typeArgumentsRole : Rule := as "type_arguments" (opt (the "type_arguments"))

def typeParametersRole : Rule := as "type_parameters" (opt (the "type_parameters"))

def initializer : Rule := .either expression (the "array_initializer")

def members : Rule :=
  many (.either
    (theAny ["field_declaration", "record_declaration", "method_declaration",
      "compact_constructor_declaration", "class_declaration", "interface_declaration",
      "annotation_type_declaration", "enum_declaration", "block", "static_initializer",
      "constructor_declaration"])
    ";")

/-! ## Ranks of operators -/

def binaryOperators : List (String × Int) :=
  [("||", 4), ("&&", 5), ("|", 6), ("^", 7), ("&", 8), ("==", 9), ("!=", 9), ("<", 10), (">", 10),
   ("<=", 10), (">=", 10), ("<<", 11), (">>", 11), (">>>", 11), ("+", 12), ("-", 12), ("*", 13),
   ("/", 13), ("%", 13)]

def assignmentOperators : List String :=
  ["=", "+=", "-=", "*=", "/=", "&=", "|=", "^=", "%=", "<<=", ">>=", ">>>="]

def assignmentRank : Int := 1

def declarationRank : Int := 2

def conditionalRank : Int := 3

def instanceRank : Int := 10

def castRank : Int := 14

def prefixRank : Int := 15

/-- Words with a meaning in some places only bind less than anything else. -/
def reservedRank : Int := -3

def genericWeight : Nat := 10

def literalWeight : Nat := 17

def modifierWords : List String :=
  ["public", "protected", "private", "abstract", "static", "final", "strictfp", "default",
   "synchronized", "native", "transient", "volatile", "sealed", "non-sealed"]

end Relocate.Source.Grammar
