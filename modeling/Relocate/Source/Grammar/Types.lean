import Relocate.Source.Grammar.Declarations

/-!
# Types and methods

Types with and without annotations, methods and their parameters, and the words that are names
where they mean nothing else.
-/

set_option autoImplicit false

namespace Relocate.Source.Grammar

def typeForms : List Definition :=
  [choice "type" [plainType, the "annotated_type"],
   choice "plain_type" [simpleType, the "array_type"],
   node "annotated_type" [.repeated (the "annotation_use"), plainType],
   node "scoped_type_identifier"
     [.any [typeName, theAny ["scoped_type_identifier", "generic_type"]], ".", annotations,
      typeName],
   node "generic_type"
     [.weighed genericWeight
       (.all [.either typeName (the "scoped_type_identifier"), the "type_arguments"])],
   node "array_type" [as "element" plainType, as "dimensions" (the "dimensions")],
   node "integral_type" [.oneOf ["byte", "short", "int", "long", "char"]],
   node "floating_point_type" [.oneOf ["float", "double"]],
   node "boolean_type" ["boolean"],
   node "void_type" ["void"]]

def methods : List Definition :=
  [part "method_header"
     [opt (.all [as "type_parameters" (the "type_parameters"), annotations]), typeRole,
      the "method_declarator", opt (the "throws")],
   part "method_declarator"
     [as "name" name, as "parameters" (the "formal_parameters"), dimensions],
   node "formal_parameters"
     [parens [.either (the "receiver_parameter")
       (.all [opt (.all [the "receiver_parameter", ","]),
         commas (.either (the "formal_parameter") (the "spread_parameter"))])]],
   node "formal_parameter" [modifiers, typeRole, the "declarator_id"],
   node "receiver_parameter"
     [annotations, plainType, many (.all [identifier, "."]), the "this"],
   node "spread_parameter"
     [modifiers, plainType, "...", annotations, the "variable_declarator"],
   node "throws" ["throws", .list (the "type")],
   variablesAs "local_variable_declaration",
   node "method_declaration"
     [modifiers, the "method_header", .either (as "body" block) ";"],
   node "compact_constructor_declaration" [modifiers, nameRole, as "body" block]]

def words : List Definition :=
  [choice "reserved_name"
     [ranked reservedRank
        [.called "identifier" (.oneOf ["open", "module", "record", "with", "sealed"])],
      .called "identifier" "yield"],
   node "this" ["this"],
   node "super" ["super"]]

def types : List Definition := typeForms ++ methods ++ words

end Relocate.Source.Grammar
