import Relocate.Source.Grammar.Parts

/-!
# Literals, expressions and patterns

Expressions by rank, the shape of strings with expressions inside, and the blocks and labels of
`switch`. A cast binds its operand at once if that is a primary expression.
-/

set_option autoImplicit false

namespace Relocate.Source.Grammar

def literals : List Definition :=
  [choice "literal"
     ((["decimal_integer_literal", "hex_integer_literal", "octal_integer_literal",
        "binary_integer_literal", "decimal_floating_point_literal",
        "hex_floating_point_literal"].map fun kind => .terminal (.literal kind)) ++
      [the "true", the "false", .terminal (.literal "character_literal"), the "string_literal",
       the "null_literal"]),
   node "true" ["true"],
   node "false" ["false"],
   node "string_literal" [.either (the "line_string") (the "text_block")],
   part "line_string"
     ["\"",
      many (.any [.terminal .fragment, .terminal .escape, the "string_interpolation"]), "\""],
   part "text_block"
     ["\"\"\"",
      many (.any [.terminal .blockFragment, .terminal .bareEscape, .terminal .escape,
        the "string_interpolation"]), "\"\"\""],
   node "string_interpolation" ["\\\x7b", expression, "\x7d"],
   node "null_literal" ["null"]]

def unaryOperators : List String := ["+", "-", "!", "~"]

def operations : List Definition :=
  [choice "expression"
     [the "assignment_expression", the "binary_expression", the "instanceof_expression",
      the "lambda_expression", the "ternary_expression", the "update_expression", primary,
      the "unary_expression", the "cast_expression", the "switch_expression"],
   node "cast_expression"
     [ranked castRank [.either
       (.all ["(", as "type" (the "type"), ")", as "value" expression])
       (.all ["(", .separated "&" (as "type" (the "type")), ")",
         as "value" (.either primary (the "lambda_expression"))])]],
   node "assignment_expression"
     [grouped .right assignmentRank
       [as "left" (.any [name, the "field_access", the "array_access"]),
        as "operator" (.oneOf assignmentOperators), as "right" expression]],
   node "binary_expression"
     [.any (binaryOperators.map fun (op, rank) =>
       grouped .left rank
         [as "left" expression, as "operator" (.oneOf [op]), as "right" expression])],
   node "instanceof_expression"
     [ranked instanceRank
       [as "left" expression, "instanceof", opt "final",
        .either (.all [as "right" (the "type"), opt (as "name" name)])
          (as "pattern" (the "record_pattern"))]],
   node "lambda_expression"
     [as "parameters" (.any [name, the "formal_parameters", the "inferred_parameters"]), "->",
      as "body" (.either expression block)],
   node "inferred_parameters" [parens [.list name]],
   node "ternary_expression"
     [grouped .right conditionalRank
       [as "condition" expression, "?", as "consequence" expression, ":",
        as "alternative" expression]],
   node "unary_expression"
     [.any (unaryOperators.map fun op =>
       grouped .left prefixRank [as "operator" (.oneOf [op]), as "operand" expression])],
   node "update_expression"
     [grouped .left prefixRank
       [.any [.all [expression, "++"], .all [expression, "--"], .all ["++", expression],
         .all ["--", expression]]]]]

def primaries : List Definition :=
  [choice "primary"
     [the "literal", the "class_literal", the "this", name, the "parenthesized_expression",
      the "object_creation_expression", the "field_access", the "array_access",
      the "method_invocation", the "method_reference", the "array_creation_expression",
      the "template_expression"],
   node "array_creation_expression"
     [grouped .right 0
       ["new", annotations, as "type" simpleType,
        .either
          (.all [as "dimensions" (.repeated (the "dimensions_expr")), dimensions])
          (.all [as "dimensions" (the "dimensions"), as "value" (the "array_initializer")])]],
   node "dimensions_expr" [annotations, "[", expression, "]"],
   node "parenthesized_expression" [parens [expression]],
   node "class_literal" [.weighed literalWeight (.all [plainType, ".", "class"])],
   node "object_creation_expression"
     [.either (the "creation") (.all [primary, ".", the "creation"])],
   part "creation"
     [grouped .right 0
       ["new",
        .either (.all [annotations, as "type_arguments" (the "type_arguments"), annotations])
          annotations,
        as "type" simpleType, argumentsRole, opt (the "class_body")]],
   node "field_access"
     [as "object" (.either primary (the "super")), opt (.all [".", the "super"]), ".",
      as "field" (.either name (the "this"))],
   node "template_expression"
     [as "template_processor" primary, ".", as "template_argument" (the "string_literal")],
   node "array_access" [as "array" primary, "[", as "index" expression, "]"],
   node "method_invocation"
     [.either (as "name" name)
        (.all [as "object" (.either primary (the "super")), ".", opt (.all [the "super", "."]),
          typeArgumentsRole, as "name" name]),
      argumentsRole],
   node "argument_list" [parens [commas expression]],
   node "method_reference"
     [.any [the "type", primary, the "super"], "::", opt (the "type_arguments"),
      .either "new" identifier],
   node "type_arguments" ["<", commas (.either (the "type") (the "wildcard")), ">"],
   node "wildcard" [annotations, "?", opt (the "wildcard_bound")],
   part "wildcard_bound"
     [.either (.all ["extends", the "type"]) (.all [the "super", the "type"])],
   node "dimensions" [grouped .right 0 [.repeated (.all [annotations, "[", "]"])]]]

def switches : List Definition :=
  [node "switch_expression" ["switch", condition, as "body" (the "switch_block")],
   node "switch_block"
     [braced [.either (many (the "switch_block_statement_group")) (many (the "switch_rule"))]],
   node "switch_block_statement_group"
     [grouped .left 0
       [.repeated (.all [the "switch_label", ":"]), many (the "statement")]],
   node "switch_rule"
     [the "switch_label", "->",
      .any [the "expression_statement", the "throw_statement", block]],
   node "switch_label"
     [.either (.all ["case", .either (the "pattern") (.list expression), opt (the "guard")])
       "default"],
   node "pattern" [.either (the "type_pattern") (the "record_pattern")],
   node "type_pattern" [plainType, name],
   node "record_pattern" [.either name (the "generic_type"), the "record_pattern_body"],
   node "record_pattern_body"
     [parens [commas (.either (the "record_pattern_component") (the "record_pattern"))]],
   node "record_pattern_component"
     [.either (the "underscore_pattern") (.all [plainType, name])],
   node "underscore_pattern" ["_"],
   node "guard" ["when", expression]]

def expressions : List Definition := literals ++ operations ++ primaries ++ switches

end Relocate.Source.Grammar
