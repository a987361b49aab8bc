import Relocate.Source.Grammar.Parts

/-!
# Statements

Whatever may stand in a block, declarations included. A `switch` may be a statement or an
expression, and `yield` a statement or a name.
-/

set_option autoImplicit false

namespace Relocate.Source.Grammar

def statementKinds : List Rule :=
  [theAny ["declaration", "expression_statement", "labeled_statement", "if_statement",
     "while_statement", "for_statement", "enhanced_for_statement", "block"],
   ";",
   theAny ["assert_statement", "do_statement", "break_statement", "continue_statement",
     "return_statement", "yield_statement", "switch_expression", "synchronized_statement",
     "local_variable_declaration", "throw_statement", "try_statement",
     "try_with_resources_statement"]]

def simpleStatements : List Definition :=
  [choice "statement" statementKinds,
   node "block" [braced [many (the "statement")]],
   node "expression_statement" [expression, ";"],
   node "labeled_statement" [identifier, ":", the "statement"],
   node "assert_statement" ["assert", expression, opt (.all [":", expression]), ";"],
   node "do_statement" ["do", as "body" (the "statement"), "while", condition, ";"],
   node "break_statement" ["break", opt identifier, ";"],
   node "continue_statement" ["continue", opt identifier, ";"],
   node "return_statement" ["return", opt expression, ";"],
   node "yield_statement" ["yield", expression, ";"],
   node "synchronized_statement"
     ["synchronized", the "parenthesized_expression", as "body" block],
   node "throw_statement" ["throw", expression, ";"]]

def handlers : List Definition :=
  [node "try_statement"
     ["try", as "body" block,
      .either (.repeated (the "catch_clause"))
        (.all [many (the "catch_clause"), the "finally_clause"])],
   node "catch_clause"
     ["catch", parens [the "catch_formal_parameter"], as "body" block],
   node "catch_formal_parameter" [modifiers, the "catch_type", the "declarator_id"],
   node "catch_type" [.separated "|" plainType],
   node "finally_clause" ["finally", block],
   node "try_with_resources_statement"
     ["try", as "resources" (the "resource_specification"), as "body" block,
      many (the "catch_clause"), opt (the "finally_clause")],
   node "resource_specification" [parens [.separated ";" (the "resource"), opt ";"]],
   node "resource"
     [.any
       [.all [modifiers, typeRole, the "declarator_id", "=", as "value" expression],
        identifier, the "field_access"]]]

def branches : List Definition :=
  [node "if_statement"
     [grouped .right 0
       ["if", condition, as "consequence" (the "statement"),
        opt (.all ["else", as "alternative" (the "statement")])]],
   node "while_statement" ["while", condition, as "body" (the "statement")],
   node "for_statement"
     ["for", "(",
      .either (as "init" (the "local_variable_declaration"))
        (.all [commas (as "init" expression), ";"]),
      as "condition" (opt expression), ";", commas (as "update" expression), ")",
      as "body" (the "statement")],
   node "enhanced_for_statement"
     ["for", "(", modifiers, typeRole, the "declarator_id", ":", as "value" expression, ")",
      as "body" (the "statement")]]

def statements : List Definition := simpleStatements ++ handlers ++ branches

end Relocate.Source.Grammar
