import Relocate.Source.Grammar.Parts

/-!
# Annotations and declarations

Modules, packages and imports, the declarations of types, and their bodies.
-/

set_option autoImplicit false

namespace Relocate.Source.Grammar

def annotationUses : List Definition :=
  [choice "annotation_use" [the "marker_annotation", the "annotation"],
   node "marker_annotation" ["@", as "name" dottedName],
   node "annotation"
     ["@", as "name" dottedName, as "arguments" (the "annotation_argument_list")],
   node "annotation_argument_list"
     [parens [.either (the "element_value") (commas (the "element_value_pair"))]],
   node "element_value_pair" [as "key" name, "=", as "value" (the "element_value")],
   part "element_value"
     [ranked declarationRank
       [.any [expression, the "element_value_array_initializer", the "annotation_use"]]],
   node "element_value_array_initializer" [braced [commas (the "element_value"), opt ","]]]

def targets (word : String) : Rule := opt (.both (.oneOf [word]) (.list (as "modules" dottedName)))

def modules : List Definition :=
  [node "module_declaration"
     [annotations, opt "open", "module", as "name" dottedName, as "body" (the "module_body")],
   node "module_body" [braced [many (the "module_directive")]],
   choice "module_directive"
     [the "requires_module_directive", the "exports_module_directive",
      the "opens_module_directive", the "uses_module_directive",
      the "provides_module_directive"],
   node "requires_module_directive"
     ["requires", many (as "modifiers" (the "requires_modifier")), as "module" dottedName, ";"],
   node "requires_modifier" [.either "transitive" "static"],
   node "exports_module_directive" ["exports", as "package" dottedName, targets "to", ";"],
   node "opens_module_directive" ["opens", as "package" dottedName, targets "to", ";"],
   node "uses_module_directive" ["uses", as "type" dottedName, ";"],
   node "provides_module_directive"
     ["provides", as "provided" dottedName, "with", dottedName,
      many (.all [",", as "provider" dottedName]), ";"]]

def packages : List Definition :=
  [node "package_declaration" [annotations, "package", dottedName, ";"],
   node "import_declaration"
     ["import", opt "static", dottedName, opt (.all [".", the "asterisk"]), ";"],
   node "asterisk" ["*"]]

def permitsRole : Rule := opt (as "permits" (the "permits"))

def interfacesRole : Rule := opt (as "interfaces" (the "super_interfaces"))

def typeDeclarations : List Definition :=
  [node "enum_declaration"
     [modifiers, "enum", nameRole, interfacesRole, as "body" (the "enum_body")],
   node "enum_body"
     [braced [commas (the "enum_constant"), opt ",", opt (the "enum_body_declarations")]],
   node "enum_body_declarations" [";", members],
   node "enum_constant"
     [modifiers, nameRole, opt argumentsRole, opt (as "body" (the "class_body"))],
   node "class_declaration"
     [modifiers, "class", nameRole, typeParametersRole,
      opt (as "superclass" (the "superclass")), interfacesRole, permitsRole,
      as "body" (the "class_body")],
   node "modifiers" [.repeated (.either (the "annotation_use") (.oneOf modifierWords))],
   node "type_parameters" ["<", .list (the "type_parameter"), ">"],
   node "type_parameter" [annotations, typeName, opt (the "type_bound")],
   node "type_bound" ["extends", .separated "&" (the "type")],
   node "superclass" ["extends", the "type"],
   node "super_interfaces" ["implements", the "type_list"],
   node "type_list" [.list (the "type")],
   node "permits" ["permits", the "type_list"],
   node "class_body" [braced [members]],
   node "static_initializer" ["static", block]]

def constructors : List Definition :=
  [node "constructor_declaration"
     [modifiers, the "constructor_declarator", opt (the "throws"),
      as "body" (the "constructor_body")],
   part "constructor_declarator"
     [typeParametersRole, nameRole, as "parameters" (the "formal_parameters")],
   node "constructor_body"
     [braced [opt (the "explicit_constructor_invocation"), many (the "statement")]],
   node "explicit_constructor_invocation"
     [.either
        (.all [typeArgumentsRole, as "constructor" (.either (the "this") (the "super"))])
        (.all [as "object" primary, ".", typeArgumentsRole, as "constructor" (the "super")]),
      argumentsRole, ";"]]

def variablesAs (kind : String) : Definition :=
  node kind [modifiers, typeRole, the "declarators", ";"]

def furtherDeclarations : List Definition :=
  [node "scoped_identifier" [as "scope" dottedName, ".", nameRole],
   variablesAs "field_declaration",
   node "record_declaration"
     [modifiers, "record", nameRole, typeParametersRole,
      as "parameters" (the "formal_parameters"), interfacesRole, as "body" (the "class_body")],
   node "annotation_type_declaration"
     [modifiers, "@interface", nameRole, as "body" (the "annotation_type_body")],
   node "annotation_type_body"
     [braced [many (.either
       (theAny ["annotation_type_element_declaration", "constant_declaration",
         "class_declaration", "interface_declaration", "enum_declaration",
         "annotation_type_declaration"]) ";")]],
   node "annotation_type_element_declaration"
     [modifiers, typeRole, as "name" name, "(", ")", dimensions, opt (the "default_value"), ";"],
   part "default_value" ["default", as "value" (the "element_value")],
   node "interface_declaration"
     [modifiers, "interface", nameRole, typeParametersRole, opt (the "extends_interfaces"),
      permitsRole, as "body" (the "interface_body")],
   node "extends_interfaces" ["extends", the "type_list"],
   node "interface_body"
     [braced [many (.either
       (theAny ["constant_declaration", "enum_declaration", "method_declaration",
         "class_declaration", "interface_declaration", "record_declaration",
         "annotation_type_declaration"]) ";")]],
   variablesAs "constant_declaration",
   part "declarators" [.list (as "declarator" (the "variable_declarator"))],
   node "variable_declarator" [the "declarator_id", opt (.all ["=", as "value" initializer])],
   part "declarator_id" [as "name" (.either name (the "underscore_pattern")), dimensions],
   node "array_initializer" [braced [commas initializer, opt ","]]]

def declarations : List Definition :=
  annotationUses ++
  [⟨"declaration", false,
    ranked declarationRank
      [theAny ["module_declaration", "package_declaration", "import_declaration",
        "class_declaration", "record_declaration", "interface_declaration",
        "annotation_type_declaration", "enum_declaration"]]⟩] ++
  modules ++ packages ++ typeDeclarations ++ constructors ++ furtherDeclarations

end Relocate.Source.Grammar
