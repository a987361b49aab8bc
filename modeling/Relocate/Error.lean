import Relocate.Markup.Attribute

/-!
# Errors

What can go wrong while trees and reports are read, by cause. Matching and relocating cannot fail.
-/

set_option autoImplicit false

namespace Relocate

open Relocate.Text Relocate.Markup

inductive ParseFault where
  | source (line : Nat)
  | badAttribute (fault : AttributeFault)
  | escape (fault : EscapeFault)
  /-- An attribute value or a reference that is not UTF-8. -/
  | encoding (fault : Utf8.Fault)
  /-- A text run that is not UTF-8. -/
  | textEncoding (fault : Utf8.Fault)
  | unexpectedElement (name : String)
  | unexpectedText (text : String)
  | invalidLine (text : String)
  | withoutKind
  | severalRoots
  | unclosedElement
  | unbalancedEnd
  | noElement
  | unknownEntity (name : String)
  deriving DecidableEq, Inhabited

namespace ParseFault

def message : ParseFault → String
  | source line => s!"syntax error at line {line}"
  | badAttribute f => "Attribute error: " ++ f.message
  | escape f => f.message
  | encoding f => "cannot decode input using UTF-8: " ++ f.message
  | textEncoding f => f.message
  | unexpectedElement name => s!"unexpected element <{name}>"
  | unexpectedText text => s!"unexpected text '{text}'"
  | invalidLine text => s!"invalid line '{text}'"
  | withoutKind => "<tree> without kind"
  | severalRoots => "more than one root <tree> element"
  | unclosedElement => "unclosed <tree> element"
  | unbalancedEnd => "unbalanced closing tag"
  | noElement => "no <tree> element found"
  | unknownEntity name => s!"unknown entity &{name};"

end ParseFault

inductive ReportFault where
  | wrongRoot (name : String)
  | noRoot
  | invalidNumber (element text : String)
  deriving DecidableEq, Inhabited

namespace ReportFault

def message : ReportFault → String
  | wrongRoot name => s!"expected <mutations>, found <{name}>"
  | noRoot => "no <mutations> element found"
  | invalidNumber element text => s!"invalid {element} '{text}'"

end ReportFault

inductive FileFault where
  | notFound
  | notDirectory
  | isDirectory
  | notUtf8
  | nameTooLong
  | nullInName
  | other (message : String)
  deriving DecidableEq, Inhabited

namespace FileFault

def message : FileFault → String
  | notFound => "No such file or directory (os error 2)"
  | notDirectory => "Not a directory (os error 20)"
  | isDirectory => "Is a directory (os error 21)"
  | notUtf8 => "stream did not contain valid UTF-8"
  | nameTooLong => "File name too long (os error 36)"
  | nullInName => "file name contained an unexpected NUL byte"
  | other text => text

end FileFault

inductive Error where
  | parse (fault : ParseFault)
  | unsupported (path : String)
  | report (fault : ReportFault)
  | file (fault : FileFault)
  | markup (fault : Fault)
  /-- A document that could be opened but not read. -/
  | unreadable (fault : FileFault)
  deriving DecidableEq, Inhabited

namespace Error

def message : Error → String
  | parse f => "Parse error: " ++ f.message
  | unsupported path => "Unsupported language for file: " ++ path
  | report f => "Report error: " ++ f.message
  | file f => "I/O error: " ++ f.message
  | markup f => "XML error: " ++ f.message
  | unreadable f => "XML error: I/O error: " ++ f.message

end Error

end Relocate
