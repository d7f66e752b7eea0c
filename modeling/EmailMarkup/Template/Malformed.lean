/-!
# What can be wrong with a template's markup
-/
namespace EmailMarkup.Template

/-- A place in a text, both counts from 1. -/
structure Position where
  line : Nat
  column : Nat
  deriving DecidableEq, Repr

/-- The place just after `consumed`. -/
def Position.after (consumed : List Char) : Position where
  line := consumed.count '\n' + 1
  column := (consumed.reverse.takeWhile (· != '\n')).length + 1

/-- Constructs that need an end mark. -/
inductive Construct where
  | comment
  | cdata
  | instruction
  | doctype
  | attributeValue
  deriving DecidableEq, Repr

def Construct.name : Construct → String
  | .comment => "comment"
  | .cdata => "CDATA section"
  | .instruction => "processing instruction"
  | .doctype => "document type declaration"
  | .attributeValue => "attribute value"

inductive Malformed where
  | noRoot
  | contentBeforeRoot
  | contentAfterRoot
  | unclosedElement
  | mismatchedEnd (tag : String)
  | declarationInContent
  | expected (c : Char)
  | unterminated (construct : Construct)
  | nameExpected
  | tagEndExpected (tag : String)
  | repeatedAttribute (name tag : String)
  | quoteExpected
  | angleInValue
  | cdataEndInText
  | referenceWithoutEnd
  | invalidCharacter (name : String)
  | undeclaredEntity (name : String)
  deriving DecidableEq, Repr

def Malformed.message : Malformed → String
  | noRoot => "Premature end of file."
  | contentBeforeRoot => "Content is not allowed in prolog."
  | contentAfterRoot => "Content is not allowed in trailing section."
  | unclosedElement => "XML document structures must start and end within the same entity."
  | mismatchedEnd tag =>
    s!"The element type \"{tag}\" must be terminated by the matching end-tag \"</{tag}>\"."
  | declarationInContent =>
    "The markup in the document following the root element must be well-formed."
  | expected c => s!"Expected '{c}'."
  | unterminated construct => s!"Unterminated {construct.name}."
  | nameExpected => "Expected an element or attribute name."
  | tagEndExpected tag =>
    s!"Element type \"{tag}\" must be followed by either attribute specifications, \">\" or \"/>\"."
  | repeatedAttribute name tag => s!"Attribute \"{name}\" was already specified for element \"{tag}\"."
  | quoteExpected => "Open quote is expected for attribute value."
  | angleInValue => "The value of attribute must not contain the '<' character."
  | cdataEndInText =>
    "The character sequence \"]]>\" must not appear in content unless used to mark the end of a " ++
      "CDATA section."
  | referenceWithoutEnd =>
    "The entity name must immediately follow the '&' in the entity reference."
  | invalidCharacter name => s!"Invalid character reference \"&{name};\"."
  | undeclaredEntity name => s!"The entity \"{name}\" was referenced, but not declared."

end EmailMarkup.Template
