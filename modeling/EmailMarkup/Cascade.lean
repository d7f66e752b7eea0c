import EmailMarkup.Head.AttributeRules
import EmailMarkup.Node
import EmailMarkup.Text.Blank
/-!
# Where attribute values come from

A component reads an attribute from the first of five places that has it: the node itself, the
classes it names, the defaults of its tag, the defaults of all tags, and the component's own
defaults. Short colours from the first four places are written out in full.
-/
namespace EmailMarkup

/-! ## Short colours -/

def isHexDigit (c : Char) : Bool := c.isDigit || ('a' ≤ c && c ≤ 'f') || ('A' ≤ c && c ≤ 'F')

/-- Writes a colour of three or four digits with each digit doubled; anything else stays as it
is. -/
def expandColorChars (s : List Char) : List Char :=
  match s with
  | '#' :: digits =>
    if (digits.length == 3 || digits.length == 4) && digits.all isHexDigit then
      '#' :: digits.flatMap fun d => [d, d]
    else s
  | _ => s

def expandColor (s : String) : String := String.ofList (expandColorChars s.toList)

/-! ## The cascade -/

/-- A node with the places its attributes come from. -/
structure Cascade where
  node : Node
  rules : Head.AttributeRules
  /-- The component's own defaults. -/
  defaults : List (String × String)

namespace Cascade

open Head

/-- The value that the classes of the node give, the first class that has one. -/
def fromClasses? (c : Cascade) (name : String) : Option String := do
  let classes ← c.node.attribute? classAttribute
  (Text.words classes).findSome? fun k => (c.rules.class? k).bind fun a => a.get? name

def fromTag? (c : Cascade) (name : String) : Option String := do
  let tag ← c.node.tag?
  let defaults ← c.rules.defaults? tag
  defaults.get? name

/-- The value that the defaults of all tags give. -/
def fromEveryTag? (c : Cascade) (name : String) : Option String :=
  (c.rules.defaults? everyTag).bind fun a => a.get? name

/-- The value that the template gives. -/
def given? (c : Cascade) (name : String) : Option String :=
  c.node.attribute? name <|> c.fromClasses? name <|> c.fromTag? name <|> c.fromEveryTag? name

def get? (c : Cascade) (name : String) : Option String :=
  match c.given? name with
  | some value => some (expandColor value)
  | none => c.defaults.lookup name

def getD (c : Cascade) (name fallback : String) : String := (c.get? name).getD fallback

/-- The value of an attribute, unless it is empty. -/
def nonEmpty? (c : Cascade) (name : String) : Option String :=
  (c.get? name).filter fun value => !value.isEmpty

end Cascade

end EmailMarkup
