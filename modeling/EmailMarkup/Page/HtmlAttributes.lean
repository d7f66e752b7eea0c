import EmailMarkup.Head.AttributeRules
import EmailMarkup.Html.Document
import EmailMarkup.Selector.Match
import EmailMarkup.Selector.Reader
/-!
# Attributes of the finished HTML

The head can give attributes to the elements of the rendered body that a selector describes. They are
written at the end of each start tag; nothing else changes.
-/
namespace EmailMarkup.Page

open EmailMarkup.Html
open EmailMarkup.Text

/-- Whether an attribute of this name can be written. -/
def isAttributeName (name : String) : Bool :=
  match name.toList with
  | [] => false
  | c :: rest => c.isAlpha && rest.all fun c => c.isAlphanum || c == '-'

/-- The attributes of one rule, as they are written. -/
def ruleText (a : Attributes) : List Char :=
  (a.entries.filter fun e => isAttributeName e.1).flatMap fun (name, value) =>
    ' ' :: name.toList ++ ['=', '"'] ++ (escapeAttribute value).toList ++ ['"']

def readRules (table : Head.AttributeTable) : List (List Selector × List Char) :=
  table.filterMap fun (selector, a) => (Selector.parseList? selector).map fun l => (l, ruleText a)

/-- What the rules write into the tag of an element. -/
def addedText (rules : List (List Selector × List Char)) (f : Forest) (id : Nat) : List Char :=
  (rules.filter fun r => r.1.any fun s => s.holds f id).flatMap Prod.snd

def addAttributes (table : Head.AttributeTable) (html : List Char) : List Char :=
  if table.isEmpty then html
  else
    let d := Document.ofChars html
    let rules := readRules table
    d.edit fun id tag => tag.withText (addedText rules d.forest id)

end EmailMarkup.Page
