import EmailMarkup.Html.Document
import EmailMarkup.Html.StyleBlocks
import EmailMarkup.Selector.Match
import EmailMarkup.Selector.Reader
import EmailMarkup.Style.Stylesheet
/-!
# Inlining styles

Mail programs drop style elements, so the declarations of a stylesheet are moved into the `style`
attributes of the elements that its rules describe. For each element the rules apply in order of
specificity, then of the stylesheet, onto the style the element has. Rules with pseudo-classes and
kept blocks cannot be inlined.

Elements are treated in document order, and a selector sees the `style` attributes that earlier
elements have got by then.
-/
namespace EmailMarkup.Html

open EmailMarkup.Text
open EmailMarkup.Style

structure InlineRule where
  selectors : List Selector
  declarations : List Declaration

/-- The rule as one that can be inlined: not if its selectors cannot be read or have a
pseudo-class. -/
def inlineRule? (r : Rule) : Option InlineRule :=
  match Selector.parseList? r.selector with
  | some selectors =>
    if selectors.any Selector.hasPseudo then none else some ⟨selectors, r.declarations⟩
  | none => none

/-- Whether a rule has to stay in a style element. A rule that cannot be read is dropped. -/
def isKeptRule (r : Rule) : Bool :=
  match Selector.parseList? r.selector with
  | some selectors => selectors.any Selector.hasPseudo
  | none => false

/-- The rules that describe an element, with how specific they are about it, in the order of the
stylesheet. -/
def matching (rules : List InlineRule) (f : Forest) (id : Nat) :
    List (Specificity × List Declaration) :=
  rules.filterMap fun r =>
    (Selector.bestMatch? r.selectors f id).map fun s => (s, r.declarations)

/-- The new style of an element, unless no rule describes it. -/
def styleOf? (rules : List InlineRule) (f : Forest) (id : Nat) : Option String :=
  match matching rules f id with
  | [] => none
  | found =>
    let own := parseDeclarations ((f.attribute? id "style").getD "").toList
    let sorted := found.mergeSort fun a b => a.1.le b.1
    some (inlineText (sorted.foldl (fun style r => merge style r.2) own))

def newStyles (rules : List InlineRule) : Forest → List Nat → List (Nat × String)
  | _, [] => []
  | f, id :: rest =>
    match styleOf? rules f id with
    | none => newStyles rules f rest
    | some style => (id, style) :: newStyles rules (f.setAttribute id "style" style) rest

def styleValue (style : String) : List Char := replaceAll ['"'] ['&', 'q', 'u', 'o', 't', ';'] style.toList

/-- A start tag with the new style of its element, if it has one. -/
def writeStyled (styles : List (Nat × String)) (id : Nat) (tag : StartTag) : List Char :=
  match styles.lookup id with
  | some style => if style.isEmpty then tag.text else tag.withStyle (styleValue style)
  | none => tag.text

def applyRules (rules : List InlineRule) (html : List Char) : List Char :=
  let d := Document.ofChars html
  d.edit (writeStyled (newStyles rules d.forest d.elements))

/-- What of a stylesheet stays in a style element, a line each. -/
def keptStyles (sheet : Stylesheet) : List Char :=
  ((sheet.rules.filter isKeptRule).map Rule.shown ++ sheet.blocks).flatMap fun text =>
    text.toList ++ ['\n']

/-- The stylesheet of a document: its own style elements and additional styles. -/
def allStyles (own additional : List Char) : List Char :=
  (if own.all isBlank then [] else own ++ ['\n']) ++
    if additional.all isBlank then [] else additional

/-- Inlines the style elements of HTML, and additional styles. The style elements go, and what
cannot be inlined comes back as one of them. -/
def inlineChars (html additional : List Char) : List Char :=
  let (bare, own) := extractStyles html
  let css := allStyles own additional
  if html.isEmpty || css.isEmpty then html
  else
    let sheet := Stylesheet.ofChars css
    let result := applyRules (sheet.rules.filterMap inlineRule?) bare
    let kept := keptStyles sheet
    if kept.isEmpty then result else insertStyles result kept

def inline (html : String) (additional : String) : String :=
  String.ofList (inlineChars html.toList additional.toList)

/-- Inlines a stylesheet, and leaves the style elements of the HTML alone. What cannot be inlined is
dropped. -/
def inlineAdditional (html css : String) : String :=
  String.ofList (applyRules ((Stylesheet.parse css).rules.filterMap inlineRule?) html.toList)

end EmailMarkup.Html
