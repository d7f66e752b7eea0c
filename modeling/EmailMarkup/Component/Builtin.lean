/-!
# Built-in components

The tags that the compiler understands by itself, and the attribute values each of them starts from.
-/
namespace EmailMarkup

inductive Builtin where
  | head
  | title
  | preview
  | breakpoint
  | font
  | style
  | attributes
  | htmlAttributes
  | raw
  | body
  | sectionRow
  | column
  | group
  | wrapper
  | text
  | image
  | button
  | divider
  | spacer
  | table
  deriving DecidableEq, Repr

namespace Builtin

def all : List Builtin :=
  [head, title, preview, breakpoint, font, style, attributes, htmlAttributes, raw, body, sectionRow,
    column, group, wrapper, text, image, button, divider, spacer, table]

def tag : Builtin → String
  | head => "mj-head"
  | title => "mj-title"
  | preview => "mj-preview"
  | breakpoint => "mj-breakpoint"
  | font => "mj-font"
  | style => "mj-style"
  | attributes => "mj-attributes"
  | htmlAttributes => "mj-html-attributes"
  | raw => "mj-raw"
  | body => "mj-body"
  | sectionRow => "mj-section"
  | column => "mj-column"
  | group => "mj-group"
  | wrapper => "mj-wrapper"
  | text => "mj-text"
  | image => "mj-image"
  | button => "mj-button"
  | divider => "mj-divider"
  | spacer => "mj-spacer"
  | table => "mj-table"

def ofTag? (s : String) : Option Builtin := all.find? fun b => b.tag == s

/-- Whether a component belongs in the head. Raw markup may stand in the head and in the body. -/
def isHead : Builtin → Bool
  | head | title | preview | breakpoint | font | style | attributes | htmlAttributes | raw => true
  | _ => false

/-! ## Defaults -/

/-- The fonts of text unless said otherwise. -/
def fontFamily : String := "Ubuntu, Helvetica, Arial, sans-serif"

/-- What sections and wrappers start from. -/
def containerDefaults (direction textPadding : List (String × String)) : List (String × String) :=
  [("background-color", ""), ("background-position", "top center"), ("background-position-x", ""),
    ("background-position-y", ""), ("background-repeat", "repeat"), ("background-size", "auto"),
    ("background-url", ""), ("border", "none"), ("border-bottom", ""), ("border-left", ""),
    ("border-radius", ""), ("border-right", ""), ("border-top", "")] ++ direction ++
    [("full-width", ""), ("padding", "20px 0"), ("text-align", "center")] ++ textPadding

/-- The values that the attributes of a component have when the template gives none. -/
def defaults : Builtin → List (String × String)
  | body => [("width", "600px")]
  | sectionRow => containerDefaults [("direction", "ltr")] [("text-padding", "4px 4px 4px 0")]
  | wrapper => containerDefaults [] []
  | column =>
    [("background-color", ""), ("border", "none"), ("border-bottom", ""), ("border-left", ""),
      ("border-radius", ""), ("border-right", ""), ("border-top", ""), ("direction", "ltr"),
      ("inner-background-color", ""), ("inner-border", ""), ("inner-border-bottom", ""),
      ("inner-border-left", ""), ("inner-border-radius", ""), ("inner-border-right", ""),
      ("inner-border-top", ""), ("padding", ""), ("padding-bottom", ""), ("padding-left", ""),
      ("padding-right", ""), ("padding-top", ""), ("vertical-align", "top"), ("width", "")]
  | group =>
    [("background-color", ""), ("direction", "ltr"), ("vertical-align", "top"), ("width", "")]
  | text =>
    [("align", "left"), ("color", "#000000"), ("container-background-color", ""),
      ("font-family", fontFamily), ("font-size", "13px"), ("font-style", ""), ("font-weight", ""),
      ("height", ""), ("letter-spacing", ""), ("line-height", "1"), ("padding", "10px 25px"),
      ("padding-bottom", ""), ("padding-left", ""), ("padding-right", ""), ("padding-top", ""),
      ("text-decoration", ""), ("text-transform", "")]
  | image =>
    [("align", "center"), ("alt", ""), ("border", "0"), ("border-radius", ""),
      ("container-background-color", ""), ("fluid-on-mobile", ""), ("height", "auto"), ("href", ""),
      ("padding", "10px 25px"), ("sizes", ""), ("src", ""), ("srcset", ""), ("target", "_blank"),
      ("title", ""), ("width", "")]
  | button =>
    [("align", "center"), ("background-color", "#414141"), ("border", "none"),
      ("border-bottom", ""), ("border-left", ""), ("border-radius", "3px"), ("border-right", ""),
      ("border-top", ""), ("color", "#ffffff"), ("container-background-color", ""),
      ("font-family", fontFamily), ("font-size", "13px"), ("font-style", ""),
      ("font-weight", "normal"), ("height", ""), ("href", "#"), ("inner-padding", "10px 25px"),
      ("letter-spacing", ""), ("line-height", "120%"), ("padding", "10px 25px"), ("rel", ""),
      ("target", "_blank"), ("text-align", ""), ("text-decoration", "none"),
      ("text-transform", "none"), ("vertical-align", "middle"), ("width", "")]
  | divider =>
    [("align", "center"), ("border-color", "#000000"), ("border-style", "solid"),
      ("border-width", "4px"), ("container-background-color", ""), ("padding", "10px 25px"),
      ("width", "100%")]
  | spacer =>
    [("container-background-color", ""), ("height", "0px"), ("padding", ""), ("vertical-align", "")]
  | table =>
    [("align", "left"), ("border", "none"), ("cellpadding", "0"), ("cellspacing", "0"),
      ("color", "#000000"), ("container-background-color", ""), ("font-family", fontFamily),
      ("font-size", "13px"), ("line-height", "22px"), ("padding", "10px 25px"),
      ("table-layout", "auto"), ("width", "100%")]
  | raw => [("position", "")]
  | head | title | preview | breakpoint | font | style | attributes | htmlAttributes => []

end Builtin

end EmailMarkup
