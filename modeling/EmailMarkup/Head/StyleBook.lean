import EmailMarkup.Text.Blank
/-!
# Fonts and styles of a mail

Everything that ends up in style elements or font links, in the order in which it was added. Fonts
and media queries are kept without repetition.
-/
namespace EmailMarkup.Head

/-- A web font and where its style is found. -/
structure Font where
  name : String
  address : String
  deriving DecidableEq, Repr

/-- The width of a column class on wide screens. -/
structure MediaQuery where
  className : String
  /-- A number, or a length with its unit. -/
  width : String
  /-- The unit, if the width is a number. -/
  unit : String
  deriving DecidableEq, Repr

structure StyleBook where
  fonts : List Font := []
  /-- The addresses that the head gives for font names. -/
  addresses : List (String × String) := []
  styles : List String := []
  componentStyles : List String := []
  /-- Styles to be inlined. -/
  inlineStyles : List String := []
  mediaQueries : List MediaQuery := []
  /-- Keys of the styles that were added once. -/
  keys : List String := []
  /-- Whether some image takes the full width of small screens. -/
  fluidImages : Bool := false
  deriving DecidableEq, Repr, Inhabited

/-- Adds an item at the end of a list, unless the list has it. -/
def addNew {α : Type} [DecidableEq α] (l : List α) (a : α) : List α := if a ∈ l then l else l ++ [a]

/-- Adds a style at the end of a list, unless it is blank. -/
def addStyleTo (l : List String) (css : String) : List String :=
  if Text.isBlankText css then l else l ++ [css]

namespace StyleBook

/-- Adds a font, unless it is there with the same address. -/
def addFont (b : StyleBook) (name address : String) : StyleBook :=
  { b with fonts := addNew b.fonts ⟨name, address⟩ }

def hasFont (b : StyleBook) (name : String) : Bool := b.fonts.any fun f => f.name == name

def setAddress (b : StyleBook) (name address : String) : StyleBook :=
  { b with addresses := (name, address) :: b.addresses.filter fun e => e.1 != name }

def address? (b : StyleBook) (name : String) : Option String := b.addresses.lookup name

/-- Adds a style, unless it is blank. -/
def addStyle (b : StyleBook) (css : String) : StyleBook :=
  { b with styles := addStyleTo b.styles css }

/-- Adds a style, unless its key was used before, and says whether the key was new. -/
def addStyleOnce (b : StyleBook) (key css : String) : StyleBook × Bool :=
  if key ∈ b.keys then (b, false) else (addStyle { b with keys := key :: b.keys } css, true)

/-- Adds a style that a component needs, unless it is blank. -/
def addComponentStyle (b : StyleBook) (css : String) : StyleBook :=
  { b with componentStyles := addStyleTo b.componentStyles css }

/-- Adds a style to be inlined, unless it is blank. -/
def addInlineStyle (b : StyleBook) (css : String) : StyleBook :=
  { b with inlineStyles := addStyleTo b.inlineStyles css }

/-- Adds a media query, unless it is there. -/
def addMediaQuery (b : StyleBook) (q : MediaQuery) : StyleBook :=
  { b with mediaQueries := addNew b.mediaQueries q }

end StyleBook

end EmailMarkup.Head
