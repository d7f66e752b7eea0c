import EmailMarkup.Text.Search
/-!
# Direction of text
-/
namespace EmailMarkup

/-- Which way the text of a mail runs. -/
inductive Direction where
  | leftToRight
  | rightToLeft
  | auto
  deriving DecidableEq, Repr, Inhabited

namespace Direction

def text : Direction → String
  | leftToRight => "ltr"
  | rightToLeft => "rtl"
  | auto => "auto"

/-- The name of a direction in a shown configuration. -/
def shown : Direction → String
  | leftToRight => "Ltr"
  | rightToLeft => "Rtl"
  | auto => "Auto"

/-- The direction with exactly this text. -/
def ofText? (s : String) : Option Direction :=
  [leftToRight, rightToLeft, auto].find? fun d => d.text == s

/-- The direction with this text, in small or capital letters. -/
def parse? (s : String) : Option Direction := ofText? (Text.lower s)

end Direction

end EmailMarkup
