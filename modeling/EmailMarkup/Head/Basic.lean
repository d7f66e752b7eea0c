import EmailMarkup.Head.AttributeRules
import EmailMarkup.Head.Metadata
import EmailMarkup.Head.StyleBook
/-!
# The head of a mail
-/
namespace EmailMarkup

/-- Everything that the head of a template sets, and that rendering the body adds to. -/
structure Head where
  metadata : Head.Metadata := {}
  styles : Head.StyleBook := {}
  rules : Head.AttributeRules := {}
  deriving DecidableEq, Repr, Inhabited

end EmailMarkup
