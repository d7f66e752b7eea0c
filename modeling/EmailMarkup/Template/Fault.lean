import EmailMarkup.Template.Malformed
/-!
# Why a template is refused
-/
namespace EmailMarkup.Template

inductive Fault where
  | blank
  | malformed (what : Malformed) (position : Position)
  | wrongRoot (tag : String)
  | tooDeep (limit : Nat)
  deriving DecidableEq, Repr

namespace Fault

def message : Fault → String
  | blank => "MJML source cannot be null or empty"
  | malformed what position =>
    "Failed to parse MJML: " ++ what.message ++ s!" at line {position.line}, column {position.column}"
  | wrongRoot tag => s!"Root element must be <mjml>, found <{tag}>"
  | tooDeep limit => s!"Maximum nesting depth exceeded ({limit})"

/-- Where reading stopped. -/
def position? : Fault → Option Position
  | malformed _ position => some position
  | _ => none

end Fault

end EmailMarkup.Template
