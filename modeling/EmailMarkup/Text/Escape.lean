/-!
# Escaping for HTML attributes and CSS addresses
-/
namespace EmailMarkup.Text

def attributeChar (c : Char) : List Char :=
  match c with
  | '&' => ['&', 'a', 'm', 'p', ';']
  | '"' => ['&', 'q', 'u', 'o', 't', ';']
  | '\'' => ['&', '#', '3', '9', ';']
  | '<' => ['&', 'l', 't', ';']
  | '>' => ['&', 'g', 't', ';']
  | _ => [c]

/-- `s` with the five characters that HTML reads specially written as references. -/
def escapeAttribute (s : String) : String := String.ofList (s.toList.flatMap attributeChar)

/-- Whether a character ends or escapes inside `url(…)`. -/
def isAddressSpecial (c : Char) : Bool :=
  c == '\\' || c == '"' || c == '\'' || c == '(' || c == ')'

def addressChar (c : Char) : List Char := if isAddressSpecial c then ['\\', c] else [c]

/-- `s` with a backslash before each character that could end a CSS address. -/
def escapeAddress (s : String) : String := String.ofList (s.toList.flatMap addressChar)

end EmailMarkup.Text
