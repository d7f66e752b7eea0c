import EmailMarkup.Text.Search
/-!
# Named characters

Template markup knows only five named characters, but authors use the names of HTML. Before a
template is read, each HTML name of the table becomes a numeric reference. Unknown names, the five
of markup among them, and lone ampersands stay as they are.
-/
namespace EmailMarkup.Template

open EmailMarkup.Text

/-- Names of punctuation, arrows and spaces. -/
def symbolNames : List (String × Nat) :=
  [("ndash", 8211), ("mdash", 8212), ("lsquo", 8216), ("rsquo", 8217), ("sbquo", 8218),
   ("ldquo", 8220), ("rdquo", 8221), ("bdquo", 8222), ("dagger", 8224), ("Dagger", 8225),
   ("bull", 8226), ("hellip", 8230), ("permil", 8240), ("prime", 8242), ("Prime", 8243),
   ("lsaquo", 8249), ("rsaquo", 8250), ("oline", 8254), ("euro", 8364), ("trade", 8482),
   ("larr", 8592), ("uarr", 8593), ("rarr", 8594), ("darr", 8595), ("harr", 8596), ("fnof", 402),
   ("circ", 710), ("tilde", 732), ("ensp", 8194), ("emsp", 8195), ("thinsp", 8201), ("zwnj", 8204),
   ("zwj", 8205), ("lrm", 8206), ("rlm", 8207)]

/-- Names of the 96 characters from code point 160 on, in order. -/
def latinNames : List String :=
  ["nbsp", "iexcl", "cent", "pound", "curren", "yen", "brvbar", "sect", "uml", "copy", "ordf",
   "laquo", "not", "shy", "reg", "macr", "deg", "plusmn", "sup2", "sup3", "acute", "micro", "para",
   "middot", "cedil", "sup1", "ordm", "raquo", "frac14", "frac12", "frac34", "iquest", "Agrave",
   "Aacute", "Acirc", "Atilde", "Auml", "Aring", "AElig", "Ccedil", "Egrave", "Eacute", "Ecirc",
   "Euml", "Igrave", "Iacute", "Icirc", "Iuml", "ETH", "Ntilde", "Ograve", "Oacute", "Ocirc",
   "Otilde", "Ouml", "times", "Oslash", "Ugrave", "Uacute", "Ucirc", "Uuml", "Yacute", "THORN",
   "szlig", "agrave", "aacute", "acirc", "atilde", "auml", "aring", "aelig", "ccedil", "egrave",
   "eacute", "ecirc", "euml", "igrave", "iacute", "icirc", "iuml", "eth", "ntilde", "ograve",
   "oacute", "ocirc", "otilde", "ouml", "divide", "oslash", "ugrave", "uacute", "ucirc", "uuml",
   "yacute", "thorn", "yuml"]

def entityCode? (name : String) : Option Nat :=
  match symbolNames.lookup name with
  | some code => some code
  | none => (latinNames.idxOf? name).map (160 + ·)

/-- How far from its ampersand the semicolon of a reference is looked for, in bytes. -/
def referenceSpan : Nat := 12

/-- The code point of a named character whose reference is not too long. -/
def namedCode? (name : String) : Option Nat :=
  if name.utf8ByteSize + 1 ≤ referenceSpan then entityCode? name else none

def numericReference (code : Nat) : List Char := ['&', '#'] ++ Nat.toDigits 10 code ++ [';']

/-- The reference to a named character at the front of a text: the numeric one that replaces it, and
how long it is. -/
def entity? : List Char → Option (List Char × Nat)
  | '&' :: r => do
    let (name, _) ← cut [';'] r
    let code ← namedCode? (String.ofList name)
    return (numericReference code, name.length + 2)
  | _ => none

/-- Turns the references to named characters of the table into numeric references. -/
def replaceEntities (s : List Char) : List Char := substitute entity? s

end EmailMarkup.Template
