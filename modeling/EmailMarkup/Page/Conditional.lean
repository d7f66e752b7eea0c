import EmailMarkup.Text.Blank
import EmailMarkup.Text.Search
/-!
# Neighbouring conditional comments

Where one row closes its Outlook table and the next opens one, the two conditional comments between
them become one.
-/
namespace EmailMarkup.Page

open EmailMarkup.Text

def conditionalClose : List Char := ['<', '!', '[', 'e', 'n', 'd', 'i', 'f', ']', '-', '-', '>']

def conditionalOpen : List Char :=
  ['<', '!', '-', '-', '[', 'i', 'f', ' ', 'm', 's', 'o', ' ', '|', ' ', 'I', 'E', ']', '>']

def rowClose : List Char :=
  ['<', '/', 't', 'd', '>', '<', '/', 't', 'r', '>', '<', '/', 't', 'a', 'b', 'l', 'e', '>']

def rectangleClose : List Char :=
  ['<', '/', 'v', ':', 't', 'e', 'x', 't', 'b', 'o', 'x', '>', '<', '/', 'v', ':', 'r', 'e', 'c', 't', '>']

def tableOpen : List Char := ['<', 't', 'a', 'b', 'l', 'e', ' ']

/-- Whether a text ends where a row closes its table. -/
def endsRow (s : List Char) : Bool :=
  endsWith (conditionalOpen ++ rowClose) s ||
    endsWith (conditionalOpen ++ rectangleClose ++ rowClose) s

/-- What follows when the next row opens its table. -/
def nextRow? (s : List Char) : Option (List Char) :=
  (strip? conditionalOpen (trimStart isAsciiBlank s)).filter (startsWith tableOpen)

def joinFrom : Nat → List Char → List Char
  | 0, s => s
  | fuel + 1, s =>
    match cut conditionalClose s with
    | none => s
    | some (before, after) =>
      match nextRow? after with
      | some next =>
        if endsRow before then before ++ joinFrom fuel next
        else before ++ conditionalClose ++ joinFrom fuel after
      | none => before ++ conditionalClose ++ joinFrom fuel after

/-- Joins the conditional comments between rows. -/
def joinConditionals (s : List Char) : List Char := joinFrom s.length s

end EmailMarkup.Page
