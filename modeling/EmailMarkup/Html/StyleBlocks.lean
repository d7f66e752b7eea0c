import EmailMarkup.Text.Blank
import EmailMarkup.Text.Search
/-!
# `<style>` elements

Style elements are taken out of HTML to be inlined, and what cannot be inlined is put back as one
new element.
-/
namespace EmailMarkup.Html

open EmailMarkup.Text

/-- The first complete `<style>` element: what stands before it, its content, and the rest. -/
def styleBlock? (s : List Char) : Option (List Char × List Char × List Char) := do
  let (before, r) ← cutFold ['<', 's', 't', 'y', 'l', 'e'] s
  let (_, r) ← cut ['>'] r
  let (content, r) ← cutFold ['<', '/', 's', 't', 'y', 'l', 'e'] r
  let (_, rest) ← cut ['>'] r
  return (before, content, rest)

/-- The style of an element's content: trimmed, and ended by a newline unless it is blank. -/
def styleText (content : List Char) : List Char :=
  match trimBoth isBlank content with
  | [] => []
  | css => css ++ ['\n']

/-- HTML without its complete `<style>` elements, and their styles. The fuel is the length of the
text: every element takes some of it. -/
def extractFrom : Nat → List Char → List Char × List Char
  | 0, s => (s, [])
  | fuel + 1, s =>
    match styleBlock? s with
    | none => (s, [])
    | some (before, content, rest) =>
      let (html, css) := extractFrom fuel rest
      (before ++ html, styleText content ++ css)

def extractStyles (s : List Char) : List Char × List Char := extractFrom s.length s

/-- Puts styles back as one `<style>` element: before the end of the head, else after the start of
the body, else at the very start. -/
def insertStyles (s css : List Char) : List Char :=
  let block := "<style type=\"text/css\">\n".toList ++ css ++ "</style>\n".toList
  match cutFold "</head>".toList s with
  | some (before, _) => before ++ block ++ s.drop before.length
  | none =>
    match (do
      let (before, r) ← cutFold "<body".toList s
      let (inside, _) ← cut ['>'] r
      return before.length + 5 + inside.length + 1) with
    | some at_ => s.take at_ ++ ['\n'] ++ block ++ s.drop at_
    | none => block ++ s

end EmailMarkup.Html
