import EmailMarkup.Style.Declaration
/-!
# Stylesheets

A stylesheet is read into its style rules and those blocks that only make sense in a `<style>`
element: media queries, font faces and keyframes, kept as they are written. Anything else is left
out, and reading never fails.
-/
namespace EmailMarkup.Style

open EmailMarkup.Text

structure Rule where
  selector : String
  declarations : List Declaration
  deriving DecidableEq, Repr, Inhabited

def Rule.shown (r : Rule) : String :=
  r.selector ++ " \x7b " ++ " ".intercalate (r.declarations.map fun d => d.shown ++ ";") ++ " \x7d"

/-- Style rules and kept blocks, each in order. -/
structure Stylesheet where
  rules : List Rule := []
  blocks : List String := []
  deriving DecidableEq, Repr, Inhabited

def commentOpen : List Char := ['/', '*']

def commentClose : List Char := ['*', '/']

/-- The length of the comment at the front of a text. Without an end mark it reaches to the end. -/
def comment? (s : List Char) : Option Nat := do
  let after ← strip? commentOpen s
  match cut commentClose after with
  | some (inside, _) => return inside.length + 4
  | none => return s.length

def withoutComments (s : List Char) : List Char := substitute (fun s => (comment? s).map ([], ·)) s

/-- Braces, which may nest. -/
def braces : Brackets := ⟨['{'], ['}']⟩

/-- The content of a block after its opening brace, and what follows its closing brace. -/
def block? (s : List Char) : Option (List Char × List Char) := cutOutside braces '}' {} s

/-- Whether blocks of this name are kept. -/
def isKeptBlock (name : String) : Bool :=
  ["media", "keyframes", "font-face"].contains name ||
    ["-webkit-keyframes", "-moz-keyframes"].any fun p => (dropStart? p name).isSome

def blockName (s : List Char) : List Char :=
  s.takeWhile fun c => !(isBlank c || c == '{' || c == ';')

/-- Adds a rule, unless it declares nothing. -/
def Stylesheet.addRule (sheet : Stylesheet) (selector body : List Char) : Stylesheet :=
  match parseDeclarations body with
  | [] => sheet
  | declarations =>
    { sheet with rules := ⟨String.ofList selector, declarations⟩ :: sheet.rules }

/-- Reads what begins with `@`. A block that is kept ends with its closing brace, anything else with
the next semicolon. -/
def readAtRule (sheet : Stylesheet) (s : List Char) : Stylesheet × List Char :=
  let name := blockName (s.drop 1)
  if isKeptBlock (lower (String.ofList name)) then
    match cut ['{'] (s.drop (1 + name.length)) with
    | none => (sheet, [])
    | some (before, after) =>
      match block? after with
      | none => (sheet, [])
      | some (body, rest) =>
        let text := '@' :: name ++ before ++ ['{'] ++ body ++ ['}']
        ({ sheet with blocks := String.ofList (trimBoth isBlank text) :: sheet.blocks }, rest)
  else
    match cut [';'] s with
    | none => (sheet, [])
    | some (_, rest) => (sheet, rest)

/-- Reads a style rule. A brace without a selector before it is passed over. -/
def readRule (sheet : Stylesheet) (s : List Char) : Stylesheet × List Char :=
  match cut ['{'] s with
  | none => (sheet, [])
  | some (before, after) =>
    let selector := trimBoth isBlank before
    if selector.isEmpty then (sheet, after)
    else
      match block? after with
      | none => (sheet, [])
      | some (body, rest) => (sheet.addRule selector body, rest)

/-- Reads rules and blocks, the last ones first. The fuel is the length of the text: every step takes
some of it. -/
def readSheet : Nat → Stylesheet → List Char → Stylesheet
  | 0, sheet, _ => sheet
  | fuel + 1, sheet, s =>
    match trimStart isBlank s with
    | [] => sheet
    | c :: r =>
      let (sheet, rest) := if c = '@' then readAtRule sheet (c :: r) else readRule sheet (c :: r)
      readSheet fuel sheet rest

def Stylesheet.ofChars (s : List Char) : Stylesheet :=
  let s := withoutComments s
  let sheet := readSheet s.length {} s
  ⟨sheet.rules.reverse, sheet.blocks.reverse⟩

def Stylesheet.parse (css : String) : Stylesheet := .ofChars css.toList

end EmailMarkup.Style
