import EmailMarkup.Attributes
import EmailMarkup.Error
import EmailMarkup.Text.Blank
import EmailMarkup.Text.Search
/-!
# Includes

The element `<mj-include path="…">` stands for content that is kept elsewhere. A resolver turns the
path into text. How the text is embedded depends on the kind of the include.
-/
namespace EmailMarkup.Include

def includeTag : String := "mj-include"

/-! ## Kinds -/

/-- How included content is embedded. -/
inductive Kind where
  /-- Template markup, spliced as nodes. -/
  | markup
  /-- HTML, as one block. -/
  | html
  /-- A stylesheet. -/
  | css
  /-- A stylesheet to be inlined. -/
  | inlineCss
  deriving DecidableEq, Repr

namespace Kind

def name : Kind → String
  | markup => "mjml"
  | html => "html"
  | css => "css"
  | inlineCss => "css-inline"

/-- The kind of a name, whose letters may be large or small. -/
def parse? (s : String) : Option Kind :=
  [markup, html, css, inlineCss].find? fun k => Text.sameLetters s k.name

end Kind

/-! ## Resolvers -/

/-- What a resolver knows about the include it is asked for. -/
structure Context where
  kind : Kind
  /-- The path of the include around this one; none in the template itself. -/
  within : Option String := none
  /-- How many includes are around this one. -/
  depth : Nat := 0
  deriving DecidableEq, Repr

def Context.shown (c : Context) : String :=
  match c.within with
  | some path => s!"{c.kind.name} include from {path} at depth {c.depth}"
  | none => s!"{c.kind.name} include at depth {c.depth}"

/-- Turns the path of an include into its content. -/
abbrev Resolver (m : Type → Type) := String → Context → ExceptT Error m String

/-! ## Limits -/

/-- How far expansion may go. -/
structure Limits where
  /-- How deep includes may nest. -/
  includeDepth : Nat := 50
  /-- How many characters an include may hold. -/
  inputSize : Nat := 18446744073709551615
  /-- How deep the elements of an include may nest. -/
  nestingDepth : Nat := 100
  deriving DecidableEq, Repr

def Limits.check (l : Limits) : Except Error Unit :=
  if l.includeDepth == 0 then .error (.setting .zeroIncludeDepth)
  else if l.inputSize == 0 || l.nestingDepth == 0 then .error (.setting .zeroIncludeLimit)
  else .ok ()

/-! ## Asking for an include -/

/-- What an include asks for. -/
structure Request where
  path : String
  context : Context
  deriving DecidableEq, Repr

/-- What an include with these attributes asks for. `chain` holds the paths of the includes around
it, the innermost first. -/
def request (chain : List String) (a : Attributes) : Except Error Request :=
  match (a.get? "path").filter fun path => !Text.isBlankText path with
  | none => .error (.inclusion .withoutPath)
  | some path =>
    if chain.contains path then .error (.inclusion (.circular path))
    else
      let declared := (a.get? "type").getD "mjml"
      match Kind.parse? declared with
      | none => .error (.inclusion (.unknownKind path declared))
      | some kind => .ok ⟨path, ⟨kind, chain.head?, chain.length⟩⟩

/-- Refuses content that is too long. -/
def checkSize (limits : Limits) (path content : String) : Except Error Unit :=
  if limits.inputSize < content.length then
    .error (.inclusion (.oversized path content.length limits.inputSize))
  else .ok ()

def fetch {m : Type → Type} [Monad m] (limits : Limits) (resolve : Resolver m)
    (chain : List String) (a : Attributes) : ExceptT Error m (Request × String) := do
  let r ← request chain a
  let content ← resolve r.path r.context
  checkSize limits r.path content
  return (r, content)

end EmailMarkup.Include
