import EmailMarkup.Template.Protect
import EmailMarkup.Template.Reader
/-!
# Templates

A template is the element `<mjml>` with what it holds. Its text is protected first and then read as
markup, so the position of a fault is a place in the protected text.
-/
namespace EmailMarkup

/-- The attributes and the children of the root element. -/
structure Template where
  attributes : Attributes
  children : List Node
  deriving Repr, Inhabited

namespace Template

/-- The deepest level of elements below the root, unless said otherwise. -/
def defaultMaxDepth : Nat := 100

def headTag : String := "mj-head"

def bodyTag : String := "mj-body"

def root (t : Template) : Node := .element rootTag t.attributes t.children

def head? (t : Template) : Option Node := t.root.child? headTag

def body? (t : Template) : Option Node := t.root.child? bodyTag

/-- What a stop while reading `text` amounts to. -/
def Stop.fault (maxDepth : Nat) (text : List Char) : Stop → Fault
  | .malformed what rest => .malformed what (.after (text.take (text.length - rest.length)))
  | .wrongRoot tag => .wrongRoot tag
  | .tooDeep => .tooDeep maxDepth

/-- Reads a template from a protected text. -/
def ofProtected (maxDepth : Nat) (text : List Char) : Except Fault Template :=
  match readDocument maxDepth text with
  | .ok n => .ok ⟨n.attributes, n.children⟩
  | .error stop => .error (stop.fault maxDepth text)

/-- Reads a template whose elements nest at most `maxDepth` levels below the root. -/
def ofChars (maxDepth : Nat) (source : List Char) : Except Fault Template :=
  if source.all Text.isBlank then .error .blank else ofProtected maxDepth (protect source)

def parse (maxDepth : Nat) (source : String) : Except Fault Template :=
  ofChars maxDepth source.toList

end Template

end EmailMarkup
