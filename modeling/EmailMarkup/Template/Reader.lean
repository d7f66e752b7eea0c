import EmailMarkup.Node
import EmailMarkup.Template.Fault
import EmailMarkup.Template.Mark
import EmailMarkup.Template.Reference
import EmailMarkup.Text.Alphabetic
import EmailMarkup.Text.Blank
/-!
# Reading markup

Markup is read from a list of characters; every reader returns what it read and the rest. The pieces
of an element's content are tokens. An element ends with its own end tag, so reading keeps the
elements that are still open, innermost first.

Outside the root element only blanks, comments and processing instructions may stand, and before it
also document type declarations.
-/
namespace EmailMarkup.Template

open EmailMarkup.Text

/-- Why reading stopped: a fault found at a suffix of the text, a root of another name, or an element
below the deepest level allowed. -/
inductive Stop where
  | malformed (what : Malformed) (rest : List Char)
  | wrongRoot (tag : String)
  | tooDeep
  deriving DecidableEq, Repr

/-! ## Names and values -/

def isNameStart (c : Char) : Bool := isAlphabetic c || c == '_' || c == ':'

def isNameChar (c : Char) : Bool := isNameStart c || c.isDigit || c == '-' || c == '.'

def skipBlank (s : List Char) : List Char := s.dropWhile isMarkupBlank

def readName (s : List Char) : Except Stop (String × List Char) :=
  match s with
  | c :: r =>
    if isNameStart c then .ok (String.ofList (c :: r.takeWhile isNameChar), r.dropWhile isNameChar)
    else .error (.malformed .nameExpected s)
  | [] => .error (.malformed .nameExpected [])

def readChar (c : Char) (s : List Char) : Except Stop (List Char) :=
  match s with
  | d :: r => if d = c then .ok r else .error (.malformed (.expected c) s)
  | [] => .error (.malformed (.expected c) [])

/-- Reads up to and including `close`, and returns what stands before it. -/
def readUntil (close : List Char) (construct : Construct) (s : List Char) :
    Except Stop (List Char × List Char) :=
  match cut close s with
  | some found => .ok found
  | none => .error (.malformed (.unterminated construct) [])

/-- A blank in an attribute value stands for a space. -/
def normalBlank (c : Char) : Char := if c == '\t' || c == '\n' || c == '\r' then ' ' else c

/-- The value of an attribute, given what stands between its quotes. `inside` is the text from the
opening quote on, where faults of the references are reported. -/
def attributeValue (raw inside : List Char) : Except Stop String :=
  match cut ['<'] raw with
  | some (before, _) => .error (.malformed .angleInValue (inside.drop before.length))
  | none =>
    match decode raw with
    | .ok value => .ok (String.ofList (value.map normalBlank))
    | .error what => .error (.malformed what inside)

def readValue (s : List Char) : Except Stop (String × List Char) :=
  match s with
  | q :: r =>
    if q == '"' || q == '\'' then do
      let (raw, rest) ← readUntil [q] .attributeValue r
      return (← attributeValue raw r, rest)
    else .error (.malformed .quoteExpected s)
  | [] => .error (.malformed .quoteExpected [])

/-! ## Tags -/

def readAttribute (s : List Char) : Except Stop ((String × String) × List Char) := do
  let (name, r) ← readName s
  let r ← readChar '=' (skipBlank r)
  let (value, r) ← readValue (skipBlank r)
  return ((name, value), r)

structure StartTag where
  tag : String
  attributes : Attributes
  /-- Whether the tag ends its element too. -/
  closed : Bool

/-- Reads the attributes of a start tag and its end. Attributes are set apart by blanks, and none
comes twice. The fuel is the length of the text: every attribute takes some of it. -/
def readAttributes (tag : String) :
    Nat → Attributes → List Char → Except Stop (StartTag × List Char)
  | 0, _, _ => .error (.malformed (.tagEndExpected tag) [])
  | fuel + 1, attributes, s =>
    match skipBlank s with
    | '/' :: '>' :: rest => .ok (⟨tag, attributes, true⟩, rest)
    | '>' :: rest => .ok (⟨tag, attributes, false⟩, rest)
    | r =>
      if r.isEmpty || r.length == s.length then .error (.malformed (.tagEndExpected tag) r)
      else do
        let ((name, value), rest) ← readAttribute r
        if attributes.contains name then throw (.malformed (.repeatedAttribute name tag) rest)
        readAttributes tag fuel (attributes.insert name value) rest

def readStartTag (s : List Char) : Except Stop (StartTag × List Char) := do
  let r ← readChar '<' s
  let (tag, r) ← readName r
  readAttributes tag r.length .empty r

/-- Reads an end tag, after its `</`. -/
def readEndTag (s : List Char) : Except Stop (String × List Char) := do
  let (tag, r) ← readName s
  let r ← readChar '>' (skipBlank r)
  return (tag, r)

/-! ## Content -/

/-- A piece of an element's content. -/
inductive Token where
  | start (tag : StartTag)
  | stop (tag : String)
  | comment (content : String)
  | cdata (content : String)
  | instruction
  | text (content : String)

/-- Reads text up to the next tag. -/
def readText (s : List Char) : Except Stop (Token × List Char) :=
  let raw := s.takeWhile (· != '<')
  match cut cdataClose raw with
  | some (before, _) => .error (.malformed .cdataEndInText (s.drop before.length))
  | none =>
    match decode raw with
    | .ok content => .ok (.text (String.ofList content), s.dropWhile (· != '<'))
    | .error what => .error (.malformed what s)

/-- Reads a piece of content that begins with `<`. -/
def readMarkup (s : List Char) : Except Stop (Token × List Char) :=
  match strip? endTagOpen s with
  | some r => do
    let (tag, rest) ← readEndTag r
    return (.stop tag, rest)
  | none =>
  match strip? commentOpen s with
  | some r => do
    let (content, rest) ← readUntil commentClose .comment r
    return (.comment (String.ofList content), rest)
  | none =>
  match strip? cdataOpen s with
  | some r => do
    let (content, rest) ← readUntil cdataClose .cdata r
    return (.cdata (String.ofList content), rest)
  | none =>
  if startsWith instructionOpen s then do
    let (_, rest) ← readUntil instructionClose .instruction s
    return (.instruction, rest)
  else if startsWith declarationOpen s then .error (.malformed .declarationInContent s)
  else do
    let (tag, rest) ← readStartTag s
    return (.start tag, rest)

def readToken (s : List Char) : Except Stop (Token × List Char) :=
  if s.head? = some '<' then readMarkup s else readText s

/-- An element that is being read: its children so far, the last one first. -/
structure Open where
  tag : String
  attributes : Attributes
  before : List Node

namespace Open

def add (o : Open) (n : Node) : Open := { o with before := n :: o.before }

def node (o : Open) : Node := .element o.tag o.attributes o.before.reverse

end Open

/-- Whether the text begins a start tag. -/
def opensElement : List Char → Bool
  | '<' :: r => r.head? != some '/' && r.head? != some '!' && r.head? != some '?'
  | _ => false

/-- The leaf that a token stands for. Text of blanks alone is layout of the template, and no leaf. -/
def Token.leaf? : Token → Option Node
  | comment content => some (.comment content)
  | cdata content => some (.cdata content)
  | text content => if content.toList.all isAsciiBlank then none else some (.text content)
  | _ => none

/-- Reads content until the outermost open element ends. `top` is the innermost open element, `outer`
are those around it. The fuel is the length of the text: every token takes some of it. -/
def readContent (maxDepth : Nat) :
    Nat → Open → List Open → List Char → Except Stop (Node × List Char)
  | 0, _, _, _ | _, _, _, [] => .error (.malformed .unclosedElement [])
  | fuel + 1, top, outer, s =>
    if opensElement s && maxDepth < outer.length + 1 then .error .tooDeep
    else
      match readToken s with
      | .error stop => .error stop
      | .ok (.start t, rest) =>
        if t.closed then
          readContent maxDepth fuel (top.add (.element t.tag t.attributes [])) outer rest
        else readContent maxDepth fuel ⟨t.tag, t.attributes, []⟩ (top :: outer) rest
      | .ok (.stop tag, rest) =>
        if tag = top.tag then
          match outer with
          | [] => .ok (top.node, rest)
          | parent :: outer => readContent maxDepth fuel (parent.add top.node) outer rest
        else .error (.malformed (.mismatchedEnd top.tag) rest)
      | .ok (token, rest) =>
        match token.leaf? with
        | some leaf => readContent maxDepth fuel (top.add leaf) outer rest
        | none => readContent maxDepth fuel top outer rest

/-! ## Documents -/

/-- Reads one item that may stand outside the root element, if there is one. -/
def readMisc? (prolog : Bool) (s : List Char) : Except Stop (Option (List Char)) :=
  if startsWith instructionOpen s then do
    let (_, rest) ← readUntil instructionClose .instruction s
    return some rest
  else
    match strip? commentOpen s with
    | some inside => do
      let (_, rest) ← readUntil commentClose .comment inside
      return some rest
    | none =>
      if prolog && startsWith doctypeOpen s then do
        let (_, rest) ← readUntil tagClose .doctype s
        return some rest
      else .ok none

/-- Skips what may stand outside the root element. The fuel is the length of the text: every item
takes some of it. -/
def skipMiscFrom (prolog : Bool) : Nat → List Char → Except Stop (List Char)
  | 0, s => .ok s
  | fuel + 1, s => do
    match ← readMisc? prolog (skipBlank s) with
    | none => return skipBlank s
    | some rest => skipMiscFrom prolog fuel rest

def skipMisc (prolog : Bool) (s : List Char) : Except Stop (List Char) :=
  skipMiscFrom prolog s.length s

def rootTag : String := "mjml"

/-- Reads the root element, with what stands around it. -/
def readDocument (maxDepth : Nat) (s : List Char) : Except Stop Node := do
  let r ← skipMisc true s
  if r.isEmpty then
    throw (.malformed .noRoot r)
  if r.head? != some '<' || startsWith endTagOpen r then
    throw (.malformed .contentBeforeRoot r)
  let (root, r) ← readStartTag r
  if root.tag != rootTag then
    throw (.wrongRoot root.tag)
  let top : Open := ⟨root.tag, root.attributes, []⟩
  let (node, r) ← if root.closed then pure (top.node, r) else readContent maxDepth r.length top [] r
  let r ← skipMisc false r
  if r.isEmpty then
    return node
  throw (.malformed .contentAfterRoot r)

end EmailMarkup.Template
