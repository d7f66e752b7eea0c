import EmailMarkup.Attributes
import EmailMarkup.Text.Escape
/-!
# Template nodes

A template is a tree of elements with text, verbatim text and comments as leaves. Writing a node
back as markup escapes attribute values and nothing else: text is written as it stands, so the
embedded HTML of a template comes back as its author wrote it.
-/
namespace EmailMarkup

inductive Node where
  | element (tag : String) (attributes : Attributes) (children : List Node)
  | text (content : String)
  | cdata (content : String)
  | comment (content : String)
  deriving Repr, Inhabited

namespace Node

/-! ## Reading a node -/

def tag? : Node → Option String
  | element tag _ _ => some tag
  | _ => none

/-- The attributes of an element; none for a leaf. -/
def attributes : Node → Attributes
  | element _ attributes _ => attributes
  | _ => .empty

/-- The children of an element; none for a leaf. -/
def children : Node → List Node
  | element _ _ children => children
  | _ => []

def attribute? (n : Node) (name : String) : Option String := n.attributes.get? name

def isElement (n : Node) : Bool := n.tag?.isSome

def hasTag (tag : String) (n : Node) : Bool := n.tag? == some tag

def elementChildren (n : Node) : List Node := n.children.filter isElement

def child? (n : Node) (tag : String) : Option Node := n.children.find? (hasTag tag)

/-- An element that holds one verbatim text. -/
def block (tag : String) (attributes : Attributes) (content : String) : Node :=
  element tag attributes [cdata content]

/-! ## The nodes of a subtree -/

mutual

/-- The node and everything below it, each node before its children. -/
def preorder : Node → List Node
  | element tag attributes children => element tag attributes children :: preorderAll children
  | leaf => [leaf]

def preorderAll : List Node → List Node
  | [] => []
  | n :: rest => preorder n ++ preorderAll rest

end

/-! ## Writing markup -/

/-- The attributes of a start tag, each with the space before it. -/
def attributeMarkup (a : Attributes) : String :=
  String.join (a.entries.map fun (name, value) =>
    " " ++ name ++ "=\"" ++ Text.escapeAttribute value ++ "\"")

mutual

def markup : Node → String
  | text content => content
  | cdata content => content
  | comment content => "<!--" ++ content ++ "-->"
  | element tag attributes [] => "<" ++ tag ++ attributeMarkup attributes ++ " />"
  | element tag attributes (n :: rest) =>
    "<" ++ tag ++ attributeMarkup attributes ++ ">" ++ (markup n ++ markupAll rest) ++ "</" ++ tag ++ ">"

def markupAll : List Node → String
  | [] => ""
  | n :: rest => markup n ++ markupAll rest

end

def innerMarkup (n : Node) : String := markupAll n.children

end Node

end EmailMarkup
