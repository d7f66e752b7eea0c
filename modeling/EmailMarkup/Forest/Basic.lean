import EmailMarkup.Attributes
/-!
# Linked nodes in numbered slots

A forest keeps nodes in numbered slots. A slot records what the node is, the number of its parent
and the numbers of its children in order, so that a walk can go up, down and sideways from any node.
Slot 0 is the document. A node that is taken out of its parent keeps its slot and can be attached
again.

The links are redundant: `a` has `b` as a child exactly when `b` records `a` as its parent. Every
operation below edits both sides.
-/
namespace EmailMarkup

namespace Forest

/-- What a slot holds. -/
inductive Content where
  | document
  | element (tag : String) (attributes : Attributes)
  | text (content : String)
  | cdata (content : String)
  | comment (content : String)
  deriving DecidableEq, Repr, Inhabited

/-- The name of a node: the tag of an element, a reserved name for every other kind. -/
def Content.name : Content → String
  | .document => "#document"
  | .element tag _ => tag
  | .text _ => "#text"
  | .cdata _ => "#cdata-section"
  | .comment _ => "#comment"

/-- A node with its links. -/
structure Slot where
  content : Content
  parent : Option Nat := none
  children : List Nat := []
  deriving DecidableEq, Repr, Inhabited

end Forest

/-- Nodes in numbered slots, the document first. -/
structure Forest where
  slots : Array Forest.Slot
  deriving DecidableEq, Repr, Inhabited

namespace Forest

def root : Nat := 0

/-- A forest that holds the document only. -/
def empty : Forest := ⟨#[{ content := .document }]⟩

/-! ## Reading -/

/-- The number of slots, detached nodes included. -/
def size (f : Forest) : Nat := f.slots.size

def slot? (f : Forest) (id : Nat) : Option Slot := f.slots[id]?

def parent? (f : Forest) (id : Nat) : Option Nat := (f.slot? id).bind Slot.parent

/-- The children of a node; none for an unknown number. -/
def children (f : Forest) (id : Nat) : List Nat :=
  match f.slot? id with
  | some s => s.children
  | none => []

def element? (f : Forest) (id : Nat) : Option (String × Attributes) :=
  match f.slot? id with
  | some { content := .element tag attributes, .. } => some (tag, attributes)
  | _ => none

def isElement (f : Forest) (id : Nat) : Bool := (f.element? id).isSome

def tag? (f : Forest) (id : Nat) : Option String := (f.element? id).map Prod.fst

def attribute? (f : Forest) (id : Nat) (name : String) : Option String :=
  (f.element? id).bind fun e => e.2.get? name

/-- The name of a node; an unknown number is named like the document. -/
def name (f : Forest) (id : Nat) : String :=
  match f.slot? id with
  | some s => s.content.name
  | none => Content.document.name

def elementChildren (f : Forest) (id : Nat) : List Nat := (f.children id).filter f.isElement

def childrenByTag (f : Forest) (id : Nat) (tag : String) : List Nat :=
  (f.children id).filter fun c => f.tag? c == some tag

def childByTag? (f : Forest) (id : Nat) (tag : String) : Option Nat :=
  (f.children id).find? fun c => f.tag? c == some tag

/-! ## Editing -/

def modify (f : Forest) (id : Nat) (change : Slot → Slot) : Forest := ⟨f.slots.modify id change⟩

/-- Puts a new node without parent or children into the next slot. -/
def alloc (f : Forest) (content : Content) : Forest × Nat :=
  (⟨f.slots.push { content }⟩, f.size)

/-- Takes `child` out of the children of `parent`; nothing changes if it is none of them. -/
def removeChild (f : Forest) (parent child : Nat) : Forest :=
  if child ∈ f.children parent then
    (f.modify parent fun s => { s with children := s.children.erase child }).modify child
      fun s => { s with parent := none }
  else f

/-- Takes a node out of its parent, if it has one. -/
def detach (f : Forest) (id : Nat) : Forest :=
  match f.parent? id with
  | some parent => f.removeChild parent id
  | none => f

/-- Makes `child` the last child of `parent`, taking it out of its old parent first. -/
def append (f : Forest) (parent child : Nat) : Forest :=
  ((f.detach child).modify parent fun s => { s with children := s.children ++ [child] }).modify child
    fun s => { s with parent := some parent }

/-- Puts `news` in place of the first occurrence of `old` in a list. -/
def splice (old : Nat) (news : List Nat) : List Nat → List Nat
  | [] => []
  | c :: rest => if c = old then news ++ rest else c :: splice old news rest

/-- Puts `news`, in order, in the place of a node among its siblings, and says whether it did. The
new nodes leave their old parents before the place is looked for, so the edit fails also when the
node is among them. -/
def replaceWith (f : Forest) (id : Nat) (news : List Nat) : Forest × Bool :=
  match f.parent? id with
  | none => (f, false)
  | some parent =>
    let g := news.foldl detach f
    if id ∈ g.children parent then
      let g := g.modify parent fun s => { s with children := splice id news s.children }
      let g := g.modify id fun s => { s with parent := none }
      (news.foldl (fun g n => g.modify n fun s => { s with parent := some parent }) g, true)
    else (g, false)

/-- Sets an attribute of an element; other nodes stay as they are. -/
def setAttribute (f : Forest) (id : Nat) (name value : String) : Forest :=
  f.modify id fun s =>
    match s.content with
    | .element tag attributes => { s with content := .element tag (attributes.insert name value) }
    | _ => s

end Forest

end EmailMarkup
