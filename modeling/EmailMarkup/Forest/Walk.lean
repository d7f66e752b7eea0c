import EmailMarkup.Forest.Basic
import EmailMarkup.Node
/-!
# Walks through a forest

A walk down or up is bounded by the number of slots: no path without a repeated node is longer.
-/
namespace EmailMarkup.Forest

/-! ## Up and sideways -/

/-- The chain of parents from `next` upwards, at most `bound` of them. -/
def ancestorsWithin (f : Forest) : (bound : Nat) → (next : Option Nat) → List Nat
  | 0, _ => []
  | _, none => []
  | bound + 1, some p => p :: ancestorsWithin f bound (f.parent? p)

/-- The ancestors of a node, its parent first. -/
def ancestors (f : Forest) (id : Nat) : List Nat := f.ancestorsWithin f.size (f.parent? id)

/-- The siblings before a node, the nearest first. -/
def precedingSiblings (f : Forest) (id : Nat) : List Nat :=
  match f.parent? id with
  | none => []
  | some parent =>
    let siblings := f.children parent
    if id ∈ siblings then (siblings.takeWhile (· != id)).reverse else []

/-! ## Down -/

/-- A node and what is below it to at most `bound` levels, each node before its children. -/
def descendantsWithin (f : Forest) : (bound : Nat) → (id : Nat) → List Nat
  | 0, _ => []
  | bound + 1, id => id :: (f.children id).flatMap (descendantsWithin f bound)

/-- A node and everything below it, each node before its children. -/
def descendants (f : Forest) (id : Nat) : List Nat := f.descendantsWithin f.size id

/-- The elements of the document, in document order. -/
def elements (f : Forest) : List Nat := (f.descendants root).filter f.isElement

/-! ## Copies -/

/-- What the slot of a node holds; an unknown number holds what the document does. -/
def content (f : Forest) (id : Nat) : Content :=
  match f.slot? id with
  | some s => s.content
  | none => .document

/-- Copies a node of `source` with at most `bound` levels below it into new slots, numbered in the
order of the walk, and returns the number of the copy. The copy has no parent. -/
def importWithin (source : Forest) : (bound : Nat) → (f : Forest) → (id : Nat) → Forest × Nat
  | 0, f, id => f.alloc (source.content id)
  | bound + 1, f, id =>
    let (f, copy) := f.alloc (source.content id)
    ((source.children id).foldl (fun f child =>
      let (f, c) := importWithin source bound f child
      f.append copy c) f, copy)

def importSubtree (f source : Forest) (id : Nat) : Forest × Nat :=
  importWithin source source.size f id

/-! ## Between forests and trees -/

mutual

/-- Puts a tree into new slots as a node without parent, and returns its number. -/
def plant (f : Forest) : Node → Forest × Nat
  | .element tag attributes children =>
    let (f, id) := f.alloc (.element tag attributes)
    (plantAll f id children, id)
  | .text content => f.alloc (.text content)
  | .cdata content => f.alloc (.cdata content)
  | .comment content => f.alloc (.comment content)

/-- Puts trees into new slots as the last children of `parent`. -/
def plantAll (f : Forest) (parent : Nat) : List Node → Forest
  | [] => f
  | n :: rest =>
    let (f, id) := plant f n
    plantAll (f.append parent id) parent rest

end

/-- The forest of one tree below the document. -/
def ofNode (n : Node) : Forest × Nat :=
  let (f, id) := empty.plant n
  (f.append root id, id)

/-- The tree at a node, cut off below `bound` levels. The document reads as its children. -/
def treesWithin (f : Forest) : (bound : Nat) → (id : Nat) → List Node
  | 0, _ => []
  | bound + 1, id =>
    match f.slot? id with
    | none => []
    | some s =>
      let below := s.children.flatMap (treesWithin f bound)
      match s.content with
      | .document => below
      | .element tag attributes => [.element tag attributes below]
      | .text content => [.text content]
      | .cdata content => [.cdata content]
      | .comment content => [.comment content]

def childTrees (f : Forest) (id : Nat) : List Node := (f.children id).flatMap (f.treesWithin f.size)

/-! ## Markup -/

/-- The markup of a node, cut off below `bound` levels. An element that has any child is written with
an end tag, whatever the child is; a document inside another node is written as its children. -/
def markupWithin (f : Forest) : (bound : Nat) → (id : Nat) → String
  | 0, _ => ""
  | bound + 1, id =>
    match f.slot? id with
    | none => ""
    | some s =>
      let below := String.join (s.children.map (markupWithin f bound))
      match s.content with
      | .document => below
      | .element tag attributes =>
        "<" ++ tag ++ Node.attributeMarkup attributes ++
          (if s.children.isEmpty then " />" else ">" ++ below ++ "</" ++ tag ++ ">")
      | .text content => content
      | .cdata content => content
      | .comment content => "<!--" ++ content ++ "-->"

def innerMarkup (f : Forest) (id : Nat) : String :=
  String.join ((f.children id).map (f.markupWithin f.size))

end EmailMarkup.Forest
