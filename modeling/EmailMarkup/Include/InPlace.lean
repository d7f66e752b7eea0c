import EmailMarkup.Forest.Walk
import EmailMarkup.Include.Expand
/-!
# Expanding includes in a forest

The same expansion on linked nodes: the children of a node are walked as they stood before, and an
include is taken out of its place among its siblings for the nodes that replace it. Included markup
gets a forest of its own, is expanded there, and is copied over.
-/
namespace EmailMarkup.Include

section

variable {m : Type → Type} [Monad m]

/-- Walks the elements below a node to at most `bound` levels, and lets `replace` edit the forest at
every include. -/
def walkIncludes (replace : Forest → Nat → ExceptT Error m Forest) :
    (bound : Nat) → Forest → Nat → ExceptT Error m Forest
  | 0, f, _ => return f
  | bound + 1, f, node =>
    (f.children node).foldlM (fun f child =>
      match f.tag? child with
      | none => return f
      | some tag =>
        if tag = includeTag then replace f child else walkIncludes replace bound f child) f

/-- Puts copies of the children of a node of `source` in the place of an include. -/
def spliceChildren (f : Forest) (id : Nat) (source : Forest) (parent : Nat) : Forest :=
  let (f, copies) := (source.children parent).foldl (fun (f, copies) child =>
    let (f, copy) := f.importSubtree source child
    (f, copies ++ [copy])) (f, [])
  (f.replaceWith id copies).1

/-- Puts an element with one verbatim text in the place of an include. -/
def spliceBlock (f : Forest) (id : Nat) (tag : String) (a : Attributes) (content : String) :
    Forest :=
  let (f, block) := f.alloc (.element tag a)
  let (f, leaf) := f.alloc (.cdata content)
  ((f.append block leaf).replaceWith id [block]).1

/-- The node of an included template that goes in the place of the include. -/
def sectionIn? (underHead : Bool) (f : Forest) (root : Nat) : Option Nat :=
  (if underHead then f.childByTag? root Template.headTag else none) <|>
    f.childByTag? root Template.bodyTag

/-- Whether the parent of a node is a head. -/
def isUnderHead (f : Forest) (id : Nat) : Bool :=
  ((f.parent? id).bind f.tag?) == some Template.headTag

/-- Puts included markup in the place of an include, given how to expand below a node. -/
def spliceMarkup (expand : Forest → Nat → ExceptT Error m Forest) (f : Forest) (id : Nat) :
    Markup → ExceptT Error m Forest
  | .document t => do
    let (g, root) := Forest.ofNode t.root
    let g ← expand g root
    match sectionIn? (isUnderHead f id) g root with
    | some chosen => return spliceChildren f id g chosen
    | none => return (f.replaceWith id []).1
  | .fragment t =>
    let (g, root) := Forest.ofNode t.root
    match g.childByTag? root Template.bodyTag with
    | some body => do
      let g ← expand g body
      return spliceChildren f id g body
    | none => return f
  | .raw text => return spliceBlock f id rawTag .empty text

/-- Expands the includes below a node of a forest. -/
def expandBelow (limits : Limits) (resolve : Resolver m) :
    (levels : Nat) → (chain : List String) → Forest → Nat → ExceptT Error m Forest
  | 0, _, f, node =>
    walkIncludes (fun _ _ => throw (.inclusion (.tooDeep limits.includeDepth))) f.size f node
  | levels + 1, chain, f, node =>
    walkIncludes (fun f id => do
      let a := match f.element? id with
        | some (_, a) => a
        | none => .empty
      let (r, content) ← fetch limits resolve chain a
      match r.context.kind with
      | .markup =>
        spliceMarkup (expandBelow limits resolve levels (r.path :: chain)) f id
          (← readMarkup limits content)
      | .html => return spliceBlock f id rawTag .empty content
      | kind => return spliceBlock f id styleTag (styleAttributes kind a) content) f.size f node

def expandInPlace (limits : Limits) (resolve : Resolver m) (t : Template) :
    ExceptT Error m Template := do
  limits.check
  let (f, root) := Forest.ofNode t.root
  let f ← expandBelow limits resolve limits.includeDepth [] f root
  return { t with children := f.childTrees root }

end

end EmailMarkup.Include
