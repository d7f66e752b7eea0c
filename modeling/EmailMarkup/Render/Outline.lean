import EmailMarkup.Component.Registry
import EmailMarkup.Direction
import EmailMarkup.Text.Escape
/-!
# Outlines of components

A built-in component does not render its children. It says what it writes before and after them, and
how each child is placed; rendering an outline is then the same for all components.
-/
namespace EmailMarkup.Render

open EmailMarkup.Head

/-! ## What components know -/

/-- What all components of a mail share. -/
structure Context where
  head : Head
  registry : Registry
  /-- Whether attribute values are escaped. -/
  sanitize : Bool
  language : String
  direction : Direction

namespace Context

def width (ctx : Context) : Nat := ctx.head.metadata.width

/-- The attributes of a node as a built-in component reads them. -/
def cascade (ctx : Context) (node : Node) (b : Builtin) : Cascade :=
  ⟨node, ctx.head.rules, b.defaults⟩

/-- An attribute value, escaped if the context says so. -/
def escape (ctx : Context) (value : String) : String :=
  if ctx.sanitize then Text.escapeAttribute value else value

def classes (ctx : Context) (c : Cascade) : String := ctx.escape (c.getD "css-class" "")

/-- The starts of addresses that run scripts or show foreign documents. -/
def scriptAddresses : List String :=
  ["javascript:", "vbscript:", "data:text/html", "data:image/svg+xml"]

/-- Whether an address may run a script. -/
def isScriptAddress (address : String) : Bool :=
  let address := Text.lower (Text.trim address)
  scriptAddresses.any fun start => (Text.dropStart? start address).isSome

/-- The address of a link. One that may run a script leads nowhere. -/
def link (ctx : Context) (address : String) : String :=
  if ctx.sanitize && isScriptAddress address then "#" else ctx.escape address

end Context

/-! ## What components write -/

/-- How a child is placed: left out, stood in for by a text, or rendered between two texts. -/
inductive Placement where
  | skip
  | literal (text : String)
  | child (before : String) (place : Surroundings) (after : String)

/-- What a component adds to the head. -/
inductive Effect where
  | mediaQuery (query : MediaQuery)
  | fluidImage
  | fileStart (content : String)
  deriving DecidableEq, Repr

def Effect.apply (h : Head) : Effect → Head
  | mediaQuery query => { h with styles := h.styles.addMediaQuery query }
  | fluidImage => { h with styles := { h.styles with fluidImages := true } }
  | fileStart content => { h with metadata := h.metadata.addFileStart content }

/-- What is to be added to the head, with one thing more. A media query is kept once. -/
def Effect.register (kept : List Effect) (e : Effect) : List Effect :=
  match e with
  | mediaQuery _ => Head.addNew kept e
  | _ => kept ++ [e]

/-- What a component writes, with a placement for each of its children. -/
structure Outline where
  opening : String := ""
  children : List Placement := []
  closing : String := ""
  /-- What it adds to the head once its children are rendered. -/
  effects : List Effect := []

/-- An outline between two texts. -/
def Outline.within (o : Outline) (before after : String) : Outline :=
  { o with opening := before ++ o.opening, closing := o.closing ++ after }

/-- Places children one by one. Those that are rendered are numbered from the given number on. -/
def placeChildren (place : Nat → Node → Placement) : Nat → List Node → List Placement
  | _, [] => []
  | i, n :: rest =>
    match place i n with
    | .child before s after => .child before s after :: placeChildren place (i + 1) rest
    | other => other :: placeChildren place i rest

end EmailMarkup.Render
