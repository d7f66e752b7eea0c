import EmailMarkup.Diagnostics
import EmailMarkup.Render.Container
import EmailMarkup.Render.Content
/-!
# Rendering the body

Every element is rendered by the component of its tag: a component of the caller's as a whole, a
built-in one by its outline. An unknown tag is warned of and left out.
-/
namespace EmailMarkup.Render

/-- What rendering leaves behind. -/
structure Outcome where
  diagnostics : Diagnostics := {}
  effects : List Effect := []
  /-- The number of the next identifier. -/
  nextId : Nat := 0

abbrev RenderM := StateT Outcome (Except Error)

def warn (component message : String) : RenderM Unit :=
  modify fun o => { o with diagnostics := o.diagnostics.warn component message }

/-- Keeps what is to be added to the head. -/
def emit (effects : List Effect) : RenderM Unit :=
  modify fun o => { o with effects := effects.foldl Effect.register o.effects }

def renderCustom (ctx : Context) (c : Custom) (n : Node) (s : Surroundings) : RenderM String := do
  let o ← get
  let (html, nextId) ← c.render ctx.head ⟨n, ctx.head.rules, c.defaults⟩ s o.nextId
  set { o with nextId }
  return html

/-- The outline of a built-in component. What belongs elsewhere writes nothing. -/
def outline (ctx : Context) (b : Builtin) (n : Node) (s : Surroundings) : Outline :=
  let c := ctx.cascade n b
  match b with
  | .sectionRow => sectionOutline ctx c s
  | .wrapper => wrapperOutline ctx c s
  | .column => columnOutline ctx c s
  | .group => groupOutline ctx c s
  | .text => textOutline c
  | .image => imageOutline ctx c s
  | .button => buttonOutline ctx c s
  | .divider => dividerOutline ctx c s
  | .spacer => spacerOutline c
  | .table => tableOutline ctx c
  | .raw => rawOutline c
  | _ => {}

mutual

def renderNode (ctx : Context) : Node → Surroundings → RenderM String
  | .element tag attributes children, s =>
    match ctx.registry.lookup? tag with
    | none => do
      warn "registry" s!"Unknown MJML tag: {tag}"
      return ""
    | some (.custom c) => renderCustom ctx c (.element tag attributes children) s
    | some (.builtin b) => do
      let o := outline ctx b (.element tag attributes children) s
      let content ← renderChildren ctx children o.children
      emit o.effects
      return o.opening ++ content ++ o.closing
  | _, _ => return ""

def renderChildren (ctx : Context) : List Node → List Placement → RenderM String
  | n :: rest, .child before s after :: places => do
    let html ← renderNode ctx n s
    let others ← renderChildren ctx rest places
    return before ++ html ++ after ++ others
  | _ :: rest, .literal text :: places => do
    let others ← renderChildren ctx rest places
    return text ++ others
  | _ :: rest, .skip :: places => renderChildren ctx rest places
  | _, _ => return ""

end

/-- Where a child of the body goes. Comments are kept. -/
def bodyItem (s : Surroundings) : Node → Placement
  | .element .. => .child "" s ""
  | .comment content => .literal (line 4 s!"<!-- {Text.trim content} -->")
  | _ => .skip

def bodyOutline (ctx : Context) (c : Cascade) : Outline :=
  let metadata := ctx.head.metadata
  let title := if metadata.title.isEmpty then none else some (ctx.escape metadata.title)
  let box := startTag "div" (optional "aria-label" title ++
    [("aria-roledescription", "email"),
      ("style", styleText [("background-color", ctx.escape metadata.background)]),
      ("role", "article"), ("lang", ctx.escape ctx.language), ("dir", ctx.direction.text)] ++
    optional "class" ((c.nonEmpty? "css-class").map ctx.escape))
  let count := c.node.elementChildren.length
  let s : Surroundings := { width := Float.ofNat ctx.width }
  { opening := line 2 box
    children := placeChildren (fun i => bodyItem (s.child i count)) 0 c.node.children
    closing := line 2 "</div>" }

def renderBody (ctx : Context) (body : Node) : RenderM String := do
  let o := bodyOutline ctx (ctx.cascade body .body)
  let content ← renderChildren ctx body.children o.children
  return o.opening ++ content ++ o.closing

end EmailMarkup.Render
