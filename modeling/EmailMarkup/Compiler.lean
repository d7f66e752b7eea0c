import EmailMarkup.Configuration.Basic
import EmailMarkup.Head.Fonts
import EmailMarkup.Head.Reader
import EmailMarkup.Html.Inline
import EmailMarkup.Include.Expand
import EmailMarkup.Page.Basic
import EmailMarkup.Page.Conditional
import EmailMarkup.Page.HtmlAttributes
import EmailMarkup.Render.Body
/-!
# The compiler

Compiling reads a template, puts includes in their places, reads the head, renders the body and
writes the page. Only the includes can have effects; the rest is a function of the expanded template.
-/
namespace EmailMarkup

structure Output where
  html : String
  title : String
  preview : String
  diagnostics : List Diagnostic
  deriving DecidableEq, Repr

namespace Compiler

variable {m : Type → Type}

def read (limits : Include.Limits) (source : String) : Except Error Template :=
  if limits.inputSize < source.length then .error (.oversized source.length limits.inputSize)
  else match Template.parse limits.nestingDepth source with
    | .ok t => .ok t
    | .error fault => .error (.template fault)

/-- Warns of each include that is still there. -/
def warnIncludes (t : Template) (diagnostics : Diagnostics) : Diagnostics :=
  (t.root.preorder.filter (Node.hasTag Include.includeTag)).foldl (fun ds n =>
    ds.warn "include" s!"Unresolved mj-include remains in tree: {pathOf n}") diagnostics
where
  pathOf (n : Node) : String := (n.attribute? "path").getD ""

/-- The width of a body in pixels: what it declares, if that is a width. -/
def bodyWidth (declared : String) : Nat :=
  let width := Layout.wholePixels declared 600
  if 0 ≤ width ∧ width ≤ 4294967295 then width.toNat else 600

/-- The head with what the body says about the whole mail. -/
def headOf (h : Head) (body : Node) : Head :=
  let h := Head.linkFonts h body
  let c : Cascade := ⟨body, h.rules, Builtin.body.defaults⟩
  { h with metadata := { h.metadata with
      width := bodyWidth (c.getD "width" "600px")
      background := c.getD "background-color" "" } }

/-- Renders the body of a template, and completes its head. -/
def renderTemplate (c : Configuration m) (t : Template) :
    Except Error (String × Head × Diagnostics) := do
  let diagnostics := warnIncludes t {}
  let (h, diagnostics) :=
    match t.head? with
    | some head => Head.read c.registry head diagnostics
    | none => ({}, diagnostics)
  match t.body? with
  | none => return ("", h, diagnostics.warn "pipeline" "Document has no mj-body")
  | some body =>
    let h := headOf h body
    let ctx : Render.Context := ⟨h, c.registry, c.sanitize, c.language, c.direction⟩
    let (html, o) ← Render.renderBody ctx body { diagnostics }
    return (html, o.effects.foldl Render.Effect.apply h, o.diagnostics)

/-- Inlines the styles that ask for it. -/
def inlineStyles (styles : List String) (html : String) : String :=
  if styles.isEmpty then html
  else
    let html := Html.inlineAdditional html ("\n".intercalate styles ++ "\n")
    Text.replace (Text.replace html " style=\"\"" " style") " />" ">"

def page (c : Configuration m) (h : Head) (body : String) : String :=
  let body := Page.addAttributes h.rules.html (Page.joinConditionals body.toList)
  inlineStyles h.styles.inlineStyles
    (Page.document h c.language c.direction (String.ofList body))

/-- Compiles a template whose includes are in their places. -/
def finish (c : Configuration m) (t : Template) : Except Error Output := do
  let (body, h, diagnostics) ← renderTemplate c t
  return ⟨page c h body, h.metadata.title, h.metadata.preview, diagnostics.entries⟩

def compile [Monad m] (c : Configuration m) (source : String) : ExceptT Error m Output := do
  let t ← read c.limits source
  let t ← match c.resolver with
    | some resolve => Include.expand c.limits resolve t
    | none => pure t
  finish c t

end Compiler

end EmailMarkup
