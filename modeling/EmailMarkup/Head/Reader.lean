import EmailMarkup.Component.Registry
import EmailMarkup.Diagnostics
/-!
# Reading the head

The components of a template's head write nothing. Each adds what it says to the head of the mail, in
the order of the template.
-/
namespace EmailMarkup.Head

open EmailMarkup.Text

/-- A head that is being read, with the warnings so far. -/
abbrev Reading := Head × Diagnostics

namespace Reading

def metadata (r : Reading) (change : Metadata → Metadata) : Reading :=
  ({ r.1 with metadata := change r.1.metadata }, r.2)

def styles (r : Reading) (change : StyleBook → StyleBook) : Reading :=
  ({ r.1 with styles := change r.1.styles }, r.2)

def rules (r : Reading) (change : AttributeRules → AttributeRules) : Reading :=
  ({ r.1 with rules := change r.1.rules }, r.2)

def warn (r : Reading) (component message : String) : Reading := (r.1, r.2.warn component message)

end Reading

/-! ## Components -/

/-- Reads the title, unless it is blank. -/
def readTitle (n : Node) (r : Reading) : Reading :=
  match trim n.innerMarkup with
  | "" => r
  | title => r.metadata fun m => { m with title }

/-- Reads the preview, unless it is blank. -/
def readPreview (n : Node) (r : Reading) : Reading :=
  match trim n.innerMarkup with
  | "" => r
  | preview => r.metadata fun m => { m with preview }

def readBreakpoint (n : Node) (r : Reading) : Reading :=
  match n.attribute? "width" with
  | some width => r.metadata fun m => m.setBreakpoint width
  | none => r

/-- Whether a font can be loaded from an address. -/
def isWebAddress (address : String) : Bool :=
  (dropStart? "http://" address).isSome || (dropStart? "https://" address).isSome

def readFont (n : Node) (r : Reading) : Reading :=
  match n.attribute? "name", n.attribute? "href" with
  | some name, some address =>
    if isWebAddress address then r.styles fun b => b.setAddress name address
    else r.warn "mj-font" s!"mj-font href must start with http:// or https://, skipping: {name}"
  | _, _ => r

/-- The start of the tag that ends a style element. -/
def styleEnd : List Char := ['<', '/', 's', 't', 'y', 'l', 'e']

/-- A style without anything that could end its element. -/
def withoutStyleEnd (s : List Char) : List Char :=
  substitute (fun s => (stripFold? styleEnd s).map fun _ => ([], styleEnd.length)) s

def readStyle (n : Node) (r : Reading) : Reading :=
  let css := String.ofList (withoutStyleEnd (trim n.innerMarkup).toList)
  if n.attribute? "inline" == some "inline" then r.styles fun b => b.addInlineStyle css
  else r.styles fun b => b.addStyle css

/-- Reads attributes for a tag or a class. -/
def readRule (n : Node) (r : Reading) : Reading :=
  match n.tag? with
  | none => r
  | some tag =>
    if tag = classAttribute then
      match n.attribute? "name" with
      | some name => r.rules fun t => t.addClass name (n.attributes.without ["name", classAttribute])
      | none => r
    else r.rules fun t => t.addDefaults tag (n.attributes.without [classAttribute])

/-- Adds an attribute of the finished HTML. -/
def readHtmlAttribute (a : Attributes) (n : Node) : Attributes :=
  match n.attribute? "name" with
  | some name => a.insert name (trim n.innerMarkup)
  | none => a

def readHtmlRule (n : Node) (r : Reading) : Reading :=
  match n.attribute? "path" with
  | none => r
  | some path =>
    let found := (n.children.filter (Node.hasTag "mj-html-attribute")).foldl readHtmlAttribute .empty
    if found.isEmpty then r else r.rules fun t => t.addHtml path found

/-- Reads raw markup. It can ask to go before everything else. -/
def readRaw (n : Node) (r : Reading) : Reading :=
  if n.attribute? "position" == some "file-start" then
    r.metadata fun m => m.addFileStart n.innerMarkup
  else r.metadata fun m => m.addRaw n.innerMarkup

def readComponent (b : Builtin) (n : Node) (r : Reading) : Reading :=
  match b with
  | .title => readTitle n r
  | .preview => readPreview n r
  | .breakpoint => readBreakpoint n r
  | .font => readFont n r
  | .style => readStyle n r
  | .attributes => n.children.foldl (fun r n => readRule n r) r
  | .htmlAttributes =>
    (n.children.filter (Node.hasTag "mj-selector")).foldl (fun r n => readHtmlRule n r) r
  | .raw => readRaw n r
  | .head => r.warn "head" "Nested mj-head ignored"
  | _ => r

/-! ## The whole head -/

/-- Reads a child of the head. Comments that are not blank are kept. -/
def readChild (registry : Registry) (r : Reading) : Node → Reading
  | .comment content =>
    match trim content with
    | "" => r
    | comment => r.metadata fun m => m.addComment comment
  | .element tag attributes children =>
    match registry.lookup? tag with
    | some (.builtin b) =>
      if b.isHead then readComponent b (.element tag attributes children) r
      else r.warn "head" s!"{tag} is not allowed in mj-head, skipping"
    | some (.custom _) => r.warn "head" s!"{tag} is not allowed in mj-head, skipping"
    | none => r.warn "registry" s!"Unknown MJML tag: {tag}"
  | _ => r

def read (registry : Registry) (head : Node) (diagnostics : Diagnostics) : Reading :=
  head.children.foldl (readChild registry) ({}, diagnostics)

end EmailMarkup.Head
