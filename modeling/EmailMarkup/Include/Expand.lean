import EmailMarkup.Include.Basic
import EmailMarkup.Template.Basic
/-!
# Expanding includes

Every include of a template is replaced by what it stands for, from left to right. Content that is
itself a template is expanded before it is put in place, with one level of includes less to go; when
no level is left, the first include that is met is an error.
-/
namespace EmailMarkup.Include

/-! ## What content becomes -/

/-- Included markup: a whole template, a fragment of one, or text that is no markup. A fragment is
kept as the template around it, whose body holds it. -/
inductive Markup where
  | document (t : Template)
  | fragment (t : Template)
  | raw (text : String)

def rootOpening : List Char := ['<', 'm', 'j', 'm', 'l']

/-- A fragment as the body of a template. -/
def wrapFragment (fragment : List Char) : List Char :=
  "<mjml><mj-body>".toList ++ fragment ++ "</mj-body></mjml>".toList

/-- Reads included markup. A fragment that cannot be read is taken as it stands. -/
def readMarkup (limits : Limits) (content : String) : Except Error Markup :=
  let trimmed := Text.trimBoth Text.isBlank content.toList
  if Text.startsWith rootOpening trimmed then
    match Template.ofChars limits.nestingDepth trimmed with
    | .ok t => .ok (.document t)
    | .error fault => .error (.template fault)
  else
    match Template.ofChars limits.nestingDepth (wrapFragment trimmed) with
    | .ok t => .ok (.fragment t)
    | .error (.tooDeep limit) => .error (.template (.tooDeep limit))
    | .error _ => .ok (.raw (String.ofList trimmed))

/-- The tag of blocks that are embedded as they stand. -/
def rawTag : String := "mj-raw"

def styleTag : String := "mj-style"

def styleAttributes (kind : Kind) (a : Attributes) : Attributes :=
  if kind == .inlineCss || a.get? "css-inline" == some "inline" then .ofList [("inline", "inline")]
  else .empty

/-- The part of an included template that goes in the place of the include: under a head its head if
it has one, else its body. -/
def section? (parent : String) (t : Template) : Option Node :=
  (if parent == Template.headTag then t.head? else none) <|> t.body?

/-! ## The expansion -/

section

variable {m : Type → Type} [Monad m]

mutual

/-- A node with the includes below it replaced. `replace` is given the tag of the parent and the
attributes of the include. -/
def replaceIn (replace : String → Attributes → ExceptT Error m (List Node)) (parent : String) :
    Node → ExceptT Error m (List Node)
  | .element tag attributes children =>
    if tag = includeTag then replace parent attributes
    else do return [.element tag attributes (← replaceAll replace tag children)]
  | leaf => return [leaf]

/-- Nodes with their includes replaced, in turn. -/
def replaceAll (replace : String → Attributes → ExceptT Error m (List Node)) (parent : String) :
    List Node → ExceptT Error m (List Node)
  | [] => return []
  | n :: rest => do
    let first ← replaceIn replace parent n
    let others ← replaceAll replace parent rest
    return first ++ others

end

/-- What included markup becomes, given how to expand the children of an element. -/
def expandMarkup (expand : String → List Node → ExceptT Error m (List Node)) (parent : String) :
    Markup → ExceptT Error m (List Node)
  | .document t => do
    let children ← expand Template.rootTag t.children
    return ((section? parent { t with children }).map Node.children).getD []
  | .fragment t => expand Template.bodyTag ((t.body?.map Node.children).getD [])
  | .raw text => return [.block rawTag .empty text]

/-- What an include becomes, given its content and how to expand the children of an element. -/
def replacement (limits : Limits) (expand : String → List Node → ExceptT Error m (List Node))
    (parent : String) (a : Attributes) (r : Request) (content : String) :
    ExceptT Error m (List Node) :=
  match r.context.kind with
  | .markup => do expandMarkup expand parent (← readMarkup limits content)
  | .html => return [.block rawTag .empty content]
  | kind => return [.block styleTag (styleAttributes kind a) content]

/-- Expands the children of an element named `parent`. `levels` is how many levels of includes may
still be opened, `chain` holds the paths of the open ones, the innermost first. -/
def expandChildren (limits : Limits) (resolve : Resolver m) :
    (levels : Nat) → (chain : List String) → (parent : String) → List Node →
      ExceptT Error m (List Node)
  | 0, _, parent, nodes =>
    replaceAll (fun _ _ => throw (.inclusion (.tooDeep limits.includeDepth))) parent nodes
  | levels + 1, chain, parent, nodes =>
    replaceAll (fun parent a => do
      let (r, content) ← fetch limits resolve chain a
      replacement limits (expandChildren limits resolve levels (r.path :: chain)) parent a r content)
      parent nodes

def expand (limits : Limits) (resolve : Resolver m) (t : Template) : ExceptT Error m Template := do
  limits.check
  let children ← expandChildren limits resolve limits.includeDepth [] Template.rootTag t.children
  return { t with children }

end

end EmailMarkup.Include
