import EmailMarkup.Proofs.Include.Complete
import EmailMarkup.Proofs.Include.Depth
/-!
# What goes in the place of an include

An include of markup stands somewhere in a tree: among siblings (`before`, `after`), below a row of open elements
(`Frame`). An expansion runs over what stands before it, asks for the content, puts the nodes of the content in the
place (`splice`), and goes on (`expandChildren_include`). Nothing else in the tree is touched.
-/
namespace EmailMarkup.Include

variable {m : Type → Type} [Monad m] [LawfulMonad m] {limits : Limits} {resolve : Resolver m}
  {replace : String → Attributes → ExceptT Error m (List Node)}

/-! ## Places -/

/-- An element around a place, with the siblings on both sides of it. -/
structure Frame where
  before : List Node
  tag : String
  attributes : Attributes
  after : List Node

/-- Nodes in the place that the frames leave open, the outermost frame first. -/
def plug : List Frame → List Node → List Node
  | [], nodes => nodes
  | f :: inner, nodes => f.before ++ .element f.tag f.attributes (plug inner nodes) :: f.after

/-- The tag of the element that a place is directly below. -/
def holder (parent : String) : List Frame → String
  | [] => parent
  | f :: inner => holder f.tag inner

/-- Expands what is around a place, and what is in it with `middle`, from left to right. -/
def around (expand : String → List Node → ExceptT Error m (List Node)) (middle : ExceptT Error m (List Node))
    (parent : String) : List Frame → ExceptT Error m (List Node)
  | [] => middle
  | f :: inner => do
    let front ← expand parent f.before
    let nodes ← around expand middle f.tag inner
    let back ← expand parent f.after
    return front ++ .element f.tag f.attributes nodes :: back

/-- One node among its siblings. -/
theorem replaceAll_middle (parent : String) (before : List Node) (n : Node) (after : List Node) :
    replaceAll replace parent (before ++ n :: after) = (do
      let front ← replaceAll replace parent before
      let nodes ← replaceIn replace parent n
      let back ← replaceAll replace parent after
      return front ++ (nodes ++ back)) := by
  simp [replaceAll_append, replaceAll]

theorem replaceAll_plug (parent : String) {frames : List Frame} (h : ∀ f ∈ frames, f.tag ≠ includeTag) (nodes : List Node) :
    replaceAll replace parent (plug frames nodes) =
      around (replaceAll replace) (replaceAll replace (holder parent frames) nodes) parent frames := by
  induction frames generalizing parent with
  | nil => rfl
  | cons f inner ih =>
    rw [List.forall_mem_cons] at h
    rw [plug, replaceAll_middle, replaceIn, if_neg h.1, ih f.tag h.2, around, holder]
    simp

/-! ## Includes -/

/-- An element that is no include keeps its place, around its expanded children. -/
theorem expandChildren_element {tag : String} (h : tag ≠ includeTag) (levels : Nat) (chain : List String) (parent : String)
    (a : Attributes) (children : List Node) :
    expandChildren limits resolve levels chain parent [.element tag a children] = (do
      let nodes ← expandChildren limits resolve levels chain tag children
      return [.element tag a nodes]) := by
  cases levels <;> simp [expandChildren, replaceAll, replaceIn, h]

/-- The nodes that content becomes in the place of an include, given how to expand the children of an element. -/
def splice (limits : Limits) (expand : String → List Node → ExceptT Error m (List Node)) (parent content : String) :
    ExceptT Error m (List Node) := do
  expandMarkup expand parent (← readMarkup limits content)

/-- An include of markup is replaced in its place, wherever it stands, and what is around it is expanded as ever. -/
theorem expandChildren_include {levels : Nat} {chain : List String} {path : String} {a : Attributes} {frames : List Frame}
    (hframes : ∀ f ∈ frames, f.tag ≠ includeTag) (ha : Asks path a) (hnew : path ∉ chain) (parent : String)
    (before below after : List Node) :
    expandChildren limits resolve (levels + 1) chain parent (plug frames (before ++ .element includeTag a below :: after)) =
      around (expandChildren limits resolve (levels + 1) chain) (do
        let front ← expandChildren limits resolve (levels + 1) chain (holder parent frames) before
        let content ← resolve path ⟨.markup, chain.head?, chain.length⟩
        checkSize limits path content
        let nodes ← splice limits (expandChildren limits resolve levels (path :: chain)) (holder parent frames) content
        let back ← expandChildren limits resolve (levels + 1) chain (holder parent frames) after
        return front ++ (nodes ++ back)) parent frames := by
  have hrequest : request chain a = .ok ⟨path, ⟨.markup, chain.head?, chain.length⟩⟩ := by
    simp [request, ha.given, Option.filter, ha.notBlank, hnew, ha.kind]
  simp only [expandChildren]
  rw [replaceAll_plug parent hframes, replaceAll_middle, replaceIn, if_pos rfl]
  simp only [fetch, hrequest, lift_ok_bind, replacement, splice, bind_assoc, pure_bind]

end EmailMarkup.Include
