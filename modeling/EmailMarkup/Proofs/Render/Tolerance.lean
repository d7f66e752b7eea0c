import EmailMarkup.Proofs.Compiler
import EmailMarkup.Proofs.Include.Complete
import EmailMarkup.Proofs.Page.Conditional
import EmailMarkup.Proofs.Render.Pruned
import EmailMarkup.Proofs.Template.RoundTrip
/-!
# Unknown tags leave no trace

A compile without components of the caller's ignores a childless element of an unknown tag below the body, unless the
element stands in a wrapper, which opens a row for it, or inside a component that writes its children as they stand:
without the element the page, the title and the preview are the same (`compile_pruned`). With a resolver an include is
not ignored, but all else is, also where includes are put in.
-/
namespace EmailMarkup

open Render

/-- A run of one of two coupled actions has its counterpart. -/
theorem Coupled.exists_run {σ α β : Type} {R : α → β → Prop} {x : ExceptT Error (StateM σ) α}
    {y : ExceptT Error (StateM σ) β} (h : Coupled R x y) {s s' : σ} {a : α} (hrun : x.run.run s = (.ok a, s')) :
    ∃ b, y.run.run s = (.ok b, s') ∧ R a b := by
  obtain ⟨z, rfl, rfl⟩ := h
  rw [ExceptT.run_map, StateT.run_map] at hrun
  rw [ExceptT.run_map, StateT.run_map]
  rcases hz : z.run.run s with ⟨_ | p, s₁⟩
  · rw [hz] at hrun
    cases hrun
  · rw [hz] at hrun
    cases hrun
    exact ⟨p.1.2, rfl, p.2⟩

/-! ## Includes -/

namespace Include

variable {m : Type → Type} [Monad m] [LawfulMonad m] {replace : String → Attributes → ExceptT Error m (List Node)}
  {ignored : String → Prop} (hi : ∀ tag, ignored tag → tag ≠ includeTag)

omit [LawfulMonad m] in
theorem replaceIn_leaf {n : Node} (h : n.isElement = false) (parent : String) :
    replaceIn replace parent n = pure [n] := by
  cases n with
  | element => cases h
  | _ => rfl

include hi

/-- Putting includes in runs the same way, and what was pruned stays pruned. -/
theorem replaceAll_pruned {p : Place} {l l' : List Node} (h : Pruned ignored p l l') (parent : String) :
    Coupled (Pruned ignored p) (replaceAll replace parent l) (replaceAll replace parent l') := by
  induction h generalizing parent with
  | nil => exact .pure .nil
  | leaf hn _ ih =>
    rw [replaceAll, replaceAll, replaceIn_leaf hn, pure_bind, pure_bind]
    exact (ih parent).bind fun _ _ h => .pure (.leaf hn h)
  | @textBefore _ _ _ l' hp _ ih =>
    rw [replaceAll, replaceIn_leaf rfl, pure_bind, ← bind_pure (replaceAll replace parent l')]
    exact (ih parent).bind fun _ _ h => .pure (.textBefore hp h)
  | @textAfter _ _ l _ hp _ ih =>
    rw [replaceAll, replaceIn_leaf rfl, pure_bind, ← bind_pure (replaceAll replace parent l)]
    exact (ih parent).bind fun _ _ h => .pure (.textAfter hp h)
  | @gone _ tag a _ l' hp htag _ ih =>
    have hone : replaceIn replace parent (.element tag a []) = pure [.element tag a []] := by
      rw [replaceIn, if_neg (hi tag htag), replaceAll, pure_bind]
    rw [replaceAll, hone, pure_bind, ← bind_pure (replaceAll replace parent l')]
    exact (ih parent).bind fun _ _ h => .pure (.gone hp htag h)
  | @element p tag a children children' _ _ _ _ ihc ih =>
    rw [replaceAll, replaceAll, replaceIn, replaceIn]
    by_cases htag : tag = includeTag
    · rw [if_pos htag, if_pos htag]
      exact .bind_same _ fun first => (ih parent).bind fun _ _ h => .pure ((Pruned.refl p first).append h)
    · rw [if_neg htag, if_neg htag, bind_assoc, bind_assoc]
      refine (ihc tag).bind fun _ _ hc => ?_
      rw [pure_bind, pure_bind]
      exact (ih parent).bind fun _ _ h => .pure (.element hc h)

end Include

/-- The second template lacks some childless elements of ignored tags below one body of the first. What is below another
body than the first one is not written. -/
def Template.PrunedTo (ignored : String → Prop) (t t' : Template) : Prop :=
  ∃ before a children children' after,
    t.children = before ++ .element bodyTag a children :: after ∧
    t'.children = before ++ .element bodyTag a children' :: after ∧
    Pruned ignored (if before.any (Node.hasTag bodyTag) then .hidden else .inside .body) children children'

namespace Include

variable {m : Type → Type} [Monad m] [LawfulMonad m] {replace : String → Attributes → ExceptT Error m (List Node)}

/-- An element that is no include stays among its siblings. -/
theorem replaceAll_keeps {tag : String} (htag : tag ≠ includeTag) (parent : String) (l : List Node) :
    Returns (fun l' => l.any (Node.hasTag tag) = true → l'.any (Node.hasTag tag) = true)
      (replaceAll replace parent l) := by
  induction l with
  | nil => exact .pure fun h => h
  | cons n l ih =>
    have hfirst : Returns (fun l' => n.hasTag tag = true → l'.any (Node.hasTag tag) = true)
        (replaceIn replace parent n) := by
      cases n with
      | element found a children =>
        rw [replaceIn]
        split
        · rename_i hfound
          refine (bind_pure (replace parent a)) ▸ .bind_any _ fun l' => .pure fun h => ?_
          have heq : found = tag := by simpa [Node.hasTag, Node.tag?] using h
          exact absurd (heq.symm.trans hfound) htag
        · exact .bind_any _ fun children' => .pure fun h => by simpa [Node.hasTag, Node.tag?] using h
      | _ => exact .pure fun h => by cases h
    rw [replaceAll]
    refine hfirst.bind fun first hfirst => ih.bind fun others hothers => .pure ?_
    intro h
    simp only [List.any_cons, Bool.or_eq_true] at h
    simp only [List.any_append, Bool.or_eq_true]
    exact h.imp hfirst hothers

variable {ignored : String → Prop} (hi : ∀ tag, ignored tag → tag ≠ includeTag)

include hi

theorem replaceAll_prunedTo {t t' : Template} (h : t.PrunedTo ignored t') (parent : String) :
    Coupled (fun l l' => ∀ a a', Template.PrunedTo ignored ⟨a, l⟩ ⟨a', l'⟩) (replaceAll replace parent t.children)
      (replaceAll replace parent t'.children) := by
  obtain ⟨before, a, children, children', after, ht, ht', hp⟩ := h
  have hbody : Template.bodyTag ≠ includeTag := by decide
  rw [ht, ht', replaceAll_append, replaceAll_append]
  refine Coupled.bind (replaceAll_keeps hbody parent before) ?_
  rintro before' _ ⟨rfl, hbefore⟩
  rw [replaceAll, replaceAll, replaceIn, replaceIn, if_neg hbody, if_neg hbody]
  simp only [bind_assoc, pure_bind]
  refine (replaceAll_pruned hi hp Template.bodyTag).bind fun new new' hnew => .bind_same _ fun after' => .pure ?_
  refine fun _ _ => ⟨before', a, new, new', after', rfl, rfl, ?_⟩
  -- an include before the body can bring another body, and then nothing is written of this one
  split
  · exact hnew.hide
  · rename_i hnone
    rwa [if_neg fun h => hnone (hbefore h)] at hnew

theorem expand_prunedTo {limits : Limits} {resolve : Resolver m} {t t' : Template} (h : t.PrunedTo ignored t') :
    Coupled (Template.PrunedTo ignored) (expand limits resolve t) (expand limits resolve t') := by
  unfold expand
  refine .bind_same _ fun _ => ?_
  have hchildren : Coupled (fun l l' => ∀ a a', Template.PrunedTo ignored ⟨a, l⟩ ⟨a', l'⟩)
      (expandChildren limits resolve limits.includeDepth [] Template.rootTag t.children)
      (expandChildren limits resolve limits.includeDepth [] Template.rootTag t'.children) := by
    cases limits.includeDepth with
    | zero => exact replaceAll_prunedTo hi h Template.rootTag
    | succ levels => exact replaceAll_prunedTo hi h Template.rootTag
  exact hchildren.bind fun _ _ hl => .pure (hl _ _)

end Include

/-! ## The head -/

namespace Head

/-- What is read does not depend on the warnings so far. -/
def Steady (f : Reading → Reading) : Prop := ∀ h ds ds', (f (h, ds)).1 = (f (h, ds')).1

theorem Steady.eq {f : Reading → Reading} (hf : Steady f) {r r' : Reading} (h : r.1 = r'.1) : (f r).1 = (f r').1 := by
  obtain ⟨h₁, ds⟩ := r
  obtain ⟨h₂, ds'⟩ := r'
  obtain rfl : h₁ = h₂ := h
  exact hf h₁ ds ds'

theorem Steady.foldl {α : Type} {f : Reading → α → Reading} (hf : ∀ a, Steady fun r => f r a) (l : List α) :
    Steady fun r => l.foldl f r := by
  have hall : ∀ r r' : Reading, r.1 = r'.1 → (l.foldl f r).1 = (l.foldl f r').1 := by
    induction l with
    | nil => exact fun _ _ h => h
    | cons a l ih => exact fun r r' h => ih _ _ ((hf a).eq h)
  exact fun h ds ds' => hall _ _ rfl

theorem steady_readRule (n : Node) : Steady (readRule n) := by
  intro h ds ds'
  unfold readRule
  split
  · rfl
  · split
    · split <;> rfl
    · rfl

theorem steady_readHtmlRule (n : Node) : Steady (readHtmlRule n) := by
  intro h ds ds'
  unfold readHtmlRule
  split
  · rfl
  · extract_lets found
    split <;> rfl

theorem steady_readComponent (b : Builtin) (n : Node) : Steady (readComponent b n) := by
  intro h ds ds'
  unfold readComponent
  split
  · unfold readTitle
    split <;> rfl
  · unfold readPreview
    split <;> rfl
  · unfold readBreakpoint
    split <;> rfl
  · unfold readFont
    split
    · split <;> rfl
    · rfl
  · unfold readStyle
    extract_lets css
    split <;> rfl
  · exact Steady.foldl steady_readRule _ h ds ds'
  · exact Steady.foldl steady_readHtmlRule _ h ds ds'
  · unfold readRaw
    split <;> rfl
  · rfl
  · rfl

theorem steady_readChild (registry : Registry) (n : Node) : Steady fun r => readChild registry r n := by
  intro h ds ds'
  cases n with
  | element tag a children =>
    simp only [readChild]
    split
    · split
      · exact steady_readComponent _ _ h ds ds'
      · rfl
    · rfl
    · rfl
  | comment content =>
    simp only [readChild]
    split <;> rfl
  | _ => rfl

theorem read_fst (registry : Registry) (head : Node) (ds ds' : Diagnostics) :
    (read registry head ds).1 = (read registry head ds').1 :=
  Steady.foldl (steady_readChild registry) head.children {} ds ds'

end Head

/-! ## The page -/

namespace Template.PrunedTo

variable {ignored : String → Prop} {t t' : Template}

theorem head?_eq (h : t.PrunedTo ignored t') : t.head? = t'.head? := by
  obtain ⟨before, a, children, children', after, ht, ht', -⟩ := h
  have hnot (children : List Node) : Node.hasTag headTag (.element bodyTag a children) = false := rfl
  simp [Template.head?, Node.child?, Template.root, Node.children, ht, ht', List.find?_append, hnot]

/-- The bodies that are rendered are an element and the same element with pruned children. -/
theorem body?_eq (h : t.PrunedTo ignored t') : ∃ tag a children children',
    t.body? = some (.element tag a children) ∧ t'.body? = some (.element tag a children') ∧
      Pruned ignored (.inside .body) children children' := by
  obtain ⟨before, a, children, children', after, ht, ht', hp⟩ := h
  have hhas (children : List Node) : Node.hasTag bodyTag (.element bodyTag a children) = true := rfl
  simp only [Template.body?, Node.child?, Template.root, Node.children, ht, ht', List.find?_append]
  cases hfirst : before.find? (Node.hasTag bodyTag) with
  | none =>
    have hnone : before.any (Node.hasTag bodyTag) = false := by
      rw [List.any_eq_false]
      intro n hn
      simpa using List.find?_eq_none.1 hfirst n hn
    rw [hnone] at hp
    exact ⟨bodyTag, a, children, children', by simp [hhas], by simp [hhas], hp⟩
  | some body =>
    have htag := List.find?_some hfirst
    cases body with
    | element tag a children => exact ⟨tag, a, children, children, rfl, rfl, .refl _ _⟩
    | _ => cases htag

end Template.PrunedTo

namespace Compiler

variable {m : Type → Type}

/-- The tags that a compile ignores where no component of the caller's is there to know them. -/
def Ignores (c : Configuration m) (tag : String) : Prop :=
  Builtin.ofTag? tag = none ∧ (c.resolver.isSome = true → tag ≠ Include.includeTag)

theorem headOf_eq {ignored : String → Prop} (hi : ∀ tag, ignored tag → Builtin.ofTag? tag = none) {p : Place}
    {children children' : List Node} (h : Pruned ignored p children children') (head : Head) (tag : String)
    (a : Attributes) : headOf head (.element tag a children) = headOf head (.element tag a children') := by
  have hc (rules : Head.AttributeRules) : (⟨.element tag a children, rules, Builtin.body.defaults⟩ : Cascade).Alike
      ⟨.element tag a children', rules, Builtin.body.defaults⟩ := fun _ => rfl
  simp only [headOf, Head.linkFonts, families_eq hi h, (hc _).getD]

/-- What the head of a template says, before the body is looked at. -/
def headIn (registry : Registry) (t : Template) : Head :=
  match t.head? with
  | some head => (Head.read registry head {}).1
  | none => {}

def contextOf (c : Configuration m) (t : Template) (body : Node) : Render.Context :=
  ⟨headOf (headIn c.registry t) body, c.registry, c.sanitize, c.language, c.direction⟩

/-- A template with a body is rendered as its body is, from the warnings of its includes and its head. -/
theorem renderTemplate_of_body (c : Configuration m) {t : Template} {body : Node} (hbody : t.body? = some body) :
    ∃ ds, ∀ html o, (renderBody (contextOf c t body) body).run { diagnostics := ds } = .ok (html, o) →
      renderTemplate c t = .ok (html, o.effects.foldl Effect.apply (contextOf c t body).head, o.diagnostics) := by
  cases hhead : t.head? with
  | none =>
    refine ⟨warnIncludes t {}, fun html o hrun => ?_⟩
    simp only [contextOf, headIn, hhead] at hrun ⊢
    simp only [renderTemplate, hhead, hbody]
    exact bind_eq_ok.2 ⟨(html, o), hrun, rfl⟩
  | some head =>
    refine ⟨(Head.read c.registry head (warnIncludes t {})).2, fun html o hrun => ?_⟩
    simp only [contextOf, headIn, hhead, Head.read_fst c.registry head {} (warnIncludes t {})] at hrun ⊢
    simp only [renderTemplate, hhead, hbody]
    exact bind_eq_ok.2 ⟨(html, o), hrun, rfl⟩

/-- Templates of which one is pruned give the same text and the same head. -/
theorem renderTemplate_alike {c : Configuration m} (hcustom : c.components = []) {ignored : String → Prop}
    (hi : ∀ tag, ignored tag → Builtin.ofTag? tag = none) {t t' : Template} (h : t.PrunedTo ignored t') :
    ∃ html head ds ds', renderTemplate c t = .ok (html, head, ds) ∧ renderTemplate c t' = .ok (html, head, ds') := by
  obtain ⟨tag, a, children, children', hbody, hbody', hp⟩ := h.body?_eq
  have hctx : contextOf c t' (.element tag a children') = contextOf c t (.element tag a children) := by
    rw [contextOf, contextOf, headIn, headIn, h.head?_eq, headOf_eq hi hp]
  have hagree : Agree (renderBody (contextOf c t (.element tag a children)) (.element tag a children))
      (renderBody (contextOf c t (.element tag a children)) (.element tag a children')) :=
    renderBody_agree hcustom hi tag a hp
  obtain ⟨ds, hrender⟩ := renderTemplate_of_body c hbody
  obtain ⟨ds', hrender'⟩ := renderTemplate_of_body c hbody'
  rw [hctx] at hrender'
  obtain ⟨html, p, p', hrun, hrun', heffects⟩ :=
    @hagree { diagnostics := ds } { diagnostics := ds' } rfl
  rw [hrender html p hrun, hrender' html p' hrun', heffects]
  exact ⟨_, _, _, _, rfl, rfl⟩

theorem finish_alike {c : Configuration m} (hcustom : c.components = []) {ignored : String → Prop}
    (hi : ∀ tag, ignored tag → Builtin.ofTag? tag = none) {t t' : Template} (h : t.PrunedTo ignored t') :
    ∃ out out', finish c t = .ok out ∧ finish c t' = .ok out' ∧ out'.html = out.html ∧ out'.title = out.title ∧
      out'.preview = out.preview := by
  obtain ⟨html, head, ds, ds', hr, hr'⟩ := renderTemplate_alike hcustom hi h
  exact ⟨_, _, finish_eq_ok.2 ⟨html, head, ds, hr, rfl⟩, finish_eq_ok.2 ⟨html, head, ds', hr', rfl⟩, rfl, rfl, rfl⟩

/-- The expansions run the same way, and what was pruned stays pruned. -/
theorem expanded_pruned [Monad m] [LawfulMonad m] {c : Configuration m} {source source' : String} {t t' : Template}
    (hr : read c.limits source = .ok t) (hr' : read c.limits source' = .ok t') (h : t.PrunedTo (Ignores c) t') :
    Coupled (Template.PrunedTo (Ignores c)) (expanded c source) (expanded c source') := by
  rw [expanded_of_read hr, expanded_of_read hr']
  cases hc : c.resolver with
  | none => exact .pure h
  | some resolve =>
    have hi : ∀ tag, Ignores c tag → tag ≠ Include.includeTag := fun tag ht => ht.2 (by rw [hc]; rfl)
    exact Include.expand_prunedTo hi h

theorem read_markup {limits : Include.Limits} {t : Template} (hw : Template.isWritable t.root = true)
    (hd : Template.levelsAll t.children ≤ limits.nestingDepth) (hsize : t.root.markup.length ≤ limits.inputSize) :
    read limits t.root.markup = .ok t := by
  rw [read, if_neg (Nat.not_lt.2 hsize), Template.parse, Template.ofChars_markup hw hd]

end Compiler

namespace Render

/-! ## Rows of wrappers -/

def quotes (s : String) : Nat := s.toList.count '"'

@[simp] theorem quotes_append (s t : String) : quotes (s ++ t) = quotes s + quotes t := by
  rw [quotes, String.toList_append, List.count_append, quotes, quotes]

@[simp] theorem quotes_empty : quotes "" = 0 := rfl

theorem quotes_wrapperRow (width : Nat) (inner : Int) : 0 < quotes (wrapperRow width inner) := by
  have hquote : '"' ∈ (toString "<tr><td class=\"\" width=\"").toList := by decide
  unfold quotes wrapperRow
  rw [List.count_pos_iff]
  simp only [String.toList_append, List.append_assoc]
  apply List.mem_append_left
  exact hquote

/-- A wrapper opens a row if it has an element, whatever that is. -/
theorem quotes_wrapperItems_lt (ctx : Context) (c c' : Cascade) (s s' : Surroundings) (h : c.node.elementChildren = [])
    (h' : c'.node.elementChildren ≠ []) :
    quotes (wrapperItems ctx c s).opening < quotes (wrapperItems ctx c' s').opening := by
  have hcount : c'.node.elementChildren.length ≠ 0 := fun h => h' (List.length_eq_zero_iff.1 h)
  have hempty : c.node.elementChildren.length = 0 := by rw [h, List.length_nil]
  simp only [wrapperItems, hempty, hcount, if_true, if_false, line, quotes_append]
  have htable : quotes "</table>" = 0 := by decide
  have hclose : quotes outlookClose = 0 := by decide
  have hline : quotes "\n" = 0 := by decide
  have hrow := quotes_wrapperRow ctx.width (Number.truncate (Float.ofNat ctx.width - (fullBox c').horizontal))
  omega

theorem wrapperItems_closing (ctx : Context) (c : Cascade) (s : Surroundings) : (wrapperItems ctx c s).closing = "" := by
  unfold wrapperItems
  extract_lets count width row inner place
  split <;> rfl

/-- The quotes that a wrapper writes. Those of its children are not looked at. -/
theorem quotes_renderWrapper {ctx : Context} (hcustom : ctx.registry.custom = []) {a : Attributes} {children : List Node}
    {s₀ : Surroundings} {o p : Outcome} {html : String}
    (h : (renderNode ctx (.element "mj-wrapper" a children) s₀).run o = .ok (html, p)) :
    let c := ctx.cascade (.element "mj-wrapper" a children) .wrapper
    let box := rowBox ctx c .wrapper {}
    ∃ s n, quotes html = quotes box.opening + quotes (wrapperItems ctx c s).opening + n + quotes box.closing ∧
      (children = [] → n = 0) := by
  intro c box
  have htag : Builtin.ofTag? "mj-wrapper" = some .wrapper := rfl
  rw [renderNode_builtin hcustom htag, StateT.run_bind] at h
  obtain ⟨⟨content, q⟩, hcontent, h⟩ := bind_eq_ok.1 h
  cases h
  have houtline : outline ctx .wrapper (.element "mj-wrapper" a children) s₀ =
      (wrapperItems ctx c s₀).within box.opening box.closing := rowBox_eq_within ctx c .wrapper _
  refine ⟨s₀, quotes content, ?_, ?_⟩
  · simp only [houtline, Outline.within, wrapperItems_closing, quotes_append, quotes_empty]
    omega
  · rintro rfl
    cases hcontent
    rfl

/-- A body whose wrapper gets its first element is written with more quotes. -/
theorem quotes_renderBody_lt {ctx : Context} (hcustom : ctx.registry.custom = []) {tag : String} {a a₁ : Attributes}
    {children : List Node} (hchildren : children.filter Node.isElement ≠ []) {o o' p p' : Outcome} {html html' : String}
    (h : (renderBody ctx (.element tag a [.element "mj-wrapper" a₁ []])).run o = .ok (html, p))
    (h' : (renderBody ctx (.element tag a [.element "mj-wrapper" a₁ children])).run o' = .ok (html', p')) :
    quotes html < quotes html' := by
  have hbox := rowBox_sameFrame ctx (cascade_alike ctx .wrapper "mj-wrapper" a₁ [] children) .wrapper (.refl {})
  have hframe := bodyOutline_sameFrame ctx (cascade_alike ctx .body tag a [.element "mj-wrapper" a₁ []]
    [.element "mj-wrapper" a₁ children])
  unfold renderBody at h h'
  rw [StateT.run_bind] at h h'
  obtain ⟨⟨content, p₁⟩, hcontent, h⟩ := bind_eq_ok.1 h
  obtain ⟨⟨content', p₁'⟩, hcontent', h'⟩ := bind_eq_ok.1 h'
  cases h
  cases h'
  obtain ⟨⟨text, p₂⟩, hnode, hothers⟩ := bind_eq_ok.1 hcontent
  obtain ⟨⟨text', p₂'⟩, hnode', hothers'⟩ := bind_eq_ok.1 hcontent'
  cases hothers
  cases hothers'
  obtain ⟨s, n, htext, hn⟩ := quotes_renderWrapper hcustom hnode
  obtain ⟨s', n', htext', -⟩ := quotes_renderWrapper hcustom hnode'
  have hitems := quotes_wrapperItems_lt ctx (ctx.cascade (.element "mj-wrapper" a₁ []) .wrapper)
    (ctx.cascade (.element "mj-wrapper" a₁ children) .wrapper) s s' rfl hchildren
  simp only [quotes_append, quotes_empty, htext, htext', hn rfl, hframe.opening, hframe.closing, hbox.opening,
    hbox.closing]
  omega

end Render

namespace Page

/-- A page shows its body. -/
theorem document_injective (h : Head) (language : String) (direction : Direction) {body body' : String}
    (heq : document h language direction body = document h language direction body') : body = body' := by
  unfold document at heq
  simpa only [String.append_left_inj, String.append_right_inj] using heq

end Page

namespace Compiler

variable {m : Type → Type}

/-- Where the head has neither attributes for HTML nor styles to inline, pages that are the same show bodies with as many
quotes. -/
theorem quotes_eq_of_page_eq {c : Configuration m} {h : Head} (hrules : h.rules.html = [])
    (hstyles : h.styles.inlineStyles = []) {body body' : String} (heq : page c h body = page c h body') :
    quotes body = quotes body' := by
  have hpage (body : String) : page c h body =
      Page.document h c.language c.direction (String.ofList (Page.joinConditionals body.toList)) := by
    unfold page
    rw [hrules, hstyles]
    rfl
  have hcount (body : String) : quotes (String.ofList (Page.joinConditionals body.toList)) = quotes body := by
    rw [quotes, String.toList_ofList]
    exact Page.count_joinConditionals (by decide) (by decide) (by decide) _
  rw [hpage, hpage] at heq
  rw [← hcount, Page.document_injective _ _ _ heq, hcount]

/-- A template with a body is rendered, and its text is the text of its body. -/
theorem exists_renderTemplate_eq {c : Configuration m} (hcustom : c.components = []) {t : Template} {tag : String}
    {a : Attributes} {children : List Node} (hbody : t.body? = some (.element tag a children)) :
    ∃ r o p, renderTemplate c t = .ok r ∧
      (renderBody (contextOf c t (.element tag a children)) (.element tag a children)).run o = .ok (r.1, p) := by
  obtain ⟨ds, hrender⟩ := renderTemplate_of_body c hbody
  have hagree : Agree (renderBody (contextOf c t (.element tag a children)) (.element tag a children))
      (renderBody (contextOf c t (.element tag a children)) (.element tag a children)) :=
    renderBody_agree hcustom (fun _ h => h) tag a (.refl _ _)
  obtain ⟨html, p, -, hrun, -⟩ := @hagree { diagnostics := ds } { diagnostics := ds } rfl
  exact ⟨_, _, p, hrender html p hrun, hrun⟩

def wrappingBody (children : List Node) : Node :=
  .element Template.bodyTag .empty [.element "mj-wrapper" .empty children]

def wrapping (children : List Node) : Template := ⟨.empty, [wrappingBody children]⟩

/-- The page of a wrapper shows whether the wrapper has an element, if all else that it shows is the same. -/
theorem finish_wrapping_ne {c : Configuration m} (hcustom : c.components = []) {children : List Node}
    (hchildren : children.filter Node.isElement ≠ [])
    (hctx : contextOf c (wrapping children) (wrappingBody children) = contextOf c (wrapping []) (wrappingBody []))
    {h : Head} (hrules : h.rules.html = []) (hstyles : h.styles.inlineStyles = [])
    (hhead : (renderTemplate c (wrapping children)).toOption.map (fun r => r.2.1) = some h)
    (hhead' : (renderTemplate c (wrapping [])).toOption.map (fun r => r.2.1) = some h) :
    ∃ out out', finish c (wrapping children) = .ok out ∧ finish c (wrapping []) = .ok out' ∧ out'.html ≠ out.html := by
  have hbody (children : List Node) : (wrapping children).body? = some (wrappingBody children) := rfl
  obtain ⟨⟨html, head, ds⟩, o, p, hr, hrun⟩ := exists_renderTemplate_eq hcustom (hbody children)
  obtain ⟨⟨html', head', ds'⟩, o', p', hr', hrun'⟩ := exists_renderTemplate_eq hcustom (hbody [])
  rw [hr] at hhead
  rw [hr'] at hhead'
  obtain rfl : head = h := Option.some.inj hhead
  obtain rfl : head' = head := Option.some.inj hhead'
  unfold wrappingBody at hctx
  rw [← hctx] at hrun'
  have hlt := quotes_renderBody_lt hcustom hchildren hrun' hrun
  refine ⟨_, _, finish_eq_ok.2 ⟨html, _, ds, hr, rfl⟩, finish_eq_ok.2 ⟨html', _, ds', hr', rfl⟩, ?_⟩
  intro heq
  exact absurd (quotes_eq_of_page_eq hrules hstyles heq) (Nat.ne_of_lt hlt)

/-! ## Compiling without unknown elements -/

/-- Without components of the caller's, a template that compiles and the template without some childless elements of
unknown tags compile alike: from the same state to the same state, with the same page, title and preview. The elements
may stand anywhere below a body but in a rendered wrapper, and inside a rendered component that writes its children as
they stand; with a resolver they are no includes. -/
theorem compile_pruned {σ : Type} {c : Configuration (StateM σ)} (hcustom : c.components = []) {source source' : String}
    {t t' : Template} (hr : read c.limits source = .ok t) (hr' : read c.limits source' = .ok t')
    (h : t.PrunedTo (Ignores c) t') {s s' : σ} {out : Output}
    (hrun : (compile c source).run.run s = (.ok out, s')) :
    ∃ out', (compile c source').run.run s = (.ok out', s') ∧ out'.html = out.html ∧ out'.title = out.title ∧
      out'.preview = out.preview := by
  obtain ⟨t₁, ht₁, hf⟩ := run_compile_eq_ok.1 hrun
  obtain ⟨t₁', ht₁', hp⟩ := (expanded_pruned hr hr' h).exists_run ht₁
  obtain ⟨out₁, out', hf₁, hf', halike⟩ := finish_alike hcustom (fun _ ht => ht.1) hp
  rw [hf] at hf₁
  cases hf₁
  exact ⟨out', run_compile_eq_ok.2 ⟨t₁', ht₁', hf'⟩, halike⟩

/-- An unknown element beside an include, which is resolved either way. -/
theorem compile_pruned_include :
    let c : Configuration (StateM Unit) := { resolver := some (Include.ofList [("a", "<mj-spacer />")]) }
    let mail (children : List Node) : Template := ⟨.empty, [.element "mj-body" .empty [.element "mj-section" .empty
      [.element "mj-column" .empty (.element "mj-include" (.ofList [("path", "a")]) [] :: children)]]]⟩
    let unknown : Node := .element "mj-foo" .empty []
    ∃ out out', (compile c (mail [unknown]).root.markup).run.run () = (.ok out, ()) ∧
      (compile c (mail []).root.markup).run.run () = (.ok out', ()) ∧ out'.html = out.html := by
  intro c mail unknown
  have hread : read c.limits (mail [unknown]).root.markup = .ok (mail [unknown]) :=
    read_markup (by decide) (by decide) (by decide)
  have hread' : read c.limits (mail []).root.markup = .ok (mail []) := read_markup (by decide) (by decide) (by decide)
  have hpruned : (mail [unknown]).PrunedTo (Ignores c) (mail []) :=
    ⟨[], .empty, _, _, [], rfl, rfl,
      .element (.element (.delete rfl ⟨by decide, by decide⟩ .empty [.element "mj-include" _ []] []) .nil) .nil⟩
  obtain ⟨out, hrun, -⟩ := exists_of_map_eq (f := fun _ => ()) (v := ())
    (r := (compile c (mail [unknown]).root.markup).run.run ()) (by decide +kernel)
  obtain ⟨out', hrun', hhtml, -⟩ := compile_pruned rfl hread hread' hpruned hrun
  exact ⟨out, out', hrun, hrun', hhtml⟩

/-- A wrapper opens a row for a childless element of an unknown tag. -/
theorem compile_wrapper_row :
    let c : Configuration (StateM Unit) := {}
    let unknown : Node := .element "mj-foo" .empty []
    Ignores c "mj-foo" ∧ ∃ out out', (compile c (wrapping [unknown]).root.markup).run.run () = (.ok out, ()) ∧
      (compile c (wrapping []).root.markup).run.run () = (.ok out', ()) ∧ out'.html ≠ out.html := by
  intro c unknown
  have hread : read c.limits (wrapping [unknown]).root.markup = .ok (wrapping [unknown]) :=
    read_markup (by decide) (by decide) (by decide)
  have hread' : read c.limits (wrapping []).root.markup = .ok (wrapping []) :=
    read_markup (by decide) (by decide) (by decide)
  have hpruned : Pruned (Ignores c) .hidden [.element "mj-wrapper" .empty [unknown]] [.element "mj-wrapper" .empty []] :=
    .element (.gone rfl ⟨by decide, by decide⟩ .nil) .nil
  have hctx : contextOf c (wrapping [unknown]) (wrappingBody [unknown]) = contextOf c (wrapping []) (wrappingBody []) := by
    unfold contextOf wrappingBody
    rw [headOf_eq (fun _ h => h.1) hpruned]
    rfl
  obtain ⟨out, out', hf, hf', hne⟩ := finish_wrapping_ne (h := headOf {} (wrappingBody [])) rfl (by decide) hctx rfl rfl
    (by decide +kernel) (by decide +kernel)
  refine ⟨⟨by decide, by decide⟩, out, out', ?_, ?_, hne⟩
  · exact run_compile_eq_ok.2 ⟨_, by rw [expanded_of_read hread]; rfl, hf⟩
  · exact run_compile_eq_ok.2 ⟨_, by rw [expanded_of_read hread']; rfl, hf'⟩

end Compiler

end EmailMarkup
