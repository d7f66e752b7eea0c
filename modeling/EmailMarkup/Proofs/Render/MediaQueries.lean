import EmailMarkup.Proofs.Compiler
import EmailMarkup.Proofs.Head.Styles
import EmailMarkup.Proofs.Render.Containers
/-!
# Media queries of columns

A column or group gets its width on wide screens from the section or group that it stands in, and hands it down to the
columns below it that stand in neither. When it is complete, with all that stands in it, it adds a media query for this
width to the head. `completed` lists the columns and groups of a body in this order. The media queries of a mail are
those of this list without repetition, and each class that a column or group has in the body has its rule on the page
(`renderTemplate_mediaQueries`).
-/
namespace EmailMarkup

/-! ## Texts that stand in others -/

namespace Text

def StandsIn (s t : String) : Prop := ∃ before after, t = before ++ s ++ after

namespace StandsIn

variable {s t : String}

theorem refl (s : String) : StandsIn s s := ⟨"", "", by simp⟩

theorem append_left (h : StandsIn s t) (before : String) : StandsIn s (before ++ t) := by
  obtain ⟨a, b, rfl⟩ := h
  exact ⟨before ++ a, b, by simp only [String.append_assoc]⟩

theorem append_right (h : StandsIn s t) (after : String) : StandsIn s (t ++ after) := by
  obtain ⟨a, b, rfl⟩ := h
  exact ⟨a, b ++ after, by simp only [String.append_assoc]⟩

theorem intercalate {l : List String} (h : s ∈ l) (separator : String) : StandsIn s (separator.intercalate l) := by
  induction l with
  | nil => cases h
  | cons a l ih =>
    by_cases hl : l = []
    · subst hl
      obtain rfl := List.mem_singleton.1 h
      rw [String.intercalate_singleton]
      exact refl s
    · rw [String.intercalate_cons_of_ne_nil hl]
      rcases List.mem_cons.1 h with rfl | h
      · exact ((refl s).append_right _).append_right _
      · exact (ih h).append_left _

end StandsIn

end Text

open Text

namespace Render

open Head

/-! ## Columns and groups in the order of their completion -/

/-- A column or group that is rendered. -/
structure Completed where
  node : Node
  /-- Its width on wide screens, as it is told. -/
  spec : Option String

namespace Completed

def query (e : Completed) : MediaQuery := columnQuery e.spec

def start (e : Completed) : String := "<div class=\"" ++ columnClass e.spec ++ " mj-outlook-group-fix\""

end Completed

/-- The width that a column or group declares, under the attribute rules of a head. -/
def widthUnder (rules : AttributeRules) (n : Node) : Option String :=
  Cascade.nonEmpty? ⟨n, rules, (if n.hasTag groupTag then Builtin.group else Builtin.column).defaults⟩ "width"

/-- What the children that a container renders are told about their width on wide screens. Sections and groups divide
their own width, the others hand down what they are told. -/
def Container.specs (k : Container) (rules : AttributeRules) (nodes : List Node) (told : Option String) :
    List (Option String) :=
  let kept := nodes.filter k.keeps
  match k with
  | sectionRow | group => (Layout.columnSpecs (kept.map (widthUnder rules))).map some
  | _ => kept.map fun _ => told

/-- What a component completes itself, after its children. -/
def ownBox (b : Builtin) (n : Node) (told : Option String) : List Completed :=
  match b with
  | .column | .group => [⟨n, told⟩]
  | _ => []

mutual

/-- The columns and groups that rendering a node completes, in this order. -/
def completed (registry : Registry) (rules : AttributeRules) : Node → Option String → List Completed
  | .element tag attributes children, told =>
    match registry.lookup? tag with
    | some (.builtin b) =>
      (match container? b with
      | some k => completedBelow registry rules k.keeps children (k.specs rules children told)
      | none => []) ++ ownBox b (.element tag attributes children) told
    | _ => []
  | _, _ => []

/-- Those of the children that are kept, each with what it is told. -/
def completedBelow (registry : Registry) (rules : AttributeRules) (keep : Node → Bool) :
    List Node → List (Option String) → List Completed
  | n :: rest, told :: specs =>
    if keep n then completed registry rules n told ++ completedBelow registry rules keep rest specs
    else completedBelow registry rules keep rest (told :: specs)
  | _, _ => []

end

def completedIn (registry : Registry) (rules : AttributeRules) (body : Node) : List Completed :=
  completedBelow registry rules Container.body.keeps body.children (Container.body.specs rules body.children none)

theorem completedBelow_nil (registry : Registry) (rules : AttributeRules) (keep : Node → Bool) (nodes : List Node) :
    completedBelow registry rules keep nodes [] = [] := by
  cases nodes <;> rfl

theorem completedBelow_of_not_keep {registry : Registry} {rules : AttributeRules} {keep : Node → Bool} {n : Node}
    (h : keep n = false) (rest : List Node) (specs : List (Option String)) :
    completedBelow registry rules keep (n :: rest) specs = completedBelow registry rules keep rest specs := by
  cases specs with
  | nil => rw [completedBelow_nil, completedBelow_nil]
  | cons told specs => rw [completedBelow, h, if_neg Bool.false_ne_true]

/-! ## What children are told -/

/-- What a child is told about its width on wide screens, if it is rendered. -/
def Placement.told? : Placement → Option (Option String)
  | child _ s _ => some s.columnSpec
  | _ => none

/-- What the children are told that are rendered. -/
def toldBy (places : List Placement) : List (Option String) := places.filterMap Placement.told?

theorem toldBy_placeChildren {place : Nat → Node → Placement} {keep : Node → Bool} {f : Nat → Option String}
    (h : ∀ i n, (place i n).told? = if keep n then some (f i) else none) (i : Nat) (nodes : List Node) :
    toldBy (placeChildren place i nodes) = (List.range' i (nodes.filter keep).length).map f := by
  induction nodes generalizing i with
  | nil => rfl
  | cons n nodes ih =>
    have hn := h i n
    rw [placeChildren, List.filter_cons]
    by_cases hk : keep n = true
    · rw [if_pos hk] at hn ⊢
      rw [List.length_cons, List.range'_succ, List.map_cons, ← ih]
      cases hplace : place i n with
      | child before s after =>
        rw [hplace] at hn
        rw [← Option.some.inj hn]
        rfl
      | _ =>
        rw [hplace] at hn
        cases hn
    · rw [if_neg hk] at hn ⊢
      rw [← ih]
      cases hplace : place i n with
      | child before s after =>
        rw [hplace] at hn
        cases hn
      | _ => rfl

/-- Children that are told what their parent is told. -/
theorem toldBy_handDown {place : Nat → Node → Placement} {keep : Node → Bool} {told : Option String}
    (h : ∀ i n, (place i n).told? = if keep n then some told else none) (nodes : List Node) :
    toldBy (placeChildren place 0 nodes) = (nodes.filter keep).map fun _ => told := by
  rw [toldBy_placeChildren h, List.map_const', List.map_const', List.length_range']

/-- Columns that are told their parts of a row. -/
theorem toldBy_divide {place : Nat → Node → Placement} {keep : Node → Bool} {width : Node → Option String}
    {nodes : List Node} (h : ∀ i n, (place i n).told? =
      if keep n then some (some ((Layout.columnSpecs ((nodes.filter keep).map width)).getD i "")) else none) :
    toldBy (placeChildren place 0 nodes) = (Layout.columnSpecs ((nodes.filter keep).map width)).map some := by
  have hlength : (Layout.columnSpecs ((nodes.filter keep).map width)).length = (nodes.filter keep).length := by
    simp [Layout.columnSpecs]
  rw [toldBy_placeChildren h]
  refine List.ext_getElem (by simp [hlength]) fun i hi hi' => ?_
  rw [List.length_map] at hi'
  simp [hi']

/-- Containers that render whatever they hold divide nothing. -/
theorem Container.specs_of_renders {k : Container} (h : ∀ tag, k.renders tag = true) (rules : AttributeRules)
    (nodes : List Node) (told : Option String) :
    k.specs rules nodes told = (nodes.filter Node.isElement).map fun _ => told := by
  rw [← funext (keeps_eq_isElement h)]
  cases k with
  | sectionRow | group => exact absurd (h "") (by decide)
  | _ => rfl

section

variable (ctx : Context) (c : Cascade) (s : Surroundings)

theorem toldBy_sectionOutline : toldBy (sectionOutline ctx c s).children =
    Container.sectionRow.specs ctx.head.rules c.node.children s.columnSpec := by
  obtain ⟨before, after, h⟩ := exists_sectionOutline_eq ctx c s
  rw [h, within_children, Container.specs, funext keeps_sectionRow]
  unfold sectionColumns
  extract_lets columns declared widths specs place
  split
  · rename_i hempty
    show toldBy [] = (Layout.columnSpecs (columns.map (widthUnder ctx.head.rules))).map some
    rw [List.isEmpty_iff.1 hempty]
    rfl
  · refine toldBy_divide fun i n => ?_
    simp only [place]
    split <;> rfl

theorem toldBy_groupOutline : toldBy (groupOutline ctx c s).children =
    Container.group.specs ctx.head.rules c.node.children s.columnSpec := by
  rw [Container.specs, funext keeps_group]
  refine toldBy_divide fun i n => ?_
  split <;> rfl

theorem toldBy_wrapperOutline : toldBy (wrapperOutline ctx c s).children =
    Container.wrapper.specs ctx.head.rules c.node.children s.columnSpec := by
  rw [wrapperOutline, rowBox_children, Container.specs_of_renders fun _ => rfl]
  unfold wrapperItems
  extract_lets count width row inner place
  split
  · rename_i hzero
    show toldBy [] = c.node.elementChildren.map fun _ => s.columnSpec
    rw [List.length_eq_zero_iff.1 hzero]
    rfl
  · refine toldBy_handDown (fun i n => ?_) _
    simp only [place]
    split <;> rfl

theorem told?_columnItem (indent : Nat) (n : Node) (s : Surroundings) :
    (columnItem ctx indent n s).told? = if n.isElement then some s.columnSpec else none := by
  unfold columnItem Node.isElement
  cases n.tag? with
  | none => rfl
  | some tag =>
    simp only
    split <;> rfl

theorem toldBy_columnOutline : toldBy (columnOutline ctx c s).children =
    Container.column.specs ctx.head.rules c.node.children s.columnSpec := by
  have hitems (indent : Nat) : toldBy (columnItems ctx c s indent).children =
      Container.column.specs ctx.head.rules c.node.children s.columnSpec := by
    rw [Container.specs_of_renders fun _ => rfl]
    refine toldBy_handDown (fun i n => ?_) _
    exact told?_columnItem ctx indent n _
  simp only [columnOutline, within_children]
  split
  · exact hitems 28
  · exact hitems 20

theorem toldBy_bodyOutline : toldBy (bodyOutline ctx c).children =
    Container.body.specs ctx.head.rules c.node.children none := by
  rw [Container.specs_of_renders fun _ => rfl]
  refine toldBy_handDown (fun i n => ?_) _
  cases n <;> rfl

end

theorem toldBy_outline (ctx : Context) {b : Builtin} {k : Container} (h : container? b = some k) (n : Node)
    (s : Surroundings) : toldBy (outline ctx b n s).children = k.specs ctx.head.rules n.children s.columnSpec := by
  cases b <;> cases h
  · exact toldBy_sectionOutline ctx (ctx.cascade n .sectionRow) s
  · exact toldBy_columnOutline ctx (ctx.cascade n .column) s
  · exact toldBy_groupOutline ctx (ctx.cascade n .group) s
  · exact toldBy_wrapperOutline ctx (ctx.cascade n .wrapper) s

/-! ## What outlines add -/

/-- The media queries among what is added to a head. -/
def queriesOf (effects : List Effect) : List MediaQuery :=
  effects.filterMap fun
    | .mediaQuery q => some q
    | _ => none

theorem queriesOf_append (l l' : List Effect) : queriesOf (l ++ l') = queriesOf l ++ queriesOf l' :=
  List.filterMap_append

theorem mem_queriesOf {q : MediaQuery} {l : List Effect} : q ∈ queriesOf l ↔ .mediaQuery q ∈ l := by
  rw [queriesOf, List.mem_filterMap]
  constructor
  · rintro ⟨e, he, hq⟩
    cases e with
    | mediaQuery q' =>
      obtain rfl := Option.some.inj hq
      exact he
    | _ => cases hq
  · exact fun h => ⟨_, h, rfl⟩

/-- What is kept of media queries. -/
theorem queriesOf_register (kept : List Effect) (e : Effect) :
    queriesOf (e.register kept) = (queriesOf [e]).foldl addNew (queriesOf kept) := by
  cases e with
  | mediaQuery q =>
    show queriesOf (addNew kept (.mediaQuery q)) = addNew (queriesOf kept) q
    by_cases h : Effect.mediaQuery q ∈ kept
    · rw [addNew, if_pos h, addNew, if_pos (mem_queriesOf.2 h)]
    · rw [addNew, if_neg h, addNew, if_neg (mt mem_queriesOf.1 h), queriesOf_append]
      rfl
  | fluidImage => exact (queriesOf_append kept _).trans (List.append_nil _)
  | fileStart content => exact (queriesOf_append kept _).trans (List.append_nil _)

theorem queriesOf_foldl_register (effects kept : List Effect) :
    queriesOf (effects.foldl Effect.register kept) = (queriesOf effects).foldl addNew (queriesOf kept) := by
  induction effects generalizing kept with
  | nil => rfl
  | cons e effects ih =>
    have hcons : queriesOf (e :: effects) = queriesOf [e] ++ queriesOf effects := queriesOf_append [e] effects
    rw [List.foldl_cons, ih, queriesOf_register, hcons, List.foldl_append]

theorem effects_sectionOutline (ctx : Context) (c : Cascade) (s : Surroundings) :
    (sectionOutline ctx c s).effects = [] := by
  obtain ⟨before, after, h⟩ := exists_sectionOutline_eq ctx c s
  rw [h]
  unfold sectionColumns
  extract_lets
  split <;> rfl

theorem effects_wrapperOutline (ctx : Context) (c : Cascade) (s : Surroundings) :
    (wrapperOutline ctx c s).effects = [] := by
  rw [wrapperOutline, rowBox_eq_within]
  unfold wrapperItems
  extract_lets
  split <;> rfl

theorem queriesOf_outline (ctx : Context) (b : Builtin) (n : Node) (s : Surroundings) :
    queriesOf (outline ctx b n s).effects = (ownBox b n s.columnSpec).map Completed.query := by
  cases b with
  | sectionRow => exact congrArg queriesOf (effects_sectionOutline ctx _ s)
  | wrapper => exact congrArg queriesOf (effects_wrapperOutline ctx _ s)
  | image =>
    show queriesOf (imageOutline ctx _ s).effects = []
    unfold imageOutline
    extract_lets
    split <;> rfl
  | raw =>
    show queriesOf (rawOutline _).effects = []
    unfold rawOutline
    split <;> rfl
  | _ => rfl

theorem start_standsIn_columnBox (e : Completed) (style : List (String × String)) :
    StandsIn e.start (columnBox e.spec style) := by
  refine ⟨"", attributeText [("style", styleText style)] ++ ">", ?_⟩
  rw [← String.toList_inj]
  simp [columnBox, startTag, attributeText, Completed.start]

theorem start_standsIn_outline (ctx : Context) {b : Builtin} {n : Node} {s : Surroundings} {e : Completed}
    (h : e ∈ ownBox b n s.columnSpec) : StandsIn e.start (outline ctx b n s).opening := by
  have hline (style : List (String × String)) : StandsIn e.start (line 14 (columnBox e.spec style)) :=
    ((start_standsIn_columnBox e style).append_left _).append_right _
  cases b with
  | column =>
    obtain rfl := List.mem_singleton.1 h
    exact (hline _).append_right _
  | group =>
    obtain rfl := List.mem_singleton.1 h
    exact (((hline _).append_right _).append_right _).append_right _
  | _ => cases h

/-! ## Rendering -/

/-- Rendering writes the boxes of these columns and groups, and adds their media queries and no others. -/
def Completes (l : List Completed) (x : RenderM String) : Prop :=
  ∀ ⦃o : Outcome⦄ ⦃html : String⦄ ⦃o' : Outcome⦄, x.run o = .ok (html, o') →
    queriesOf o'.effects = (l.map Completed.query).foldl addNew (queriesOf o.effects) ∧ ∀ e ∈ l, StandsIn e.start html

namespace Completes

variable {l l' : List Completed} {x y : RenderM String}

theorem pure (html : String) : Completes [] (Pure.pure html) := by
  intro o _ _ h
  cases h
  simp

theorem renderCustom (ctx : Context) (c : Custom) (n : Node) (s : Surroundings) :
    Completes [] (renderCustom ctx c n s) := by
  intro o html o' h
  obtain ⟨_, rfl⟩ := renderCustom_eq_ok h
  simp

/-- Text before what is rendered. -/
theorem prepend (hx : Completes l x) (text : String) : Completes l (x >>= fun html => Pure.pure (text ++ html)) := by
  intro o html o' h
  obtain ⟨_, hrun, hp⟩ := bind_eq_ok.1 h
  cases hp
  obtain ⟨hqueries, hboxes⟩ := hx hrun
  exact ⟨hqueries, fun e he => (hboxes e he).append_left text⟩

/-- A child between two texts, and what follows it. -/
theorem child (hx : Completes l x) (hy : Completes l' y) (before after : String) :
    Completes (l ++ l') (x >>= fun html => y >>= fun others => Pure.pure (before ++ html ++ after ++ others)) := by
  intro o html o' h
  obtain ⟨_, hrun, h⟩ := bind_eq_ok.1 h
  obtain ⟨_, hrun', hp⟩ := bind_eq_ok.1 h
  cases hp
  obtain ⟨hqueries, hboxes⟩ := hx hrun
  obtain ⟨hqueries', hboxes'⟩ := hy hrun'
  constructor
  · rw [hqueries', hqueries, List.map_append, List.foldl_append]
  · intro e he
    rcases List.mem_append.1 he with he | he
    · exact (((hboxes e he).append_left before).append_right after).append_right _
    · exact (hboxes' e he).append_left _

/-- An outline around its children. -/
theorem outlined (hx : Completes l x) {o : Outline} (hqueries : queriesOf o.effects = l'.map Completed.query)
    (hboxes : ∀ e ∈ l', StandsIn e.start o.opening) : Completes (l ++ l')
      (x >>= fun content => emit o.effects >>= fun _ => Pure.pure (o.opening ++ content ++ o.closing)) := by
  intro s html s' h
  obtain ⟨_, hrun, h⟩ := bind_eq_ok.1 h
  cases h
  obtain ⟨hqueries', hboxes'⟩ := hx hrun
  constructor
  · rw [queriesOf_foldl_register, hqueries', hqueries, List.map_append, List.foldl_append]
  · intro e he
    rcases List.mem_append.1 he with he | he
    · exact ((hboxes' e he).append_left _).append_right _
    · exact ((hboxes e he).append_right _).append_right _

end Completes

mutual

/-- Rendering an element completes the columns and groups below it, and then itself if it is one. -/
theorem renderNode_completes (ctx : Context) : ∀ (n : Node) (s : Surroundings),
    Completes (completed ctx.registry ctx.head.rules n s.columnSpec) (renderNode ctx n s)
  | .element tag a children, s => by
    rw [renderNode, completed]
    rcases ctx.registry.lookup? tag with _ | b | c
    · intro o _ _ h
      cases h
      simp
    · refine .outlined ?_ (queriesOf_outline ctx b _ s) fun e he => start_standsIn_outline ctx he
      cases hk : container? b with
      | none =>
        rw [outline_children_eq_nil ctx hk]
        cases children <;> exact .pure _
      | some k =>
        have hchildren := renderChildren_completes ctx children _ (places_outline ctx hk (.element tag a children) s)
        rw [toldBy_outline ctx hk] at hchildren
        exact hchildren
    · exact .renderCustom ..
  | .text _, _ | .cdata _, _ | .comment _, _ => .pure _

/-- Rendering children completes what stands below those that have a place. -/
theorem renderChildren_completes (ctx : Context) {keep : Node → Bool} :
    ∀ (nodes : List Node) (places : List Placement), Places keep nodes places →
      Completes (completedBelow ctx.registry ctx.head.rules keep nodes (toldBy places))
        (renderChildren ctx nodes places)
  | n :: rest, .child before s after :: places, .cons hkeep hrest => by
    show Completes (completedBelow _ _ keep (n :: rest) (s.columnSpec :: toldBy places)) _
    rw [completedBelow, if_pos (show keep n = true from hkeep.symm)]
    exact (renderNode_completes ctx n s).child (renderChildren_completes ctx rest places hrest) before after
  | n :: rest, .literal text :: places, .cons hkeep hrest => by
    rw [completedBelow_of_not_keep hkeep.symm]
    exact (renderChildren_completes ctx rest places hrest).prepend text
  | n :: rest, .skip :: places, .cons hkeep hrest => by
    rw [completedBelow_of_not_keep hkeep.symm]
    exact renderChildren_completes ctx rest places hrest
  | [], _, _ => .pure _
  | _ :: _, [], _ => .pure _

end

theorem renderBody_completes (ctx : Context) (body : Node) :
    Completes (completedIn ctx.registry ctx.head.rules body) (renderBody ctx body) := by
  have hchildren := renderChildren_completes ctx body.children _ (places_bodyOutline ctx (ctx.cascade body .body))
  rw [toldBy_bodyOutline] at hchildren
  intro o html o' h
  obtain ⟨_, hrun, hp⟩ := bind_eq_ok.1 h
  cases hp
  obtain ⟨hqueries, hboxes⟩ := hchildren hrun
  exact ⟨hqueries, fun e he => ((hboxes e he).append_left _).append_right _⟩

/-! ## The head and the page -/

theorem foldl_apply_mediaQueries (effects : List Effect) (h : Head) :
    (effects.foldl Effect.apply h).styles.mediaQueries = (queriesOf effects).foldl addNew h.styles.mediaQueries := by
  induction effects generalizing h with
  | nil => rfl
  | cons e effects ih => cases e <;> exact ih _

theorem foldl_apply_rules (effects : List Effect) (h : Head) : (effects.foldl Effect.apply h).rules = h.rules :=
  foldl_keeps (fun h e => by cases e <;> rfl) effects h

end Render

namespace Page

open Head

/-- The rule that gives a class its width on wide screens. -/
def widthRule (q : MediaQuery) : String :=
  rule 6 ("." ++ q.className) ["width: " ++ q.width ++ q.unit ++ " !important", "max-width: " ++ q.width ++ q.unit]

theorem widthRule_standsIn {q : MediaQuery} {queries : List MediaQuery} (h : q ∈ queries) (breakpoint : String) :
    StandsIn (widthRule q) (columnStyles breakpoint queries) := by
  have hrules : StandsIn (widthRule q) (columnRules 6 "" queries) :=
    .intercalate (List.mem_map.2 ⟨q, h, by simp [widthRule, toString]⟩) "\n"
  rw [columnStyles, if_neg (by simp [List.ne_nil_of_mem h])]
  -- The rule stands in the first of the two elements, inside its condition.
  have hcondition := ((hrules.append_left (openRule 4 s!"@media only screen and (min-width:{breakpoint})")).append_right
    (Render.line 4 "\x7d")).append_right "\n"
  have helement : StandsIn (widthRule q) (styleElement _) := (hcondition.append_left _).append_right _
  exact ((((helement.append_right _).append_right _).append_right _).append_right _)

theorem columnStyles_standsIn_headText (h : Head) :
    StandsIn (columnStyles h.metadata.breakpoint h.styles.mediaQueries) (headText h) :=
  ((((((StandsIn.refl _).append_left _).append_right _).append_right _).append_right _).append_right _).append_right _

theorem columnStyles_standsIn_document (h : Head) (language : String) (direction : Direction) (content : String) :
    StandsIn (columnStyles h.metadata.breakpoint h.styles.mediaQueries) (document h language direction content) := by
  have hhead := (columnStyles_standsIn_headText h).append_left
    (String.join (h.metadata.fileStart.map fun content => content ++ "\n") ++ opening language direction)
  exact ((((hhead.append_right _).append_right _).append_right _).append_right _).append_right _

end Page

namespace Compiler

open Head Render

variable {m : Type → Type}

theorem readHead_mediaQueries {registry : Registry} {t : Template} {ds ds' : Diagnostics} {h : Head}
    (hr : (match t.head? with
      | some head => Head.read registry head ds
      | none => ({}, ds)) = (h, ds')) : h.styles.mediaQueries = [] := by
  split at hr
  · rename_i head _
    have hqueries := read_mediaQueries registry head ds
    rw [hr] at hqueries
    exact hqueries
  · cases hr
    rfl

/-- The media queries of a mail are those of its columns and groups, each once and in the order in which they are
completed. Every column and group is written with a class for which the page has a rule. -/
theorem renderTemplate_mediaQueries {c : Configuration m} {t : Template} {body : Node} {html : String} {h : Head}
    {ds : Diagnostics} (hbody : t.body? = some body) (hr : renderTemplate c t = .ok (html, h, ds)) :
    h.styles.mediaQueries.Nodup ∧
      h.styles.mediaQueries = ((completedIn c.registry h.rules body).map Completed.query).eraseDups ∧
      (∀ content, StandsIn (Page.columnStyles h.metadata.breakpoint h.styles.mediaQueries)
        (Page.document h c.language c.direction content)) ∧
      ∀ e ∈ completedIn c.registry h.rules body, StandsIn e.start html ∧
        StandsIn (Page.widthRule e.query) (Page.columnStyles h.metadata.breakpoint h.styles.mediaQueries) := by
  unfold renderTemplate at hr
  extract_lets ds₀ at hr
  split at hr
  rename_i h₁ ds₁ hhead
  split at hr
  · rename_i hnone
    rw [hbody] at hnone
    cases hnone
  · rename_i body' hbody'
    obtain rfl : body = body' := Option.some.inj (hbody.symm.trans hbody')
    extract_lets h₂ ctx at hr
    obtain ⟨⟨html', o⟩, hb, hp⟩ := bind_eq_ok.1 hr
    cases hp
    obtain ⟨hqueries, hboxes⟩ := renderBody_completes ctx body hb
    have hrules : (o.effects.foldl Effect.apply h₂).rules = ctx.head.rules := foldl_apply_rules o.effects h₂
    have hstart : h₂.styles.mediaQueries = [] := (linkFonts_mediaQueries h₁ body).trans (readHead_mediaQueries hhead)
    have hall : (o.effects.foldl Effect.apply h₂).styles.mediaQueries =
        ((completedIn c.registry ctx.head.rules body).map Completed.query).eraseDups := by
      rw [foldl_apply_mediaQueries, hstart, foldl_addNew, hqueries]
      exact eraseDups_foldl_addNew _
    rw [hrules]
    refine ⟨?_, hall, Page.columnStyles_standsIn_document _ _ _, fun e he => ⟨hboxes e he, ?_⟩⟩
    · rw [foldl_apply_mediaQueries]
      exact nodup_foldl_addNew _ (hstart ▸ List.nodup_nil)
    · refine Page.widthRule_standsIn ?_ _
      rw [hall, List.mem_eraseDups]
      exact List.mem_map_of_mem he

def columnOf (width : String) : Node := .element columnTag (.ofList [("width", width)]) []

def groupedBody : Node :=
  .element "mj-body" .empty [.element "mj-section" .empty [columnOf "25%",
    .element groupTag (.ofList [("width", "50%")]) [columnOf "30%", columnOf "200px"], columnOf "25%"]]

/-- The columns of the group come before the group, and the second quarter adds nothing. -/
theorem renderTemplate_mediaQueries_group :
    let c : Configuration (StateM Unit) := {}
    let t : Template := ⟨.empty, [groupedBody]⟩
    t.body? = some groupedBody ∧ ∃ html h ds, renderTemplate c t = .ok (html, h, ds) ∧
      h.styles.mediaQueries = [⟨"mj-column-per-25", "25", "%"⟩, ⟨"mj-column-per-30", "30", "%"⟩,
        ⟨"mj-column-px-200", "200px", ""⟩, ⟨"mj-column-per-50", "50", "%"⟩] ∧
      StandsIn "<div class=\"mj-column-px-200 mj-outlook-group-fix\"" html := by
  intro c t
  have hbody : t.body? = some groupedBody := rfl
  obtain ⟨⟨html, h, ds⟩, hrun, hrules⟩ := exists_of_map_eq (f := fun r => r.2.1.rules) (v := {})
    (r := (renderTemplate c t, ())) (by decide +kernel)
  have hr : renderTemplate c t = .ok (html, h, ds) := congrArg Prod.fst hrun
  obtain ⟨-, hqueries, -, hall⟩ := renderTemplate_mediaQueries hbody hr
  rw [show h.rules = {} from hrules] at hqueries hall
  obtain ⟨e, he, hspec⟩ : ∃ e ∈ completedIn c.registry {} groupedBody, e.spec = some "200px" :=
    List.mem_map.1 (show some "200px" ∈ (completedIn c.registry {} groupedBody).map Completed.spec by decide +kernel)
  have hbox := (hall e he).1
  rw [Completed.start, hspec] at hbox
  exact ⟨hbody, html, h, ds, hr, hqueries.trans (by decide +kernel), hbox⟩

end Compiler

end EmailMarkup
