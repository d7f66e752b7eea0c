import EmailMarkup.Head.Fonts
import EmailMarkup.Proofs.Render.Containers
/-!
# Trees without what is not written

A childless element of an unknown tag writes nothing, but its parent may write something for it. `Pruned` relates a list
of children to one that lacks some of these elements, where the parent writes nothing for them; texts between children
may differ too where they are not written. Rendering the two lists gives the same text and the same additions to the
head (`renderBody_agree`), whatever the warnings so far.

What a parent writes around a child can depend on the siblings: sections and groups share their width among their
columns, a wrapper counts its rows. `Compatible` says what has to hold of two ways to place children for the pruned
list to be rendered like the whole one.
-/
namespace EmailMarkup

namespace Render

/-! ## Pruned children -/

/-- Where children stand: where nothing of them is written, where they are written as they stand, or in a container. -/
inductive Place where
  | hidden
  | verbatim
  | inside (k : Container)
  deriving DecidableEq, Repr

/-- The components that write their children as they stand. -/
def isVerbatim : Builtin → Bool
  | .text | .button | .table | .raw => true
  | _ => false

namespace Place

/-- Where the children of a built-in component stand. -/
def ofBuiltin (b : Builtin) : Place := if isVerbatim b then verbatim else (container? b).elim hidden inside

/-- Where the children of an element of this tag stand. -/
def below : Place → String → Place
  | hidden, _ => hidden
  | verbatim, _ => verbatim
  | inside k, tag => if k.renders tag then (Builtin.ofTag? tag).elim hidden ofBuiltin else hidden

/-- Whether a text leaves no trace. -/
def ignoresText (p : Place) : Bool := p != verbatim

/-- Whether an unknown element leaves no trace. A wrapper gives each element a row. -/
def ignoresUnknown (p : Place) : Bool := p != verbatim && p != inside .wrapper

end Place

/-- The second list of children lacks some childless elements of tags that are ignored, where they leave no trace; texts
that leave no trace can come and go. -/
inductive Pruned (ignored : String → Prop) : Place → List Node → List Node → Prop
  | nil {p : Place} : Pruned ignored p [] []
  | leaf {p : Place} {n : Node} {l l' : List Node} (hn : n.isElement = false) (h : Pruned ignored p l l') :
      Pruned ignored p (n :: l) (n :: l')
  | textBefore {p : Place} {s : String} {l l' : List Node} (hp : p.ignoresText = true) (h : Pruned ignored p l l') :
      Pruned ignored p (.text s :: l) l'
  | textAfter {p : Place} {s : String} {l l' : List Node} (hp : p.ignoresText = true) (h : Pruned ignored p l l') :
      Pruned ignored p l (.text s :: l')
  | gone {p : Place} {tag : String} {a : Attributes} {l l' : List Node} (hp : p.ignoresUnknown = true)
      (htag : ignored tag) (h : Pruned ignored p l l') : Pruned ignored p (.element tag a [] :: l) l'
  | element {p : Place} {tag : String} {a : Attributes} {children children' l l' : List Node}
      (hc : Pruned ignored (p.below tag) children children') (h : Pruned ignored p l l') :
      Pruned ignored p (.element tag a children :: l) (.element tag a children' :: l')

namespace Pruned

variable {ignored : String → Prop}

mutual

/-- Nothing has to go. -/
theorem refl (p : Place) : ∀ l, Pruned ignored p l l
  | [] => .nil
  | n :: l => refl_cons p n (refl p l)

theorem refl_cons (p : Place) : ∀ (n : Node) {l l' : List Node}, Pruned ignored p l l' →
    Pruned ignored p (n :: l) (n :: l')
  | .element tag _ children, _, _, h => .element (refl (p.below tag) children) h
  | .text _, _, _, h | .cdata _, _, _, h | .comment _, _, _, h => .leaf rfl h

end

theorem append {p : Place} {l l' r r' : List Node} (h : Pruned ignored p l l') (hr : Pruned ignored p r r') :
    Pruned ignored p (l ++ r) (l' ++ r') := by
  induction h with
  | nil => exact hr
  | leaf hn _ ih => exact .leaf hn (ih hr)
  | textBefore hp _ ih => exact .textBefore hp (ih hr)
  | textAfter hp _ ih => exact .textAfter hp (ih hr)
  | gone hp htag _ ih => exact .gone hp htag (ih hr)
  | element hc _ _ ih => exact .element hc (ih hr)

/-- One element goes. -/
theorem delete {p : Place} (hp : p.ignoresUnknown = true) {tag : String} (htag : ignored tag) (a : Attributes)
    (before after : List Node) : Pruned ignored p (before ++ .element tag a [] :: after) (before ++ after) :=
  (refl p before).append (.gone hp htag (refl p after))

/-- Where nothing is written, everything may go that may go elsewhere. -/
theorem hide {p : Place} {l l' : List Node} (h : Pruned ignored p l l') : Pruned ignored .hidden l l' := by
  induction h with
  | nil => exact .nil
  | leaf hn _ ih => exact .leaf hn ih
  | textBefore _ _ ih => exact .textBefore rfl ih
  | textAfter _ _ ih => exact .textAfter rfl ih
  | gone _ htag _ ih => exact .gone rfl htag ih
  | element _ _ ihc ih => exact .element ihc ih

/-- What is written as it stands is the same. -/
theorem eq_of_verbatim {p : Place} {l l' : List Node} (h : Pruned ignored p l l') (hp : p = .verbatim) : l = l' := by
  induction h with
  | nil => rfl
  | leaf _ _ ih => rw [ih hp]
  | textBefore ht => simp [hp, Place.ignoresText] at ht
  | textAfter ht => simp [hp, Place.ignoresText] at ht
  | gone ht => simp [hp, Place.ignoresUnknown] at ht
  | element _ _ ihc ih =>
    subst hp
    rw [ih rfl, ihc rfl]

end Pruned

/-! ## Where attributes are read -/

end Render

/-- The cascades give the same values. -/
def Cascade.Alike (c c' : Cascade) : Prop := ∀ name, c.get? name = c'.get? name

namespace Cascade.Alike

variable {c c' : Cascade}

theorem getD (h : c.Alike c') (name fallback : String) : c.getD name fallback = c'.getD name fallback := by
  rw [Cascade.getD, h name, Cascade.getD]

theorem nonEmpty? (h : c.Alike c') (name : String) : c.nonEmpty? name = c'.nonEmpty? name := by
  rw [Cascade.nonEmpty?, h name, Cascade.nonEmpty?]

end Cascade.Alike

/-- What built-in components know about their place is the same. They do not look at the place among siblings. -/
structure Surroundings.Near (s s' : Surroundings) : Prop where
  width : s.width = s'.width
  columnSpec : s.columnSpec = s'.columnSpec
  insideWrapper : s.insideWrapper = s'.insideWrapper
  insideGroup : s.insideGroup = s'.insideGroup

namespace Render

/-- The outlines differ at most in how children are placed. -/
structure Outline.SameFrame (o o' : Outline) : Prop where
  opening : o.opening = o'.opening
  closing : o.closing = o'.closing
  effects : o.effects = o'.effects

theorem Outline.SameFrame.refl (o : Outline) : o.SameFrame o := ⟨rfl, rfl, rfl⟩

theorem Outline.SameFrame.withEffects {o o' : Outline} (h : o.SameFrame o') (effects : List Effect) :
    Outline.SameFrame { o with effects } { o' with effects } :=
  ⟨h.opening, h.closing, rfl⟩

theorem Outline.SameFrame.within {o o' : Outline} (h : o.SameFrame o') (before after : String) :
    (o.within before after).SameFrame (o'.within before after) :=
  ⟨congrArg (before ++ ·) h.opening, congrArg (· ++ after) h.closing, h.effects⟩

section

variable (ctx : Context) {c c' : Cascade} {s s' : Surroundings}

theorem cascade_alike (b : Builtin) (tag : String) (a : Attributes) (children children' : List Node) :
    (ctx.cascade (.element tag a children) b).Alike (ctx.cascade (.element tag a children') b) :=
  fun _ => rfl

theorem box_congr (h : c.Alike c') : box c = box c' := by
  simp only [box, h.getD, h "border-left", h "border-right"]

theorem fullBox_congr (h : c.Alike c') : fullBox c = fullBox c' := by
  simp only [fullBox, side, box_congr h, h.nonEmpty?]

theorem background_congr (h : c.Alike c') : Background.ofCascade c = Background.ofCascade c' := by
  simp only [Background.ofCascade, h.getD]

theorem cell_congr (h : c.Alike c') (row : Row) : row.cell c = row.cell c' := by
  simp only [Row.cell, Row.cellStyle, borderValue, ownValues, h.getD]

theorem classes_congr (h : c.Alike c') : ctx.classes c = ctx.classes c' := by
  simp only [Context.classes, h.getD]

theorem rowBox_sameFrame (h : c.Alike c') (row : Row) {o o' : Outline} (ho : o.SameFrame o') :
    (rowBox ctx c row o).SameFrame (rowBox ctx c' row o') := by
  have hbackground := background_congr h
  have hcell := cell_congr h row
  have hclasses := classes_congr ctx h
  unfold rowBox
  rw [h "full-width"]
  split
  · unfold windowBox
    rw [hbackground, hcell, hclasses]
    extract_lets b image outer opening box table indent inner
    split
    · exact (ho.within _ _).within _ _
    · exact (ho.within _ _).within _ _
  · unfold centredBox
    rw [hbackground, hclasses]
    extract_lets b box
    refine Outline.SameFrame.within ?_ _ _
    unfold box
    split
    · unfold plainBox
      rw [hcell, h.getD]
      exact ho.within _ _
    · unfold imageBox
      rw [hcell]
      exact ho.within _ _

theorem bodyOutline_sameFrame (h : c.Alike c') : (bodyOutline ctx c).SameFrame (bodyOutline ctx c') := by
  unfold bodyOutline
  rw [h.nonEmpty?]
  exact ⟨rfl, rfl, rfl⟩

theorem image_congr (h : c.Alike c') (hs : s.Near s') : imageOutline ctx c s = imageOutline ctx c' s' := by
  simp only [imageOutline, imageTag, imageWidth, sidePadding, box_congr h, h.getD, h.nonEmpty?, h "fluid-on-mobile",
    hs.width]

theorem divider_congr (h : c.Alike c') (hs : s.Near s') : dividerOutline ctx c s = dividerOutline ctx c' s' := by
  simp only [dividerOutline, dividerWidth, side, h.getD, h.nonEmpty?, hs.width]

theorem spacer_congr (h : c.Alike c') : spacerOutline c = spacerOutline c' := by
  simp only [spacerOutline, h.getD]

theorem contentRow_congr (h : c.Alike c') (indent : Nat) (s s' : Surroundings) : ∃ before after,
    contentRow ctx indent c s = .child before s after ∧ contentRow ctx indent c' s' = .child before s' after := by
  simp only [contentRow, contentStyle, ownValues, h.getD, h.nonEmpty?]
  exact ⟨_, _, rfl, rfl⟩

theorem button_congr (hs : s.Near s') : buttonOutline ctx c s = buttonOutline ctx c s' := by
  simp only [buttonOutline, labelWidth, hs.width]

end

/-! ## Steps that agree -/

/-- Both steps go well from outcomes with the same additions to the head, and give the same again; the warnings do not
matter to them. -/
def Agree {α : Type} (x y : RenderM α) : Prop :=
  ∀ ⦃o o' : Outcome⦄, o.effects = o'.effects →
    ∃ a p p', x.run o = .ok (a, p) ∧ y.run o' = .ok (a, p') ∧ p.effects = p'.effects

namespace Agree

variable {α β : Type}

theorem pure (a : α) : Agree (Pure.pure a) (Pure.pure a) :=
  fun o o' ho => ⟨a, o, o', rfl, rfl, ho⟩

theorem bind {x y : RenderM α} {f g : α → RenderM β} (h : Agree x y) (hf : ∀ a, Agree (f a) (g a)) :
    Agree (x >>= f) (y >>= g) := by
  intro o o' ho
  obtain ⟨a, p, p', hx, hy, hp⟩ := h ho
  obtain ⟨b, q, q', hfa, hga, hq⟩ := hf a hp
  refine ⟨b, q, q', ?_, ?_, hq⟩
  · rw [StateT.run_bind, hx]
    exact hfa
  · rw [StateT.run_bind, hy]
    exact hga

theorem warn (component message : String) :
    Agree (Render.warn component message) (Render.warn component message) := by
  intro o o' ho
  exact ⟨(), _, _, rfl, rfl, ho⟩

theorem emit (effects : List Effect) : Agree (Render.emit effects) (Render.emit effects) := by
  intro o o' ho
  exact ⟨(), _, _, rfl, rfl, congrArg (fun kept => effects.foldl Effect.register kept) ho⟩

/-- A step that only warns can be left out. -/
theorem warn_bind {component message : String} {x y : RenderM α} (h : Agree x y) :
    Agree (Render.warn component message >>= fun _ => x) y := by
  intro o o' ho
  exact h (o := { o with diagnostics := o.diagnostics.warn component message }) ho

end Agree

section

variable {ctx : Context} (hcustom : ctx.registry.custom = [])

include hcustom

theorem lookup?_eq (tag : String) : ctx.registry.lookup? tag = (Builtin.ofTag? tag).map .builtin := by
  simp [Registry.lookup?, hcustom]

theorem renderNode_unknown {tag : String} (htag : Builtin.ofTag? tag = none) (a : Attributes) (children : List Node)
    (s : Surroundings) : renderNode ctx (.element tag a children) s =
      (do warn "registry" s!"Unknown MJML tag: {tag}"; return "") := by
  rw [renderNode, lookup?_eq hcustom, htag]
  rfl

theorem renderNode_builtin {tag : String} {b : Builtin} (htag : Builtin.ofTag? tag = some b) (a : Attributes)
    (children : List Node) (s : Surroundings) : renderNode ctx (.element tag a children) s = (do
      let content ← renderChildren ctx children (outline ctx b (.element tag a children) s).children
      emit (outline ctx b (.element tag a children) s).effects
      return (outline ctx b (.element tag a children) s).opening ++ content ++
        (outline ctx b (.element tag a children) s).closing) := by
  rw [renderNode, lookup?_eq hcustom, htag]
  rfl

end

/-! ## Two ways to place children -/

/-- What a container needs for two lists of children of which one is pruned: leaves are placed alike, what may go leaves
no trace, and what stays is placed alike. `R` relates the numbers of the next children on both sides. -/
structure Compatible (k : Container) (R : Nat → Nat → Prop) (place place' : Nat → Node → Placement) : Prop where
  leaf : ∀ i i' n, n.isElement = false → place i n = place' i' n ∧ (place i n).isChild = false
  text : ∀ i content, place i (.text content) = .skip
  gone : (Place.inside k).ignoresUnknown = true → ∀ i i' tag a, R i i' → Builtin.ofTag? tag = none →
    place i (.element tag a []) = .skip ∨ ∃ s, place i (.element tag a []) = .child "" s "" ∧ R (i + 1) i'
  skipped : ∀ i i' tag a children children', k.renders tag = false →
    place i (.element tag a children) = .skip ∧ place' i' (.element tag a children') = .skip
  rendered : ∀ i i' tag a children children', R i i' → k.renders tag = true → R (i + 1) (i' + 1) ∧
    ∃ before s s' after, s.Near s' ∧ place i (.element tag a children) = .child before s after ∧
      place' i' (.element tag a children') = .child before s' after

/-- The children of a container are rendered alike, however they are placed. -/
def Follows (ctx : Context) (k : Container) (l l' : List Node) : Prop :=
  ∀ ⦃R : Nat → Nat → Prop⦄ ⦃place place' : Nat → Node → Placement⦄ ⦃i i' : Nat⦄, Compatible k R place place' → R i i' →
    Agree (renderChildren ctx l (placeChildren place i l)) (renderChildren ctx l' (placeChildren place' i' l'))

/-- A child that is not rendered does not count. -/
theorem placeChildren_of_not_child {place : Nat → Node → Placement} {i : Nat} {n : Node}
    (h : (place i n).isChild = false) (l : List Node) :
    placeChildren place i (n :: l) = place i n :: placeChildren place i l := by
  rw [placeChildren]
  split
  · rename_i hplace
    rw [hplace] at h
    cases h
  · rfl

theorem placeChildren_of_child {place : Nat → Node → Placement} {i : Nat} {n : Node} {before after : String}
    {s : Surroundings} (h : place i n = .child before s after) (l : List Node) :
    placeChildren place i (n :: l) = .child before s after :: placeChildren place (i + 1) l := by
  rw [placeChildren, h]

theorem renderChildren_skip {place : Nat → Node → Placement} {i : Nat} {n : Node} (h : place i n = .skip)
    (ctx : Context) (l : List Node) : renderChildren ctx (n :: l) (placeChildren place i (n :: l)) =
      renderChildren ctx l (placeChildren place i l) := by
  rw [placeChildren_of_not_child (by rw [h]; rfl), h, renderChildren]

namespace Follows

variable {ctx : Context} {k : Container} {l l' : List Node}

theorem nil : Follows ctx k [] [] := by
  intro R place place' i i' _ _
  exact .pure _

theorem leaf {n : Node} (hn : n.isElement = false) (h : Follows ctx k l l') : Follows ctx k (n :: l) (n :: l') := by
  intro R place place' i i' hc hR
  obtain ⟨heq, hchild⟩ := hc.leaf i i' n hn
  rw [placeChildren_of_not_child hchild, placeChildren_of_not_child (heq ▸ hchild), ← heq]
  cases hplace : place i n with
  | skip => exact h hc hR
  | literal text => exact (h hc hR).bind fun _ => .pure _
  | child before s after =>
    rw [hplace] at hchild
    cases hchild

theorem textBefore (content : String) (h : Follows ctx k l l') : Follows ctx k (.text content :: l) l' := by
  intro R place place' i i' hc hR
  rw [renderChildren_skip (hc.text i content)]
  exact h hc hR

theorem textAfter (content : String) (h : Follows ctx k l l') : Follows ctx k l (.text content :: l') := by
  intro R place place' i i' hc hR
  have htext : place' i' (.text content) = .skip := by
    rw [← (hc.leaf i i' (.text content) rfl).1]
    exact hc.text i content
  rw [renderChildren_skip htext]
  exact h hc hR

theorem gone (hcustom : ctx.registry.custom = []) (hk : (Place.inside k).ignoresUnknown = true) {tag : String}
    (htag : Builtin.ofTag? tag = none) (a : Attributes) (h : Follows ctx k l l') :
    Follows ctx k (.element tag a [] :: l) l' := by
  intro R place place' i i' hc hR
  obtain hskip | ⟨s, hchild, hR'⟩ := hc.gone hk i i' tag a hR htag
  · rw [renderChildren_skip hskip]
    exact h hc hR
  · rw [placeChildren_of_child hchild, renderChildren, renderNode_unknown hcustom htag]
    simp only [bind_assoc, pure_bind, String.empty_append, String.append_empty]
    refine Agree.warn_bind ?_
    rw [bind_pure]
    exact h hc hR'

/-- An element that stays, given that it is rendered alike on both sides. -/
theorem element {tag : String} {a : Attributes} {children children' : List Node}
    (hn : ∀ s s' : Surroundings, k.renders tag = true → s.Near s' →
      Agree (renderNode ctx (.element tag a children) s) (renderNode ctx (.element tag a children') s'))
    (h : Follows ctx k l l') : Follows ctx k (.element tag a children :: l) (.element tag a children' :: l') := by
  intro R place place' i i' hc hR
  cases hr : k.renders tag with
  | false =>
    obtain ⟨hskip, hskip'⟩ := hc.skipped i i' tag a children children' hr
    rw [renderChildren_skip hskip, renderChildren_skip hskip']
    exact h hc hR
  | true =>
    obtain ⟨hR', before, s, s', after, hs, hchild, hchild'⟩ := hc.rendered i i' tag a children children' hR hr
    rw [placeChildren_of_child hchild, placeChildren_of_child hchild', renderChildren, renderChildren]
    exact (hn s s' hr hs).bind fun _ => (h hc hR').bind fun _ => .pure _

end Follows

/-! ## The containers -/

/-- What a pruned list keeps of the children that count. -/
theorem Pruned.map_filter_eq {ignored : String → Prop} {p : Place} {l l' : List Node} (h : Pruned ignored p l l')
    {β : Type} {keep : Node → Bool} {f : Node → β} (htext : ∀ content, keep (.text content) = false)
    (hgone : p.ignoresUnknown = true → ∀ tag a, ignored tag → keep (.element tag a []) = false)
    (hkeep : ∀ tag a children children', keep (.element tag a children) = keep (.element tag a children'))
    (hf : ∀ tag a children children', f (.element tag a children) = f (.element tag a children')) :
    (l.filter keep).map f = (l'.filter keep).map f := by
  induction h with
  | nil => rfl
  | @leaf _ n _ _ hn _ ih => cases hk : keep n <;> simp [hk, ih hgone]
  | textBefore _ _ ih => simp [htext, ih hgone]
  | textAfter _ _ ih => simp [htext, ih hgone]
  | @gone _ tag a _ _ hp htag _ ih => simp [hgone hp tag a htag, ih hgone]
  | @element _ tag a children children' _ _ _ _ _ ih =>
    cases hk : keep (.element tag a children) with
    | false => simp [hk, (hkeep tag a children children').symm.trans hk, ih hgone]
    | true =>
      simp [hk, (hkeep tag a children children').symm.trans hk, ih hgone, hf tag a children children']

/-- Both outlines, with the children they are for, are rendered to the same text. -/
structure RendersAlike (ctx : Context) (l l' : List Node) (o o' : Outline) : Prop where
  frame : o.SameFrame o'
  children : Agree (renderChildren ctx l o.children) (renderChildren ctx l' o'.children)

theorem RendersAlike.of_no_children {ctx : Context} {o o' : Outline} (h : o.SameFrame o') (ho : o.children = [])
    (ho' : o'.children = []) (l l' : List Node) : RendersAlike ctx l l' o o' := by
  refine ⟨h, ?_⟩
  have hpure : ∀ l, renderChildren ctx l [] = pure "" := fun l => by
    cases l <;> rfl
  rw [ho, ho', hpure, hpure]
  exact .pure _

theorem renders_unknown {tag : String} (h : Builtin.ofTag? tag = none) :
    Container.sectionRow.renders tag = false ∧ Container.group.renders tag = false := by
  have hcolumn : tag ≠ columnTag := by
    rintro rfl
    exact absurd h (by decide)
  have hgroup : tag ≠ groupTag := by
    rintro rfl
    exact absurd h (by decide)
  simp [Container.renders, hcolumn, hgroup]

/-- Containers that choose their children by tag, and number those they choose. -/
theorem compatible_of_keeps {k : Container}
    (hk : (Place.inside k).ignoresUnknown = true → ∀ tag, Builtin.ofTag? tag = none → k.renders tag = false)
    {before before' : Nat → Node → String} {near near' : Nat → Surroundings} {after after' : Nat → String}
    (hbefore : ∀ i tag a children children',
      before i (.element tag a children) = before' i (.element tag a children'))
    (hnear : ∀ i, (near i).Near (near' i)) (hafter : ∀ i, after i = after' i) :
    Compatible k Eq (fun i n => if k.keeps n then .child (before i n) (near i) (after i) else .skip)
      (fun i n => if k.keeps n then .child (before' i n) (near' i) (after' i) else .skip) where
  leaf i i' n hn := by
    have hnot : k.keeps n = false := by
      cases n with
      | element => cases hn
      | _ => rfl
    simp [hnot, Placement.isChild]
  text i content := rfl
  gone hu i i' tag a hR htag := by
    refine .inl ?_
    rw [if_neg]
    simp [Container.keeps, Node.tag?, hk hu tag htag]
  skipped i i' tag a children children' hr := by
    simp [Container.keeps, Node.tag?, hr]
  rendered i i' tag a children children' hR hr := by
    subst hR
    refine ⟨rfl, before i (.element tag a children), near i, near' i, after i, hnear i, ?_, ?_⟩
    · simp [Container.keeps, Node.tag?, hr]
    · simp [Container.keeps, Node.tag?, hr, hbefore i tag a children children', hafter]

section

variable {ctx : Context} {ignored : String → Prop} (hi : ∀ tag, ignored tag → Builtin.ofTag? tag = none)
  {c c' : Cascade} (hc : c.Alike c') {s s' : Surroundings} (hs : s.Near s')

include hi hc hs

theorem sectionColumns_alike (hp : Pruned ignored (.inside .sectionRow) c.node.children c'.node.children)
    (hf : Follows ctx .sectionRow c.node.children c'.node.children) :
    RendersAlike ctx c.node.children c'.node.children (sectionColumns ctx c s) (sectionColumns ctx c' s') := by
  have hkeeps : isColumn = Container.sectionRow.keeps := funext fun n => (keeps_sectionRow n).symm
  have hdeclared : (c.node.children.filter Container.sectionRow.keeps).map (declaredWidth ctx) =
      (c'.node.children.filter Container.sectionRow.keeps).map (declaredWidth ctx) :=
    hp.map_filter_eq (fun _ => rfl) (fun _ tag _ ht => (renders_unknown (hi tag ht)).1) (fun _ _ _ _ => rfl)
      (fun _ _ _ _ => rfl)
  have hlength : (c.node.children.filter Container.sectionRow.keeps).length =
      (c'.node.children.filter Container.sectionRow.keeps).length := by
    simpa using congrArg List.length hdeclared
  unfold sectionColumns
  simp only [hkeeps, hdeclared, List.isEmpty_iff_length_eq_zero, hlength, hs.width, fullBox_congr hc, classes_congr ctx hc]
  split
  · exact .of_no_children (.refl _) rfl rfl _ _
  · refine ⟨⟨rfl, rfl, rfl⟩, ?_⟩
    refine hf (compatible_of_keeps (fun _ tag ht => (renders_unknown ht).1) ?_ ?_ fun _ => rfl) rfl
    · intro i tag a children children'
      rfl
    · intro i
      exact ⟨rfl, rfl, hs.insideWrapper, hs.insideGroup⟩

theorem section_alike (hp : Pruned ignored (.inside .sectionRow) c.node.children c'.node.children)
    (hf : Follows ctx .sectionRow c.node.children c'.node.children) :
    RendersAlike ctx c.node.children c'.node.children (sectionOutline ctx c s) (sectionOutline ctx c' s') := by
  obtain ⟨hframe, hchildren⟩ := sectionColumns_alike hi hc hs hp hf
  unfold sectionOutline
  rw [hs.insideWrapper, hs.width, cell_congr hc]
  extract_lets columns columns'
  split
  · exact ⟨hframe.within _ _, hchildren⟩
  · refine ⟨rowBox_sameFrame ctx hc .sectionRow hframe, ?_⟩
    rw [rowBox_children, rowBox_children]
    exact hchildren

theorem group_alike (hp : Pruned ignored (.inside .group) c.node.children c'.node.children)
    (hf : Follows ctx .group c.node.children c'.node.children) :
    RendersAlike ctx c.node.children c'.node.children (groupOutline ctx c s) (groupOutline ctx c' s') := by
  have hkeeps : Node.hasTag columnTag = Container.group.keeps := funext fun n => (keeps_group n).symm
  have hdeclared : (c.node.children.filter Container.group.keeps).map (declaredWidth ctx) =
      (c'.node.children.filter Container.group.keeps).map (declaredWidth ctx) :=
    hp.map_filter_eq (fun _ => rfl) (fun _ tag _ ht => (renders_unknown (hi tag ht)).2) (fun _ _ _ _ => rfl)
      (fun _ _ _ _ => rfl)
  constructor
  · unfold groupOutline
    rw [hs.columnSpec, hc.getD, hc.getD]
    exact ⟨rfl, rfl, rfl⟩
  · show Agree (renderChildren ctx _ (groupColumns ctx c s)) (renderChildren ctx _ (groupColumns ctx c' s'))
    unfold groupColumns
    simp only [hkeeps, hdeclared, hs.width]
    refine hf (compatible_of_keeps (fun _ tag ht => (renders_unknown ht).2) ?_ ?_ fun _ => rfl) rfl
    · intro i tag a children children'
      rfl
    · intro i
      exact ⟨rfl, rfl, hs.insideWrapper, rfl⟩

omit hi in
theorem wrapper_alike (hp : Pruned ignored (.inside .wrapper) c.node.children c'.node.children)
    (hf : Follows ctx .wrapper c.node.children c'.node.children) :
    RendersAlike ctx c.node.children c'.node.children (wrapperOutline ctx c s) (wrapperOutline ctx c' s') := by
  have hkeeps : Node.isElement = Container.wrapper.keeps := funext fun n => (keeps_eq_isElement (fun _ => rfl) n).symm
  -- no element goes from a wrapper, so the rows are as many as before
  have hcount : c.node.elementChildren.length = c'.node.elementChildren.length := by
    have hmap : (c.node.children.filter Node.isElement).map (fun _ => ()) =
        (c'.node.children.filter Node.isElement).map (fun _ => ()) :=
      hp.map_filter_eq (fun _ => rfl) (fun h => absurd h (by decide)) (fun _ _ _ _ => rfl) (fun _ _ _ _ => rfl)
    simpa [Node.elementChildren] using congrArg List.length hmap
  have hitems : RendersAlike ctx c.node.children c'.node.children (wrapperItems ctx c s) (wrapperItems ctx c' s') := by
    unfold wrapperItems
    simp only [hcount, fullBox_congr hc, hkeeps]
    split
    · exact .of_no_children (.refl _) rfl rfl _ _
    · refine ⟨⟨rfl, rfl, rfl⟩, ?_⟩
      refine hf (compatible_of_keeps (fun h => absurd h (by decide)) ?_ ?_ fun _ => rfl) rfl
      · intro i tag a children children'
        rfl
      · intro i
        exact ⟨rfl, hs.columnSpec, rfl, hs.insideGroup⟩
  refine ⟨rowBox_sameFrame ctx hc .wrapper hitems.frame, ?_⟩
  rw [wrapperOutline, wrapperOutline, rowBox_children, rowBox_children]
  exact hitems.children

end

/-- Two lists of children that need no numbers: each child is placed by itself. -/
theorem compatible_of_item {k : Container} (hk : ∀ tag, k.renders tag = true) (item : Node → Surroundings → Placement)
    {near near' : Nat → Surroundings} (hnear : ∀ i i', (near i).Near (near' i'))
    (hleaf : ∀ n s s', n.isElement = false → item n s = item n s' ∧ (item n s).isChild = false)
    (htext : ∀ content s, item (.text content) s = .skip)
    (hgone : ∀ tag a s, Builtin.ofTag? tag = none → item (.element tag a []) s = .child "" s "")
    (hchild : ∀ tag a children children' s s', ∃ before after, item (.element tag a children) s = .child before s after ∧
      item (.element tag a children') s' = .child before s' after) :
    Compatible k (fun _ _ => True) (fun i n => item n (near i)) (fun i n => item n (near' i)) where
  leaf i i' n hn := hleaf n _ _ hn
  text i content := htext content _
  gone _ i i' tag a _ htag := .inr ⟨near i, hgone tag a _ htag, trivial⟩
  skipped i i' tag a children children' hr := by
    rw [hk tag] at hr
    cases hr
  rendered i i' tag a children children' _ _ := by
    obtain ⟨before, after, h, h'⟩ := hchild tag a children children' (near i) (near' i')
    exact ⟨trivial, before, near i, near' i', after, hnear i i', h, h'⟩

section

variable {ctx : Context} (hcustom : ctx.registry.custom = [])

include hcustom

theorem columnItem_unknown {tag : String} (h : Builtin.ofTag? tag = none) (indent : Nat) (a : Attributes)
    (children : List Node) (s : Surroundings) : columnItem ctx indent (.element tag a children) s = .child "" s "" := by
  simp [columnItem, Node.tag?, lookup?_eq hcustom, h]

theorem columnItem_alike (indent : Nat) (tag : String) (a : Attributes) (children children' : List Node)
    (s s' : Surroundings) : ∃ before after, columnItem ctx indent (.element tag a children) s = .child before s after ∧
      columnItem ctx indent (.element tag a children') s' = .child before s' after := by
  cases htag : Builtin.ofTag? tag with
  | none => exact ⟨"", "", columnItem_unknown hcustom htag .., columnItem_unknown hcustom htag ..⟩
  | some b =>
    unfold columnItem
    simp only [Node.tag?, lookup?_eq hcustom, htag, Option.map_some]
    cases b with
    | raw => exact ⟨"", "", rfl, rfl⟩
    | _ => exact contentRow_congr ctx (cascade_alike ctx _ tag a children children') indent s s'

theorem column_alike {c c' : Cascade} (hc : c.Alike c') {s s' : Surroundings} (hs : s.Near s')
    (hf : Follows ctx .column c.node.children c'.node.children) :
    RendersAlike ctx c.node.children c'.node.children (columnOutline ctx c s) (columnOutline ctx c' s') := by
  have hitems (indent : Nat) : Agree (renderChildren ctx c.node.children (columnItems ctx c s indent).children)
      (renderChildren ctx c'.node.children (columnItems ctx c' s' indent).children) := by
    refine hf (compatible_of_item (fun _ => rfl) (columnItem ctx indent) ?_ ?_ ?_ ?_ (columnItem_alike hcustom indent)) trivial
    · intro i i'
      exact ⟨by simp only [Surroundings.child, Surroundings.withWidth, hs.width, box_congr hc], hs.columnSpec,
        hs.insideWrapper, hs.insideGroup⟩
    · intro n s s' hn
      cases n with
      | element => cases hn
      | _ => exact ⟨rfl, rfl⟩
    · intro content s
      rfl
    · intro tag a s htag
      exact columnItem_unknown hcustom htag ..
  have hframe (indent : Nat) : (columnItems ctx c s indent).SameFrame (columnItems ctx c' s' indent) := ⟨rfl, rfl, rfl⟩
  simp only [columnOutline, columnStyle, innerStyle, borderValue, ownValues, hs.columnSpec, hs.insideGroup, hc.getD,
    hc.nonEmpty?]
  split
  · exact ⟨(((hframe 28).within _ _).within _ _).withEffects _, hitems 28⟩
  · exact ⟨(((hframe 20).within _ _).within _ _).withEffects _, hitems 20⟩

end

/-! ## Whole trees -/

section

variable {ctx : Context} (hcustom : ctx.registry.custom = []) {ignored : String → Prop}
  (hi : ∀ tag, ignored tag → Builtin.ofTag? tag = none)

include hcustom hi

/-- The outlines of an element and of the element with pruned children are rendered alike. The children may only differ
in a container, where they have to be rendered alike, and where nothing is written of them. -/
theorem outline_alike {b : Builtin} (tag : String) (a : Attributes) {children children' : List Node} {s s' : Surroundings}
    (hs : s.Near s') (hp : Pruned ignored (.ofBuiltin b) children children')
    (hf : ∀ k, Place.ofBuiltin b = .inside k → Follows ctx k children children') :
    RendersAlike ctx children children' (outline ctx b (.element tag a children) s)
      (outline ctx b (.element tag a children') s') := by
  have hc := cascade_alike ctx b tag a children children'
  have hequal (h : outline ctx b (.element tag a children) s = outline ctx b (.element tag a children') s')
      (hk : container? b = none) : RendersAlike ctx children children' (outline ctx b (.element tag a children) s)
        (outline ctx b (.element tag a children') s') :=
    .of_no_children (h ▸ .refl _) (outline_children_eq_nil ctx hk _ s) (outline_children_eq_nil ctx hk _ s') _ _
  cases b with
  | sectionRow => exact section_alike hi hc hs hp (hf .sectionRow rfl)
  | wrapper => exact wrapper_alike hc hs hp (hf .wrapper rfl)
  | group => exact group_alike hi hc hs hp (hf .group rfl)
  | column => exact column_alike hcustom hc hs (hf .column rfl)
  | text | table | raw =>
    obtain rfl := hp.eq_of_verbatim rfl
    exact hequal rfl rfl
  | button =>
    obtain rfl := hp.eq_of_verbatim rfl
    exact hequal (button_congr ctx hs) rfl
  | image => exact hequal (image_congr ctx hc hs) rfl
  | divider => exact hequal (divider_congr ctx hc hs) rfl
  | spacer => exact hequal (spacer_congr hc) rfl
  | _ => exact hequal rfl rfl

/-- An element and the element with pruned children are rendered alike. -/
theorem renderNode_agree {k : Container} {tag : String} (hk : k.renders tag = true) (a : Attributes)
    {children children' : List Node} {s s' : Surroundings} (hs : s.Near s')
    (hp : Pruned ignored ((Place.inside k).below tag) children children')
    (hf : ∀ k', (Place.inside k).below tag = .inside k' → Follows ctx k' children children') :
    Agree (renderNode ctx (.element tag a children) s) (renderNode ctx (.element tag a children') s') := by
  have hbelow : (Place.inside k).below tag = (Builtin.ofTag? tag).elim .hidden .ofBuiltin := if_pos hk
  rw [hbelow] at hp hf
  cases htag : Builtin.ofTag? tag with
  | none =>
    rw [renderNode_unknown hcustom htag, renderNode_unknown hcustom htag]
    exact (Agree.warn _ _).bind fun _ => .pure _
  | some b =>
    rw [htag] at hp hf
    obtain ⟨⟨hopening, hclosing, heffects⟩, hchildren⟩ := outline_alike hcustom hi tag a hs hp hf
    rw [renderNode_builtin hcustom htag, renderNode_builtin hcustom htag, hopening, hclosing, heffects]
    exact hchildren.bind fun _ => (Agree.emit _).bind fun _ => .pure _

/-- Pruned children are rendered alike in every container. The induction is on what was pruned. -/
theorem Pruned.follows {p : Place} {l l' : List Node} (h : Pruned ignored p l l') :
    ∀ k, p = .inside k → Follows ctx k l l' := by
  induction h with
  | nil =>
    rintro k rfl
    exact .nil
  | leaf hn _ ih =>
    rintro k rfl
    exact (ih k rfl).leaf hn
  | textBefore _ _ ih =>
    rintro k rfl
    exact (ih k rfl).textBefore _
  | textAfter _ _ ih =>
    rintro k rfl
    exact (ih k rfl).textAfter _
  | gone hp htag _ ih =>
    rintro k rfl
    exact (ih k rfl).gone hcustom hp (hi _ htag) _
  | element hc _ ihc ih =>
    rintro k rfl
    exact (ih k rfl).element fun s s' hr hs => renderNode_agree hcustom hi hr _ hs hc ihc

/-- Bodies of which one is pruned are rendered alike. -/
theorem renderBody_agree (tag : String) (a : Attributes) {children children' : List Node}
    (h : Pruned ignored (.inside .body) children children') :
    Agree (renderBody ctx (.element tag a children)) (renderBody ctx (.element tag a children')) := by
  have hframe := bodyOutline_sameFrame ctx (cascade_alike ctx .body tag a children children')
  have hchildren : Agree
      (renderChildren ctx children (bodyOutline ctx (ctx.cascade (.element tag a children) .body)).children)
      (renderChildren ctx children' (bodyOutline ctx (ctx.cascade (.element tag a children') .body)).children) := by
    refine h.follows hcustom hi .body rfl (compatible_of_item (fun _ => rfl) (fun n s => bodyItem s n)
      (fun _ _ => ⟨rfl, rfl, rfl, rfl⟩) ?_ (fun _ _ => rfl) (fun _ _ _ _ => rfl)
      fun _ _ _ _ _ _ => ⟨"", "", rfl, rfl⟩) trivial
    intro n s s' hn
    cases n with
    | element => cases hn
    | _ => exact ⟨rfl, rfl⟩
  simp only [renderBody, hframe.opening, hframe.closing]
  exact hchildren.bind fun _ => .pure _

end

/-- What is pruned is not counted among the nodes of the subtrees that have a value. -/
theorem Pruned.filterMap_preorderAll {ignored : String → Prop} {p : Place} {l l' : List Node} (h : Pruned ignored p l l')
    {β : Type} {f : Node → Option β} (htext : ∀ content, f (.text content) = none)
    (hgone : ∀ tag a, ignored tag → f (.element tag a []) = none)
    (hf : ∀ tag a children children', f (.element tag a children) = f (.element tag a children')) :
    (Node.preorderAll l).filterMap f = (Node.preorderAll l').filterMap f := by
  induction h with
  | nil => rfl
  | leaf _ _ ih => simp only [Node.preorderAll, List.filterMap_append, ih]
  | textBefore _ _ ih => simp [Node.preorderAll, Node.preorder, htext, ih]
  | textAfter _ _ ih => simp [Node.preorderAll, Node.preorder, htext, ih]
  | gone _ htag _ ih => simp [Node.preorderAll, Node.preorder, hgone _ _ htag, ih]
  | @element _ tag a children children' _ _ _ _ ihc ih =>
    simp only [Node.preorderAll, Node.preorder, List.filterMap_append, List.filterMap_cons, ihc, ih,
      hf tag a children children']

/-- What is pruned names no font. -/
theorem families_eq {ignored : String → Prop} (hi : ∀ tag, ignored tag → Builtin.ofTag? tag = none) {p : Place}
    {l l' : List Node} (h : Pruned ignored p l l') (rules : Head.AttributeRules) (tag : String) (a : Attributes) :
    Head.families rules (.element tag a l) = Head.families rules (.element tag a l') := by
  have hbelow := h.filterMap_preorderAll (f := fun n => do
    let b ← n.tag?.bind Builtin.ofTag?
    (Cascade.mk n rules b.defaults).nonEmpty? "font-family") (fun _ => rfl)
    (fun tag a ht => by simp [Node.tag?, hi tag ht]) (fun _ _ _ _ => rfl)
  simp only [Head.families, Node.preorder, List.filterMap_cons, hbelow]
  rfl

end Render

end EmailMarkup
