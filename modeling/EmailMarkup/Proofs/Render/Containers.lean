import EmailMarkup.Render.Body
/-!
# Components that render other components

Five components have children that are rendered: the body, wrappers, sections, groups and columns. Each of them decides
from the tag of a child whether it is rendered at all (`Container.renders`), and its outline has a place for exactly
those children (`places_outline`, `places_bodyOutline`). A body that stands inside another writes nothing.
-/
namespace EmailMarkup

namespace Render

/-- The components that render their children. -/
inductive Container where
  | body
  | wrapper
  | sectionRow
  | group
  | column
  deriving DecidableEq, Repr

/-- The container that a built-in component is when it stands below the body. -/
def container? : Builtin → Option Container
  | .wrapper => some .wrapper
  | .sectionRow => some .sectionRow
  | .group => some .group
  | .column => some .column
  | _ => none

namespace Container

/-- Whether a container renders children of this tag. -/
def renders : Container → String → Bool
  | sectionRow, tag => tag == columnTag || tag == groupTag
  | group, tag => tag == columnTag
  | _, _ => true

def keeps (k : Container) (n : Node) : Bool := n.tag?.any k.renders

end Container

/-! ## Places for children -/

/-- Whether a child is rendered there. -/
def Placement.isChild : Placement → Bool
  | child .. => true
  | _ => false

/-- The children that are kept are rendered, and no others. -/
inductive Places (keep : Node → Bool) : List Node → List Placement → Prop
  | none {nodes : List Node} (h : ∀ n ∈ nodes, keep n = false) : Places keep nodes []
  | cons {n : Node} {p : Placement} {nodes : List Node} {places : List Placement} (h : p.isChild = keep n)
      (hrest : Places keep nodes places) : Places keep (n :: nodes) (p :: places)

theorem places_placeChildren {keep : Node → Bool} {place : Nat → Node → Placement}
    (h : ∀ i n, (place i n).isChild = keep n) : ∀ i nodes, Places keep nodes (placeChildren place i nodes)
  | _, [] => .none (by simp)
  | i, n :: nodes => by
    have hn := h i n
    rw [placeChildren]
    split
    · rename_i hplace
      rw [hplace] at hn
      exact .cons hn (places_placeChildren h (i + 1) nodes)
    · exact .cons hn (places_placeChildren h i nodes)

@[simp] theorem within_children (o : Outline) (before after : String) : (o.within before after).children = o.children :=
  rfl

theorem Outline.within_within (o : Outline) (before before' after after' : String) :
    (o.within before after).within before' after' = o.within (before' ++ before) (after ++ after') := by
  simp only [Outline.within, String.append_assoc]

/-- A row puts the same texts around any content. -/
theorem rowBox_eq_within (ctx : Context) (c : Cascade) (row : Row) (o : Outline) :
    rowBox ctx c row o = o.within (rowBox ctx c row {}).opening (rowBox ctx c row {}).closing := by
  obtain ⟨before, after, h⟩ : ∃ before after, ∀ o, rowBox ctx c row o = o.within before after := by
    unfold rowBox
    split
    · unfold windowBox
      simp only [Outline.within_within]
      split
      · exact ⟨_, _, fun _ => rfl⟩
      · exact ⟨_, _, fun _ => rfl⟩
    · unfold centredBox
      by_cases hb : (Background.ofCascade c).address.isEmpty = true
      · simp only [hb, if_true, plainBox, Outline.within_within]
        exact ⟨_, _, fun _ => rfl⟩
      · simp only [hb, Bool.false_eq_true, if_false, imageBox, Outline.within_within]
        exact ⟨_, _, fun _ => rfl⟩
  rw [h, h]
  simp only [Outline.within, String.append_empty, String.empty_append]

theorem rowBox_children (ctx : Context) (c : Cascade) (row : Row) (content : Outline) :
    (rowBox ctx c row content).children = content.children := by
  rw [rowBox_eq_within, within_children]

section

variable (ctx : Context) (c : Cascade) (s : Surroundings)

theorem keeps_eq_isElement {k : Container} (h : ∀ tag, k.renders tag = true) (n : Node) : k.keeps n = n.isElement := by
  unfold Container.keeps Node.isElement
  cases n.tag? with
  | none => rfl
  | some tag => exact h tag

theorem keeps_sectionRow (n : Node) : Container.sectionRow.keeps n = isColumn n := by
  unfold Container.keeps isColumn Node.hasTag
  cases n.tag? with
  | none => rfl
  | some tag => rfl

theorem keeps_group (n : Node) : Container.group.keeps n = n.hasTag columnTag := by
  unfold Container.keeps Node.hasTag
  cases n.tag? with
  | none => rfl
  | some tag => rfl

/-- A section only puts text around its columns. -/
theorem exists_sectionOutline_eq :
    ∃ before after, sectionOutline ctx c s = (sectionColumns ctx c s).within before after := by
  unfold sectionOutline
  extract_lets columns
  split
  · exact ⟨_, _, rfl⟩
  · exact ⟨_, _, rowBox_eq_within ..⟩

theorem places_sectionColumns : Places Container.sectionRow.keeps c.node.children (sectionColumns ctx c s).children := by
  unfold sectionColumns
  extract_lets columns declared widths specs place
  split
  · rename_i hempty
    refine .none fun n hn => ?_
    rw [keeps_sectionRow]
    simpa using List.filter_eq_nil_iff.1 (List.isEmpty_iff.1 hempty) n hn
  · refine places_placeChildren (fun i n => ?_) 0 _
    rw [keeps_sectionRow]
    simp only [place]
    split
    · rename_i hn
      exact hn.symm
    · rename_i hn
      exact (Bool.eq_false_iff.2 hn).symm

theorem places_sectionOutline : Places Container.sectionRow.keeps c.node.children (sectionOutline ctx c s).children := by
  obtain ⟨before, after, h⟩ := exists_sectionOutline_eq ctx c s
  rw [h, within_children]
  exact places_sectionColumns ctx c s

theorem places_wrapperOutline : Places Container.wrapper.keeps c.node.children (wrapperOutline ctx c s).children := by
  rw [wrapperOutline, rowBox_children]
  unfold wrapperItems
  extract_lets count width row inner place
  split
  · rename_i hzero
    refine .none fun n hn => ?_
    rw [keeps_eq_isElement fun _ => rfl]
    simpa using List.filter_eq_nil_iff.1 (List.length_eq_zero_iff.1 hzero) n hn
  · refine places_placeChildren (fun i n => ?_) 0 _
    rw [keeps_eq_isElement fun _ => rfl]
    simp only [place]
    split
    · rename_i hn
      exact hn.symm
    · rename_i hn
      exact (Bool.eq_false_iff.2 hn).symm

theorem places_groupOutline : Places Container.group.keeps c.node.children (groupOutline ctx c s).children := by
  show Places _ _ (groupColumns ctx c s)
  unfold groupColumns
  extract_lets columns declared widths specs
  refine places_placeChildren (fun i n => ?_) 0 _
  rw [keeps_group]
  split
  · rename_i hn
    exact hn.symm
  · rename_i hn
    exact (Bool.eq_false_iff.2 hn).symm

theorem columnItem_isChild (indent : Nat) (n : Node) (s : Surroundings) :
    (columnItem ctx indent n s).isChild = n.isElement := by
  unfold columnItem Node.isElement
  cases n.tag? with
  | none => rfl
  | some tag =>
    simp only
    split <;> rfl

theorem places_columnOutline : Places Container.column.keeps c.node.children (columnOutline ctx c s).children := by
  have hitems (indent : Nat) : Places Container.column.keeps c.node.children (columnItems ctx c s indent).children := by
    refine places_placeChildren (fun i n => ?_) 0 _
    rw [columnItem_isChild, keeps_eq_isElement fun _ => rfl]
  simp only [columnOutline, within_children]
  split
  · exact hitems 28
  · exact hitems 20

theorem places_bodyOutline : Places Container.body.keeps c.node.children (bodyOutline ctx c).children := by
  refine places_placeChildren (fun i n => ?_) 0 _
  rw [keeps_eq_isElement fun _ => rfl]
  cases n <;> rfl

end

/-- The outline of a container has a place for each child that the container renders. -/
theorem places_outline (ctx : Context) {b : Builtin} {k : Container} (h : container? b = some k) (n : Node)
    (s : Surroundings) : Places k.keeps n.children (outline ctx b n s).children := by
  cases b <;> cases h
  · exact places_sectionOutline ctx (ctx.cascade n .sectionRow) s
  · exact places_columnOutline ctx (ctx.cascade n .column) s
  · exact places_groupOutline ctx (ctx.cascade n .group) s
  · exact places_wrapperOutline ctx (ctx.cascade n .wrapper) s

/-- What is no container renders no children. -/
theorem outline_children_eq_nil (ctx : Context) {b : Builtin} (h : container? b = none) (n : Node) (s : Surroundings) :
    (outline ctx b n s).children = [] := by
  cases b with
  | raw =>
    show (rawOutline _).children = []
    unfold rawOutline
    split <;> rfl
  | sectionRow | wrapper | column | group => cases h
  | _ => rfl

/-- What is no container writes its opening and its closing. -/
theorem renderNode_childless {ctx : Context} {b : Builtin} (hb : container? b = none) {tag : String}
    (htag : ctx.registry.lookup? tag = some (.builtin b)) (a : Attributes) (children : List Node) (s : Surroundings)
    (o : Outcome) : (renderNode ctx (.element tag a children) s).run o =
      .ok ((outline ctx b (.element tag a children) s).opening ++ (outline ctx b (.element tag a children) s).closing,
        { o with effects := (outline ctx b (.element tag a children) s).effects.foldl Effect.register o.effects }) := by
  have hchildren : renderChildren ctx children [] = pure "" := by cases children <;> rw [renderChildren] <;> simp
  rw [renderNode, htag]
  simp only [outline_children_eq_nil ctx hb, hchildren, pure_bind, StateT.run_bind, String.append_empty]
  rfl

end Render

end EmailMarkup
