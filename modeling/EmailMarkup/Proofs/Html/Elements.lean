import EmailMarkup.Proofs.Forest.Leaf
import EmailMarkup.Proofs.Html.Rewritten
import Mathlib.Data.List.Chain
/-!
# Elements in document order

The elements of HTML are numbered by their start tags, and a walk through the document comes to them in this order
(`Document.elements_eq`), because a new element is always added to the end of what is open. So the `n`-th start tag is
that of element `n`, and its parent has a smaller number.
-/
namespace EmailMarkup.Html

/-! ## One piece after the other -/

/-- The open elements from the inside out, and the document. -/
def Building.path (b : Building) : List Nat := b.opened ++ [Forest.root]

/-- The elements read so far are those of `tags`, numbered from 1 in the order of a walk. Each open element is the last
child of the one around it. -/
structure Building.InOrder (b : Building) (tags : List StartTag) : Prop where
  size : b.forest.size = tags.length + 1
  walk : ∀ bound, b.forest.size ≤ bound → b.forest.descendantsWithin bound Forest.root = List.range b.forest.size
  last : b.path.IsChain fun y x => ∃ l, b.forest.children x = l ++ [y]
  decreasing : b.path.Pairwise (· > ·)
  lt_size : ∀ i ∈ b.path, i < b.forest.size
  document : b.forest.element? Forest.root = none
  element : ∀ i t, tags[i]? = some t → b.forest.element? (i + 1) = some (t.name, t.attributes)
  parent : ∀ i < tags.length, ∃ p ≤ i, b.forest.parent? (i + 1) = some p

namespace Building.InOrder

variable {b : Building} {tags : List StartTag}

theorem empty : InOrder {} [] where
  size := rfl
  walk bound hbound := by
    obtain ⟨bound, rfl⟩ : ∃ k, bound = k + 1 := ⟨bound - 1, by have : 1 ≤ bound := hbound; omega⟩
    rfl
  last := List.isChain_singleton _
  decreasing := List.pairwise_singleton _ _
  lt_size := by simp [path, Forest.size, Forest.empty, Forest.root]
  document := rfl
  element := by simp
  parent := by simp

theorem path_eq (b : Building) : ∃ rest, b.path = b.opened.headD Forest.root :: rest := by
  rw [path]
  cases b.opened with
  | nil => exact ⟨[], rfl⟩
  | cons q l => exact ⟨l ++ [Forest.root], rfl⟩

/-- The walk comes to the new element last. -/
theorem walk_addLeaf (h : b.InOrder tags) (content : Forest.Content) {bound : Nat} (hbound : b.forest.size + 1 ≤ bound) :
    (b.forest.addLeaf (b.opened.headD Forest.root) content).descendantsWithin bound Forest.root =
      List.range (b.forest.size + 1) := by
  obtain ⟨rest, hpath⟩ := path_eq b
  have hq : b.opened.headD Forest.root < b.forest.size := h.lt_size _ (by simp [hpath])
  have hroot : (b.opened.headD Forest.root :: rest).getLast? = some Forest.root := by rw [← hpath, path, List.getLast?_concat]
  have hbelow := Forest.lastBelow_of_isChain (hpath ▸ h.last)
  rw [List.getLast_of_getLast?_eq_some hroot] at hbelow
  have hlength : rest.length + 1 ≤ b.forest.size := by
    have hnodup : b.path.Nodup := h.decreasing.imp fun hgt => Nat.ne_of_gt hgt
    simpa [hpath] using Forest.length_le_size hnodup h.lt_size
  have hwalk := h.walk bound (by omega)
  have hnodup : (b.forest.descendantsWithin bound Forest.root).Nodup := hwalk ▸ List.nodup_range
  rw [(hbelow.descendantsWithin_eq hq (by omega) hnodup).2, hwalk, List.range_succ]

/-- Of the open elements only the innermost one gets a child. -/
theorem last_addLeaf (h : b.InOrder tags) (content : Forest.Content) : b.path.IsChain fun y x =>
    ∃ l, (b.forest.addLeaf (b.opened.headD Forest.root) content).children x = l ++ [y] := by
  obtain ⟨rest, hpath⟩ := path_eq b
  have hq : b.opened.headD Forest.root < b.forest.size := h.lt_size _ (by simp [hpath])
  refine h.last.imp_of_mem_tail_imp fun y x _ hx ⟨l, hl⟩ => ⟨l, ?_⟩
  have hdecreasing := h.decreasing
  rw [hpath, List.tail_cons] at hx
  rw [hpath] at hdecreasing
  have hne : x ≠ b.opened.headD Forest.root := Nat.ne_of_lt ((List.pairwise_cons.1 hdecreasing).1 x hx)
  rw [Forest.children_addLeaf hq, if_neg hne, hl]

theorem start (h : b.InOrder tags) (tag : StartTag) : (b.start tag).InOrder (tags ++ [tag]) := by
  obtain ⟨rest, hpath⟩ := path_eq b
  have hq : b.opened.headD Forest.root < b.forest.size := h.lt_size _ (by simp [hpath])
  have hforest : (b.start tag).forest =
      b.forest.addLeaf (b.opened.headD Forest.root) (.element tag.name tag.attributes) := rfl
  have hopened : (b.start tag).path = if tag.isOpen then b.forest.size :: b.path else b.path := by
    simp only [path, Building.start, Building.add, Forest.alloc_snd]
    split <;> rfl
  have hlast := h.last_addLeaf (.element tag.name tag.attributes)
  constructor
  case size => rw [hforest, Forest.size_addLeaf, h.size, List.length_append, List.length_singleton]
  case walk =>
    intro bound hbound
    rw [hforest, Forest.size_addLeaf] at hbound ⊢
    exact h.walk_addLeaf _ hbound
  case last =>
    rw [hopened, hforest]
    split
    · rw [hpath] at hlast ⊢
      refine List.isChain_cons_cons.2 ⟨⟨b.forest.children (b.opened.headD Forest.root), ?_⟩, hlast⟩
      rw [Forest.children_addLeaf hq, if_pos rfl]
    · exact hlast
  case decreasing =>
    rw [hopened]
    split
    · exact List.pairwise_cons.2 ⟨h.lt_size, h.decreasing⟩
    · exact h.decreasing
  case lt_size =>
    intro i hi
    rw [hforest, Forest.size_addLeaf]
    have hcases : i = b.forest.size ∨ i ∈ b.path := by
      rw [hopened] at hi
      split at hi
      · exact List.mem_cons.1 hi
      · exact .inr hi
    rcases hcases with rfl | hi
    · exact Nat.lt_succ_self _
    · exact Nat.lt_succ_of_lt (h.lt_size i hi)
  case document =>
    rw [hforest, Forest.element?_addLeaf, if_neg (by rw [h.size]; exact (Nat.succ_ne_zero _).symm), h.document]
  case element =>
    intro i t ht
    rw [hforest, Forest.element?_addLeaf, h.size]
    rcases Nat.lt_trichotomy i tags.length with hi | rfl | hi
    · rw [if_neg (by omega)]
      exact h.element i t (by rwa [List.getElem?_append_left hi] at ht)
    · obtain rfl : tag = t := by simpa using ht
      rw [if_pos rfl]
    · rw [List.getElem?_eq_none (by simp; omega)] at ht
      cases ht
  case parent =>
    intro i hi
    rw [hforest, Forest.parent?_addLeaf, h.size]
    rw [List.length_append, List.length_singleton] at hi
    by_cases hnew : i = tags.length
    · exact ⟨b.opened.headD Forest.root, by have := h.size; omega, by rw [if_pos (by omega)]⟩
    · obtain ⟨p, hp, hparent⟩ := h.parent i (by omega)
      exact ⟨p, hp, by rw [if_neg (by omega), hparent]⟩

theorem stop (h : b.InOrder tags) (name : String) : (b.stop name).InOrder tags := by
  have hforest := b.forest_stop name
  have hopened : (b.stop name).path <:+ b.path := by
    have hsuffix : (b.stop name).opened <:+ b.opened := by
      rw [Building.stop]
      split
      · exact List.suffix_rfl
      · rename_i x outer heq
        have htail : outer <:+ x :: outer := List.suffix_cons x outer
        rw [← heq] at htail
        exact htail.trans (List.dropWhile_suffix _)
    obtain ⟨l, hl⟩ := hsuffix
    exact ⟨l, by rw [path, path, ← hl, List.append_assoc]⟩
  exact {
    size := by rw [hforest, h.size]
    walk := by rw [hforest]; exact h.walk
    last := by rw [hforest]; exact h.last.suffix hopened
    decreasing := h.decreasing.sublist hopened.sublist
    lt_size := fun i hi => by rw [hforest]; exact h.lt_size i (hopened.subset hi)
    document := by rw [hforest, h.document]
    element := by rw [hforest]; exact h.element
    parent := by rw [hforest]; exact h.parent }

theorem foldl (h : b.InOrder tags) (ps : List Piece) : (ps.foldl Building.step b).InOrder (tags ++ startTags ps) := by
  induction ps generalizing b tags with
  | nil => simpa [startTags] using h
  | cons p ps ih =>
    cases p with
    | start tag =>
      have hstart := ih (h.start tag)
      rwa [List.append_assoc] at hstart
    | stop name text => exact ih (h.stop name)
    | other text => exact ih h

end Building.InOrder

/-! ## The document -/

namespace Document

variable (html : List Char)

theorem inOrder_ofChars : Building.InOrder ((ofChars html).pieces.foldl Building.step {}) (startTags (ofChars html).pieces) :=
  Building.InOrder.empty.foldl _

/-- Elements are numbered by their start tags, in document order. -/
theorem elements_eq : (ofChars html).elements = List.range' 1 (startTags (ofChars html).pieces).length := by
  have h := inOrder_ofChars html
  have hsize : (ofChars html).forest.size = (startTags (ofChars html).pieces).length + 1 := h.size
  have hwalk : (ofChars html).forest.descendants Forest.root = List.range (ofChars html).forest.size :=
    h.walk _ (Nat.le_refl _)
  have hroot : (ofChars html).forest.isElement Forest.root = false := by
    rw [Forest.isElement, Option.isSome_eq_false_iff, Option.isNone_iff_eq_none]
    exact h.document
  have hrange : List.range ((startTags (ofChars html).pieces).length + 1) =
      Forest.root :: List.range' 1 (startTags (ofChars html).pieces).length := by
    rw [List.range_eq_range', List.range'_succ]
    rfl
  rw [elements, Forest.elements, hwalk, hsize, hrange, List.filter_cons_of_neg (by simp [hroot]), List.filter_eq_self]
  intro id hid
  obtain ⟨i, hi, rfl⟩ := List.mem_range'.1 hid
  have helement := h.element i _ (List.getElem?_eq_getElem hi)
  rw [Nat.one_mul, Nat.add_comm]
  exact Option.isSome_iff_exists.2 ⟨_, helement⟩

/-- An element is what its start tag says. -/
theorem element?_eq {i : Nat} {t : StartTag} (h : (startTags (ofChars html).pieces)[i]? = some t) :
    (ofChars html).forest.element? (i + 1) = some (t.name, t.attributes) :=
  (inOrder_ofChars html).element i t h

/-- The parent of an element is the document or an element before it. -/
theorem parent?_eq {i : Nat} (h : i < (startTags (ofChars html).pieces).length) :
    ∃ p ≤ i, (ofChars html).forest.parent? (i + 1) = some p :=
  (inOrder_ofChars html).parent i h

end Document

end EmailMarkup.Html
