import EmailMarkup.Html.Inline
import EmailMarkup.Proofs.Selector.Match
import EmailMarkup.Proofs.Style.Merge
import Mathlib.Data.List.Basic
import Mathlib.Data.List.Pairwise
import Mathlib.Order.WithBot
/-!
# The cascade

The declarations that an element gets when rules are inlined: for each property, of those its own style has and
those of the rules that describe it, the one that wins by importance, then by how specific the rule is about the
element, by the place of the rule and by the place in the rule (`applyRules_cascade`).

Elements are treated in turn, and each sees the styles that those before it have got. So whether a rule describes an
element can be told from the HTML as it is only for selectors that do not look at the `style` attributes around it.
-/
namespace EmailMarkup.Html

open EmailMarkup.Style

variable (rules : List InlineRule) (f : Forest) (id : Nat)

/-! ## Candidates -/

def ownStyle : List Declaration := parseDeclarations ((f.attribute? id "style").getD "").toList

/-- How high a declaration ranks: by how specific its rule is about the element, by the place of the rule and by its
place in the rule. The element's own declarations rank below all rules. -/
abbrev Rank := WithBot ((ℕ ×ₗ ℕ ×ₗ ℕ) ×ₗ ℕ ×ₗ ℕ)

def Rank.ofRule (s : Specificity) (i j : Nat) : Rank := WithBot.some (toLex (s.key, toLex (i, j)))

theorem Rank.ofRule_lt_ofRule {s t : Specificity} {i j k l : Nat} : ofRule s i j < ofRule t k l ↔
    toLex (s.key, toLex (i, j)) < toLex (t.key, toLex (k, l)) :=
  WithBot.coe_lt_coe

/-- The declarations that an element could get, with their ranks. -/
inductive Candidate : Declaration × Rank → Prop
  | own {d : Declaration} (h : d ∈ ownStyle f id) : Candidate (d, ⊥)
  | rule {i j : Nat} {r : InlineRule} {s : Specificity} {d : Declaration} (hr : rules[i]? = some r)
    (hs : Selector.MostSpecific r.selectors f id s) (hd : r.declarations[j]? = some d) : Candidate (d, .ofRule s i j)

/-- The candidate that is the strongest for its property. -/
def IsWinner (c : Declaration × Rank) : Prop :=
  Candidate rules f id c ∧ ∀ c', Candidate rules f id c' → c'.1.property = c.1.property → strength c' ≤ strength c

/-! ## The order of the rules -/

/-- A rule that describes an element: how specific it is about it, its place, and its declarations. -/
structure Found where
  specificity : Specificity
  place : Nat
  declarations : List Declaration

/-- The rules that describe an element, in the order of the stylesheet. -/
def findRules : List Found :=
  rules.zipIdx.filterMap fun (r, i) => (Selector.bestMatch? r.selectors f id).map fun s => ⟨s, i, r.declarations⟩

/-- The rules that describe an element, the least specific first. -/
def sortRules : List Found := (findRules rules f id).mergeSort fun a b => a.specificity.le b.specificity

def Found.candidates (x : Found) : List (Declaration × Rank) :=
  x.declarations.zipIdx.map fun (d, j) => (d, .ofRule x.specificity x.place j)

/-- The candidates in the order in which they are merged. -/
def candidates : List (Declaration × Rank) :=
  (ownStyle f id).map (·, ⊥) ++ (sortRules rules f id).flatMap Found.candidates

theorem mem_findRules {x : Found} : x ∈ findRules rules f id ↔
    ∃ r, rules[x.place]? = some r ∧ Selector.MostSpecific r.selectors f id x.specificity ∧ r.declarations = x.declarations := by
  simp only [findRules, List.mem_filterMap, Prod.exists, Option.map_eq_some_iff, Selector.bestMatch?_eq_some_iff,
    List.mk_mem_zipIdx_iff_getElem?]
  constructor
  · rintro ⟨r, i, hr, s, hs, rfl⟩
    exact ⟨r, hr, hs, rfl⟩
  · rintro ⟨r, hr, hs, hd⟩
    exact ⟨r, x.place, hr, x.specificity, hs, by rw [hd]⟩

theorem mem_candidates {c : Declaration × Rank} : c ∈ candidates rules f id ↔ Candidate rules f id c := by
  simp only [candidates, sortRules, List.mem_append, List.mem_map, List.mem_flatMap, List.mem_mergeSort, Found.candidates,
    Prod.exists, List.mk_mem_zipIdx_iff_getElem?]
  constructor
  · rintro (⟨d, hd, rfl⟩ | ⟨x, hx, d, j, hd, rfl⟩)
    · exact .own hd
    · obtain ⟨r, hr, hs, heq⟩ := (mem_findRules rules f id).1 hx
      exact .rule hr hs (heq ▸ hd)
  · rintro (hd | ⟨hr, hs, hd⟩)
    · exact .inl ⟨_, hd, rfl⟩
    · exact .inr ⟨⟨_, _, _⟩, (mem_findRules rules f id).2 ⟨_, hr, hs, rfl⟩, _, _, hd, rfl⟩

theorem map_sortRules : (sortRules rules f id).map (fun x => (x.specificity, x.declarations)) =
    (matching rules f id).mergeSort fun a b => a.1.le b.1 := by
  have hfind : (findRules rules f id).map (fun x => (x.specificity, x.declarations)) = matching rules f id := by
    rw [matching, findRules, List.map_filterMap]
    conv_rhs => rw [← List.zipIdx_map_fst 0 rules, List.filterMap_map]
    congr 1
    funext p
    simp [Function.comp_def]
  rw [sortRules, ← hfind]
  exact List.map_mergeSort fun _ _ _ _ => rfl

/-- Two entries of a list without repetition stand in one order only. -/
theorem not_sublist_swap {α : Type} {l : List α} (h : l.Nodup) {a b : α} (hab : [a, b].Sublist l) : ¬ [b, a].Sublist l := by
  induction l with
  | nil => simp at hab
  | cons c l ih =>
    obtain ⟨hc, hl⟩ := List.nodup_cons.1 h
    intro hba
    cases hab with
    | cons _ hab =>
      cases hba with
      | cons _ hba => exact ih hl hab hba
      | cons_cons _ _ => exact hc (hab.subset (by simp))
    | cons_cons _ hb =>
      cases hba with
      | cons _ hba => exact hc (hba.subset (by simp))
      | cons_cons _ _ => exact hc (hb.subset (by simp))

/-- Sorting keeps the order of entries that are equal to it. -/
theorem pairwise_mergeSort_of_pairwise {α : Type} {l : List α} {le : α → α → Bool}
    (trans : ∀ a b c, le a b = true → le b c = true → le a c = true) (total : ∀ a b, (le a b || le b a) = true)
    {r : α → α → Prop} (h : l.Pairwise r) (hnodup : l.Nodup) :
    (l.mergeSort le).Pairwise fun a b => le a b = true ∧ (le b a = true → r a b) := by
  have hsorted : (l.mergeSort le).Nodup := (List.mergeSort_perm l le).nodup_iff.2 hnodup
  -- any two entries stand in one of the two orders
  have hboth : l.Pairwise fun a b => [a, b].Sublist l ∨ [b, a].Sublist l :=
    List.pairwise_iff_forall_sublist.2 fun hab => .inl hab
  have : Std.Symm fun a b : α => [a, b].Sublist l ∨ [b, a].Sublist l := ⟨fun _ _ => Or.symm⟩
  refine List.pairwise_iff_forall_sublist.2 fun {a b} hab => ?_
  refine ⟨List.pairwise_iff_forall_sublist.1 (List.pairwise_mergeSort trans total l) hab, fun hle => ?_⟩
  have ha : a ∈ l := List.mem_mergeSort.1 (hab.subset (by simp))
  have hb : b ∈ l := List.mem_mergeSort.1 (hab.subset (by simp))
  have hne : a ≠ b := by
    have := hab.nodup hsorted
    simpa using this
  rcases hboth.forall ha hb hne with horder | horder
  · exact List.pairwise_iff_forall_sublist.1 h horder
  · exact absurd (List.pair_sublist_mergeSort trans total hle horder) (not_sublist_swap hsorted hab)

theorem pairwise_zipIdx {α : Type} (l : List α) : l.zipIdx.Pairwise fun a b => a.2 < b.2 := by
  rw [← List.pairwise_map, List.zipIdx_map_snd]
  exact List.pairwise_lt_range'

theorem pairwise_findRules : (findRules rules f id).Pairwise fun a b => a.place < b.place := by
  refine List.pairwise_filterMap.2 ((pairwise_zipIdx rules).imp fun {p q} hlt a ha b hb => ?_)
  obtain ⟨s, -, rfl⟩ := Option.map_eq_some_iff.1 ha
  obtain ⟨t, -, rfl⟩ := Option.map_eq_some_iff.1 hb
  exact hlt

theorem pairwise_sortRules : (sortRules rules f id).Pairwise fun a b =>
    toLex (a.specificity.key, a.place) < toLex (b.specificity.key, b.place) := by
  have hnodup : (findRules rules f id).Nodup :=
    (pairwise_findRules rules f id).imp fun hlt heq => absurd hlt (by simp [heq])
  refine (pairwise_mergeSort_of_pairwise ?_ ?_ (pairwise_findRules rules f id) hnodup).imp fun {a b} hab => ?_
  · intro a b c hab hbc
    rw [Specificity.le_iff] at hab hbc ⊢
    exact hab.trans hbc
  · intro a b
    rw [Bool.or_eq_true, Specificity.le_iff, Specificity.le_iff]
    exact le_total _ _
  · obtain ⟨hle, hplace⟩ := hab
    rw [Specificity.le_iff] at hle hplace
    rw [Prod.Lex.toLex_lt_toLex]
    rcases hle.lt_or_eq with hlt | heq
    · exact .inl hlt
    · exact .inr ⟨heq, hplace heq.ge⟩

/-- The candidates for a property are merged in the order of their ranks. -/
theorem pairwise_candidates (h : (properties (ownStyle f id)).Nodup) :
    (candidates rules f id).Pairwise fun a b => a.1.property = b.1.property → a.2 < b.2 := by
  refine List.pairwise_append.2 ⟨?_, ?_, ?_⟩
  · rw [List.pairwise_map]
    rw [properties, List.Nodup, List.pairwise_map] at h
    exact h.imp fun hne heq => absurd heq hne
  · refine List.pairwise_flatMap.2 ⟨fun x _ => ?_, (pairwise_sortRules rules f id).imp ?_⟩
    · rw [Found.candidates, List.pairwise_map]
      have hplaces : x.declarations.zipIdx.Pairwise fun a b => a.2 < b.2 := pairwise_zipIdx _
      exact hplaces.imp fun hlt _ => Rank.ofRule_lt_ofRule.2 (by simp [Prod.Lex.toLex_lt_toLex, hlt])
    · intro a b hlt c hc d hd _
      obtain ⟨⟨c, j⟩, -, rfl⟩ := List.mem_map.1 hc
      obtain ⟨⟨d, k⟩, -, rfl⟩ := List.mem_map.1 hd
      refine Rank.ofRule_lt_ofRule.2 ?_
      rw [Prod.Lex.toLex_lt_toLex] at hlt ⊢
      rcases hlt with hlt | ⟨heq, hlt⟩
      · exact .inl hlt
      · exact .inr ⟨heq, Prod.Lex.toLex_lt_toLex.2 (.inl hlt)⟩
  · intro a ha b hb _
    obtain ⟨d, -, rfl⟩ := List.mem_map.1 ha
    obtain ⟨x, -, hb⟩ := List.mem_flatMap.1 hb
    obtain ⟨p, -, rfl⟩ := List.mem_map.1 hb
    exact WithBot.bot_lt_coe _

/-! ## The style an element gets -/

/-- The declarations of an element after those of the rules are merged onto its own. -/
def mergedStyle : List Declaration :=
  ((matching rules f id).mergeSort fun a b => a.1.le b.1).foldl (fun style r => merge style r.2) (ownStyle f id)

theorem mergedStyle_eq_foldl (h : (properties (ownStyle f id)).Nodup) :
    mergedStyle rules f id = ((candidates rules f id).map Prod.fst).foldl mergeOne [] := by
  have hown : ((ownStyle f id).map fun d => ((d, ⊥) : Declaration × Rank)).map Prod.fst = ownStyle f id := by
    simp [Function.comp_def]
  have hkeep : (ownStyle f id).foldl mergeOne [] = ownStyle f id := foldl_mergeOne_eq_append (by simpa using h)
  have hrule (x : Found) : x.candidates.map Prod.fst = x.declarations := by
    simp [Found.candidates, Function.comp_def, List.zipIdx_map_fst]
  rw [candidates, List.map_append, hown, List.map_flatMap, List.foldl_append, hkeep, List.foldl_flatMap, mergedStyle,
    ← map_sortRules, List.foldl_map]
  simp only [hrule, merge]

/-- The declarations that are left are the winners, one for each property. -/
theorem mem_mergedStyle_iff (h : (properties (ownStyle f id)).Nodup) {d : Declaration} :
    d ∈ mergedStyle rules f id ↔ ∃ k, IsWinner rules f id (d, k) := by
  rw [mergedStyle_eq_foldl rules f id h, mem_foldl_mergeOne_iff (pairwise_candidates rules f id h)]
  simp only [IsStrongest, IsWinner, mem_candidates]

theorem nodup_mergedStyle (h : (properties (ownStyle f id)).Nodup) : (properties (mergedStyle rules f id)).Nodup := by
  rw [mergedStyle_eq_foldl rules f id h]
  exact nodup_foldl_mergeOne List.nodup_nil

theorem matching_eq_nil_iff : matching rules f id = [] ↔ ∀ r ∈ rules, ∀ s ∈ r.selectors, s.holds f id = false := by
  rw [matching, List.filterMap_eq_nil_iff]
  simp only [Option.map_eq_none_iff, Selector.bestMatch?_eq_none_iff]

theorem styleOf?_eq : styleOf? rules f id =
    if (matching rules f id).isEmpty then none else some (Style.inlineText (mergedStyle rules f id)) := by
  rw [styleOf?]
  split
  · rename_i heq
    simp [heq]
  · rename_i hne
    rw [if_neg (by simpa using hne)]
    rfl

/-! ## Elements in turn -/

section

variable {rules} {f}

theorem style_eq_of_alike {g : Forest} {id : Nat} (h : Forest.Alike (SameBut "style" id) f g) :
    g.attribute? id "style" = f.attribute? id "style" := by
  rcases h.element?_cases id with ⟨hf, hg⟩ | ⟨tag, a, a', hf, hg, -, hsame⟩
  · simp [Forest.attribute?, hf, hg]
  · simp [Forest.attribute?, hf, hg, hsame rfl]

theorem styleOf?_congr {g : Forest} {id : Nat} (hrules : ∀ r ∈ rules, ∀ s ∈ r.selectors, s.looksAround "style" = false)
    (h : Forest.Alike (SameBut "style" id) f g) : styleOf? rules g id = styleOf? rules f id := by
  have hmatching : matching rules g id = matching rules f id := by
    unfold matching
    refine List.filterMap_congr fun r hr => ?_
    rw [Selector.bestMatch?_congr h (hrules r hr)]
  rw [styleOf?_eq, styleOf?_eq, mergedStyle, mergedStyle, ownStyle, ownStyle, hmatching, style_eq_of_alike h]

theorem lookup_newStyles_of_not_mem {ids : List Nat} {id : Nat} (h : id ∉ ids) (g : Forest) :
    (newStyles rules g ids).lookup id = none := by
  induction ids generalizing g with
  | nil => rfl
  | cons i ids ih =>
    obtain ⟨hi, hids⟩ := not_or.1 (List.mem_cons.not.1 h)
    have hbeq : (id == i) = false := by simpa using hi
    rw [newStyles]
    split
    · exact ih hids g
    · rw [List.lookup_cons, hbeq]
      exact ih hids _

/-- The elements with the styles that some of them have got. -/
def withStyles (f : Forest) (styles : List (Nat × String)) : Forest :=
  styles.foldl (fun g s => g.setAttribute s.1 "style" s.2) f

/-- Styles of other elements do not change the style of an element, nor anything else. -/
theorem alike_withStyles {id : Nat} {styles : List (Nat × String)} (hid : ∀ s ∈ styles, s.1 ≠ id) {g : Forest}
    (h : Forest.Alike (SameBut "style" id) f g) : Forest.Alike (SameBut "style" id) f (withStyles g styles) := by
  induction styles generalizing g with
  | nil => exact h
  | cons s styles ih =>
    obtain ⟨hs, hstyles⟩ := List.forall_mem_cons.1 hid
    refine ih hstyles (h.setAttribute s.1 "style" s.2 fun a a' ⟨hsame, hown⟩ => ⟨?_, fun heq => absurd heq hs⟩)
    rw [hsame, Attributes.without_insert_of_mem (by simp)]

theorem alike_withStyles_self {id : Nat} {styles : List (Nat × String)} (hid : ∀ s ∈ styles, s.1 ≠ id) :
    Forest.Alike (SameBut "style" id) f (withStyles f styles) :=
  alike_withStyles hid (.refl (fun _ _ => ⟨rfl, fun _ => rfl⟩) _)

/-- An element has its turn when those before it have got their styles. -/
theorem exists_turn {ids : List Nat} {id : Nat} (hid : id ∈ ids) : ∃ before after, ids = before ++ id :: after ∧
    (∀ s ∈ newStyles rules f before, s.1 ≠ id) ∧
    (newStyles rules f ids).lookup id = styleOf? rules (withStyles f (newStyles rules f before)) id := by
  induction ids generalizing f with
  | nil => cases hid
  | cons i ids ih =>
    by_cases hfirst : id = i ∧ (styleOf? rules f i ≠ none ∨ id ∉ ids)
    · obtain ⟨rfl, hlast⟩ := hfirst
      refine ⟨[], ids, rfl, by simp [newStyles], ?_⟩
      change (newStyles rules f (id :: ids)).lookup id = styleOf? rules f id
      rw [newStyles]
      cases hstyle : styleOf? rules f id with
      | none => exact lookup_newStyles_of_not_mem (hlast.resolve_left (absurd hstyle)) f
      | some style => simp
    · have hrest : id ∈ ids := by grind
      cases hstyle : styleOf? rules f i with
      | none =>
        obtain ⟨before, after, rfl, hbefore, hlookup⟩ := ih hrest
        have hsame : newStyles rules f (i :: before) = newStyles rules f before := by rw [newStyles, hstyle]
        refine ⟨i :: before, after, rfl, hsame ▸ hbefore, ?_⟩
        rw [hsame, ← hlookup, newStyles, hstyle]
      | some style =>
        have hne : id ≠ i := fun heq => hfirst ⟨heq, .inl (by simp [hstyle])⟩
        obtain ⟨before, after, rfl, hbefore, hlookup⟩ := ih hrest
        have hcons (ids : List Nat) : newStyles rules f (i :: ids) =
            (i, style) :: newStyles rules (f.setAttribute i "style" style) ids := by rw [newStyles, hstyle]
        refine ⟨i :: before, after, rfl, ?_, ?_⟩
        · rw [hcons]
          exact List.forall_mem_cons.2 ⟨Ne.symm hne, hbefore⟩
        · rw [hcons, hcons, List.lookup_cons, beq_false_of_ne hne]
          exact hlookup

/-- The style an element gets does not depend on those that elements before it have got, if no selector looks at them. -/
theorem lookup_newStyles (hrules : ∀ r ∈ rules, ∀ s ∈ r.selectors, s.looksAround "style" = false) (ids : List Nat) (id : Nat) :
    (newStyles rules f ids).lookup id = if id ∈ ids then styleOf? rules f id else none := by
  split
  · rename_i hid
    obtain ⟨before, after, -, hbefore, hlookup⟩ := exists_turn hid
    rw [hlookup, styleOf?_congr hrules (alike_withStyles_self hbefore)]
  · rename_i hid
    exact lookup_newStyles_of_not_mem hid f

end

/-! ## The document -/

/-- A start tag with the style its element gets, if it gets one. -/
def restyled (tag : StartTag) : Option (List Declaration) → List Char
  | none => tag.text
  | some style =>
    if (Style.inlineText style).isEmpty then tag.text else tag.withStyle (styleValue (Style.inlineText style))

/-- If the selectors do not look at the `style` attributes around an element, every element gets, for each property,
the declaration that wins among its own and those of the rules that describe it; others are left alone. -/
theorem applyRules_cascade (html : List Char)
    (hrules : ∀ r ∈ rules, ∀ s ∈ r.selectors, s.looksAround "style" = false) :
    ∃ style : Nat → Option (List Declaration),
      applyRules rules html = (Document.ofChars html).edit (fun id tag => restyled tag (style id)) ∧
      ∀ id ∈ (Document.ofChars html).elements,
        (style id = none ↔ ∀ r ∈ rules, ∀ s ∈ r.selectors, s.holds (Document.ofChars html).forest id = false) ∧
        ∀ l, style id = some l → (properties (ownStyle (Document.ofChars html).forest id)).Nodup →
          (properties l).Nodup ∧ ∀ d, d ∈ l ↔ ∃ k, IsWinner rules (Document.ofChars html).forest id (d, k) := by
  generalize hdoc : Document.ofChars html = doc
  let style (id : Nat) : Option (List Declaration) :=
    if id ∈ doc.elements ∧ matching rules doc.forest id ≠ [] then some (mergedStyle rules doc.forest id) else none
  refine ⟨style, ?_, fun id hid => ⟨?_, fun l hl hown => ?_⟩⟩
  · rw [applyRules, hdoc]
    congr 1
    funext id tag
    rw [writeStyled, lookup_newStyles hrules, styleOf?_eq]
    by_cases hid : id ∈ doc.elements <;> by_cases hm : matching rules doc.forest id = [] <;> simp [style, hid, hm, restyled]
  · rw [← matching_eq_nil_iff]
    simp [style, hid]
  · obtain ⟨-, heq⟩ := Option.ite_none_right_eq_some.1 hl
    obtain rfl := Option.some.inj heq
    exact ⟨nodup_mergedStyle rules _ id hown, fun d => mem_mergedStyle_iff rules _ id hown⟩

def colorRules : List InlineRule :=
  (Stylesheet.parse "div p{color:blue;margin:0} p[style]{color:green !important} p,#a{color:red}").rules.filterMap inlineRule?

def colorHtml : List Char := "<div><p id=\"a\" style=\"color: black; width: 1px\"></p></div>".toList

theorem applyRules_cascade_colors : ∃ style : Nat → Option (List Declaration),
    applyRules colorRules colorHtml = (Document.ofChars colorHtml).edit (fun id tag => restyled tag (style id)) ∧
    style 1 = none ∧ ∃ l, style 2 = some l ∧ (properties l).Nodup ∧
      ∀ d, d ∈ l ↔ ∃ k, IsWinner colorRules (Document.ofChars colorHtml).forest 2 (d, k) := by
  obtain ⟨style, hedit, hstyle⟩ := applyRules_cascade colorRules colorHtml (by decide +kernel)
  obtain ⟨hnone, -⟩ := hstyle 1 (by decide +kernel)
  obtain ⟨hsome, hwins⟩ := hstyle 2 (by decide +kernel)
  obtain ⟨l, hl⟩ : ∃ l, style 2 = some l := Option.ne_none_iff_exists'.1 fun h => absurd (hsome.1 h) (by decide +kernel)
  exact ⟨style, hedit, hnone.2 (by decide +kernel), l, hl, hwins l hl (by decide +kernel)⟩

/-- Two rules, the second of which looks at the `style` attribute around an element. -/
def lookingRules : List InlineRule := (Stylesheet.parse "div{color:red} [style] p{margin:0}").rules.filterMap inlineRule?

/-- The style that the outer element gets makes the second rule describe the inner one. -/
theorem applyRules_lookingRules :
    (∀ r ∈ lookingRules, ∀ s ∈ r.selectors, s.holds (Document.parse "<div><p></p></div>").forest 2 = false) ∧
      String.ofList (applyRules lookingRules "<div><p></p></div>".toList) =
        "<div style=\"color: red;\"><p style=\"margin: 0;\"></p></div>" := by
  decide +kernel

end EmailMarkup.Html
