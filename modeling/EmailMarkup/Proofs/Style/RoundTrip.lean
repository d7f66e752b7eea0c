import EmailMarkup.Proofs.Text.Blank
import EmailMarkup.Proofs.Text.Nesting
import EmailMarkup.Style.Declaration
/-!
# Declarations read again

A declaration that is read is well formed, and a well-formed one is read again from its text
(`Declaration.WellFormed.parse?_text`). Its text ends outside quotes and parentheses if the text did that it was read from,
so declarations are read again one by one (`parseDeclarations_text`).
-/
namespace EmailMarkup.Style

open EmailMarkup.Text

/-! ## The mark of importance -/

theorem cutLast_append {c : Char} {after : List Char} (h : c ∉ after) (before : List Char) :
    cutLast c (before ++ c :: after) = some (before, after) := by
  have hcut := cut_char (by simpa using h : c ∉ after.reverse) before.reverse
  simp [cutLast, hcut]

theorem splitImportant_cases (value : List Char) : splitImportant value = (value, false) ∨
    ∃ before after, value = before ++ '!' :: after ∧ (trimBoth isBlank after).map Char.toLower = importantMark ∧
      splitImportant value = (trimEnd isBlank before, true) := by
  rw [splitImportant]
  cases hcut : cutLast '!' value with
  | none => exact .inl rfl
  | some p =>
    obtain ⟨before, after⟩ := p
    simp only
    by_cases hmark : (trimBoth isBlank after).map Char.toLower = importantMark
    · rw [if_pos (beq_iff_eq.2 hmark)]
      obtain ⟨⟨x, y⟩, hxy, heq⟩ := Option.map_eq_some_iff.1 hcut
      obtain ⟨rfl, rfl⟩ := Prod.mk.inj heq
      have hsplit := (not_mem_of_cut hxy).1
      refine .inr ⟨y.reverse, x.reverse, ?_, hmark, rfl⟩
      rw [← List.reverse_reverse value, hsplit]
      simp
    · rw [if_neg (by simpa using hmark)]
      exact .inl rfl

/-- A value is read without the mark behind it. -/
theorem splitImportant_append {value : List Char} (h : ∀ c ∈ value.getLast?, isBlank c = false) :
    splitImportant (value ++ ' ' :: '!' :: importantMark) = (value, true) := by
  have hcut : cutLast '!' (value ++ ' ' :: '!' :: importantMark) = some (value ++ [' '], importantMark) := by
    simpa using cutLast_append (by decide : '!' ∉ importantMark) (value ++ [' '])
  have hmark : (trimBoth isBlank importantMark).map Char.toLower = importantMark := by decide
  have htrim : trimEnd isBlank (value ++ [' ']) = value := trimEnd_append (by simp [isBlank]) (by simpa using h)
  rw [splitImportant, hcut]
  simp only [hmark, htrim, BEq.rfl, if_true]

namespace Declaration

/-! ## Well-formed declarations -/

/-- The text of a declaration, without the semicolon behind it. -/
def text (d : Declaration) : List Char :=
  d.property.toList ++ ':' :: ' ' :: (d.value.toList ++ if d.important then ' ' :: '!' :: importantMark else [])

theorem toList_inlineText (d : Declaration) : d.inlineText.toList = d.text ++ [';'] := by
  have hmark : " !important".toList = ' ' :: '!' :: importantMark := by decide
  cases hd : d.important <;> simp [inlineText, text, hd, hmark]

/-- A declaration as reading gives it. -/
structure WellFormed (d : Declaration) : Prop where
  property_ne_nil : d.property.toList ≠ []
  property_trimmed : Trimmed isBlank d.property.toList
  property_lower : d.property.toList.map Char.toLower = d.property.toList
  colon_not_mem : ':' ∉ d.property.toList
  value_ne_nil : d.value.toList ≠ []
  value_trimmed : Trimmed isBlank d.value.toList
  unmarked : d.important = false → splitImportant d.value.toList = (d.value.toList, false)

/-- What a declaration is read from. -/
theorem exists_of_parse? {s : List Char} {d : Declaration} (h : parse? s = some d) : ∃ property value,
    s = property ++ ':' :: value ∧ ':' ∉ property ∧ d.property.toList = (trimBoth isBlank property).map Char.toLower ∧
      splitImportant (trimBoth isBlank value) = (d.value.toList, d.important) ∧ d.property.toList ≠ [] ∧
      d.value.toList ≠ [] := by
  obtain ⟨⟨property, value⟩, hcut, hrest⟩ := Option.bind_eq_some_iff.1 h
  rcases hvalue : splitImportant (trimBoth isBlank value) with ⟨v, important⟩
  simp only [hvalue] at hrest
  obtain ⟨hne, hd⟩ := Option.ite_none_left_eq_some.1 hrest
  obtain rfl := Option.some.inj hd
  obtain ⟨hsplit, hcolon⟩ := not_mem_of_cut hcut
  rw [Bool.or_eq_true, List.isEmpty_iff, List.isEmpty_iff, not_or] at hne
  simp only [String.toList_ofList]
  exact ⟨property, value, hsplit, hcolon, rfl, hvalue, hne.1, hne.2⟩

theorem trimmed_map_toLower {s : List Char} (h : Trimmed isBlank s) : Trimmed isBlank (s.map Char.toLower) := by
  constructor
  · intro c hc
    rw [List.head?_map] at hc
    obtain ⟨x, hx, rfl⟩ := Option.map_eq_some_iff.1 hc
    rw [isBlank_toLower]
    exact h.head x hx
  · intro c hc
    rw [List.getLast?_map] at hc
    obtain ⟨x, hx, rfl⟩ := Option.map_eq_some_iff.1 hc
    rw [isBlank_toLower]
    exact h.last x hx

/-- What is read is well formed. -/
theorem wellFormed_of_parse? {s : List Char} {d : Declaration} (h : parse? s = some d) : d.WellFormed := by
  obtain ⟨property, value, -, hcolon, hproperty, hvalue, hproperty_ne, hvalue_ne⟩ := exists_of_parse? h
  obtain ⟨pre, post, hsplit, -, -, htrimmed⟩ := trimBoth_spec isBlank property
  obtain ⟨-, -, -, -, -, hvalue_trimmed⟩ := trimBoth_spec isBlank value
  have hlower : d.property.toList.map Char.toLower = d.property.toList := by
    rw [hproperty, List.map_map]
    exact List.map_congr_left fun c _ => toLower_toLower c
  have hcolon' : ':' ∉ d.property.toList := by
    rw [hproperty, List.mem_map]
    rintro ⟨c, hc, heq⟩
    obtain rfl := (toLower_eq_iff (by decide) (by decide)).1 heq
    apply hcolon
    rw [hsplit]
    exact List.mem_append_right _ (List.mem_append_left _ hc)
  rcases splitImportant_cases (trimBoth isBlank value) with hcase | ⟨before, after, hbefore, -, hcase⟩
  · obtain ⟨heq, himportant⟩ := Prod.mk.inj (hvalue.symm.trans hcase)
    refine ⟨hproperty_ne, hproperty ▸ trimmed_map_toLower htrimmed, hlower, hcolon', hvalue_ne, heq ▸ hvalue_trimmed, ?_⟩
    intro _
    rw [heq, hcase]
  · obtain ⟨heq, himportant⟩ := Prod.mk.inj (hvalue.symm.trans hcase)
    obtain ⟨blanks, hblanks, -, hlast⟩ := trimEnd_spec isBlank before
    refine ⟨hproperty_ne, hproperty ▸ trimmed_map_toLower htrimmed, hlower, hcolon', hvalue_ne, ⟨?_, heq ▸ hlast⟩, ?_⟩
    · intro c hc
      refine hvalue_trimmed.head c ?_
      rw [hbefore, hblanks, List.append_assoc, List.head?_append, ← heq, Option.mem_def.1 hc]
      rfl
    · intro hfalse
      rw [himportant] at hfalse
      cases hfalse

/-- A declaration is read again from its text. -/
theorem WellFormed.parse?_text {d : Declaration} (h : d.WellFormed) : parse? d.text = some d := by
  have hcut := cut_char h.colon_not_mem (' ' :: (d.value.toList ++ if d.important then ' ' :: '!' :: importantMark else []))
  have hproperty : (trimBoth isBlank d.property.toList).map Char.toLower = d.property.toList := by
    rw [h.property_trimmed.trimBoth_eq, h.property_lower]
  have hvalue : splitImportant (trimBoth isBlank (' ' :: (d.value.toList ++
      if d.important then ' ' :: '!' :: importantMark else []))) = (d.value.toList, d.important) := by
    have hspace (s : List Char) : trimBoth isBlank (' ' :: s) = trimBoth isBlank s := rfl
    rw [hspace]
    cases himportant : d.important with
    | false => rw [if_neg (by simp), List.append_nil, h.value_trimmed.trimBoth_eq, h.unmarked himportant]
    | true =>
      have hmarked : Trimmed isBlank (d.value.toList ++ ' ' :: '!' :: importantMark) := by
        refine ⟨fun c hc => h.value_trimmed.head c ?_, fun c hc => ?_⟩
        · rwa [List.head?_append, Option.or_of_isSome (List.isSome_head?.2 h.value_ne_nil)] at hc
        · obtain rfl : 't' = c := by simpa [importantMark, List.getLast?_append] using hc
          decide
      rw [if_pos rfl, hmarked.trimBoth_eq, splitImportant_append h.value_trimmed.last]
  rw [text, parse?, hcut]
  simp only [Option.bind_eq_bind, Option.bind_some, hproperty, hvalue, String.ofList_toList]
  rw [if_neg (by simp [h.property_ne_nil, h.value_ne_nil])]

/-! ## Quotes and parentheses -/

/-- Whether a character matters to where a declaration ends. -/
def isMark : Char → Bool := parentheses.isMark ';'

theorem isMark_iff {c : Char} : isMark c = true ↔ c = '"' ∨ c = '\'' ∨ c = '(' ∨ c = ')' ∨ c = ';' := by
  simp [isMark, Brackets.isMark, parentheses, or_assoc]

theorem filter_isMark_blanks {s : List Char} (h : ∀ c ∈ s, isBlank c = true) : s.filter isMark = [] := by
  refine List.filter_eq_nil_iff.2 fun c hc hmark => ?_
  have hblank := h c hc
  rcases isMark_iff.1 hmark with rfl | rfl | rfl | rfl | rfl <;> exact absurd hblank (by decide)

theorem filter_isMark_trimEnd (s : List Char) : (trimEnd isBlank s).filter isMark = s.filter isMark := by
  obtain ⟨post, hsplit, hpost, -⟩ := trimEnd_spec isBlank s
  have hmarks := congrArg (List.filter isMark) hsplit
  rw [List.filter_append, filter_isMark_blanks hpost, List.append_nil] at hmarks
  exact hmarks.symm

theorem filter_isMark_trimBoth (s : List Char) : (trimBoth isBlank s).filter isMark = s.filter isMark := by
  obtain ⟨pre, post, hsplit, hpre, hpost, -⟩ := trimBoth_spec isBlank s
  have hmarks := congrArg (List.filter isMark) hsplit
  rw [List.filter_append, List.filter_append, filter_isMark_blanks hpre, filter_isMark_blanks hpost, List.append_nil] at hmarks
  exact hmarks.symm

theorem filter_isMark_map_toLower (s : List Char) : (s.map Char.toLower).filter isMark = s.filter isMark := by
  have hsame {c : Char} (hc : isMark c = true) : c.toLower = c := by
    rcases isMark_iff.1 hc with rfl | rfl | rfl | rfl | rfl <;> rfl
  have hlower (c : Char) : isMark c.toLower = isMark c := by
    rw [Bool.eq_iff_iff, isMark_iff, isMark_iff]
    repeat rw [toLower_eq_iff (by decide) (by decide)]
  rw [List.filter_map, List.map_congr_left (g := id)]
  · simp [Function.comp_def, hlower]
  · intro c hc
    rw [List.mem_filter] at hc
    exact hsame (hlower c ▸ hc.2)

theorem filter_isMark_splitImportant (value : List Char) :
    (splitImportant value).1.filter isMark = value.filter isMark := by
  rcases splitImportant_cases value with hcase | ⟨before, after, hvalue, hmark, hcase⟩
  · rw [hcase]
  · have hafter : after.filter isMark = [] := by
      rw [← filter_isMark_trimBoth, ← filter_isMark_map_toLower, hmark]
      decide
    rw [hcase, hvalue, filter_isMark_trimEnd, List.filter_append, List.filter_cons_of_neg (by decide), hafter, List.append_nil]

/-- The text of a declaration has the quotes and parentheses of what it is read from. -/
theorem filter_isMark_text {s : List Char} {d : Declaration} (h : parse? s = some d) :
    d.text.filter isMark = s.filter isMark := by
  obtain ⟨property, value, rfl, -, hproperty, hvalue, -, -⟩ := exists_of_parse? h
  have hvalue_marks : d.value.toList.filter isMark = value.filter isMark := by
    have hsplit := filter_isMark_splitImportant (trimBoth isBlank value)
    rwa [hvalue, filter_isMark_trimBoth] at hsplit
  have hmark : (if d.important then ' ' :: '!' :: importantMark else []).filter isMark = [] := by
    cases d.important <;> decide
  rw [text, List.filter_append, hproperty, filter_isMark_map_toLower, filter_isMark_trimBoth, List.filter_append,
    List.filter_cons_of_neg (by decide), List.filter_cons_of_neg (by decide), List.filter_cons_of_neg (by decide),
    List.filter_append, hvalue_marks, hmark, List.append_nil]

theorem passes_text {s : List Char} {d : Declaration} (h : parse? s = some d) (hs : Passes parentheses ';' {} s {}) :
    Passes parentheses ';' {} d.text {} :=
  hs.congr (filter_isMark_text h)

theorem parse?_space (s : List Char) : parse? (' ' :: s) = parse? s := by
  have hcut : cut [':'] (' ' :: s) = (cut [':'] s).map fun p => (' ' :: p.1, p.2) := rfl
  rw [parse?, parse?, hcut]
  cases cut [':'] s with
  | none => rfl
  | some p => rfl

end Declaration

/-! ## Lists of declarations -/

theorem step_semicolon : Nesting.step parentheses {} ';' = {} := by decide

/-- The first declaration of a text. -/
theorem parseDeclarations_cons {s : List Char} {d : Declaration} (hparse : Declaration.parse? s = some d)
    (hpasses : Passes parentheses ';' {} s {}) (rest : List Char) :
    parseDeclarations (s ++ ';' :: rest) = d :: parseDeclarations rest := by
  rw [parseDeclarations, piecesOutside_append_cons hpasses step_semicolon, List.filterMap_cons_some hparse, parseDeclarations]

theorem parseDeclarations_text {d : Declaration} (hd : d.WellFormed) (hpasses : Passes parentheses ';' {} d.text {})
    (rest : List Char) : parseDeclarations (' ' :: (d.text ++ ';' :: rest)) = d :: parseDeclarations rest := by
  have hspace : Passes parentheses ';' {} (' ' :: d.text) {} := Passes.cons_iff.2 ⟨by decide, hpasses⟩
  have hparse : Declaration.parse? (' ' :: d.text) = some d := by
    rw [Declaration.parse?_space]
    exact hd.parse?_text
  exact parseDeclarations_cons hparse hspace rest

theorem parseDeclarations_space (s : List Char) : parseDeclarations (' ' :: s) = parseDeclarations s := by
  have hpieces : piecesOutside parentheses ';' (' ' :: s) =
      (' ' :: (splitOutside parentheses ';' {} s).1) :: (splitOutside parentheses ';' {} s).2 := rfl
  rw [parseDeclarations, hpieces, List.filterMap_cons, Declaration.parse?_space, ← List.filterMap_cons]
  rfl

/-- The declarations that a closed text holds are read again from their texts. -/
theorem mem_parseDeclarations {s : List Char} {d : Declaration} (hd : d ∈ parseDeclarations s) :
    d.WellFormed ∧ (s.foldl (Nesting.step parentheses) {} = {} → Passes parentheses ';' {} d.text {}) := by
  obtain ⟨p, hp, hparse⟩ := List.mem_filterMap.1 hd
  refine ⟨Declaration.wellFormed_of_parse? hparse, fun hend => ?_⟩
  exact Declaration.passes_text hparse (passes_of_mem_piecesOutside step_semicolon hend p hp)

/-! ## The text of a style -/

/-- Texts with a blank between them, and one in front. -/
theorem toList_intercalate_space {α : Type} (f : α → String) {l : List α} (h : l ≠ []) :
    ' ' :: (" ".intercalate (l.map f)).toList = l.flatMap fun x => ' ' :: (f x).toList := by
  obtain ⟨x, l, rfl⟩ := List.exists_cons_of_ne_nil h
  induction l generalizing x with
  | nil => simp
  | cons y l ih =>
    have hcons : (" ".intercalate ((x :: y :: l).map f)).toList =
        (f x).toList ++ ' ' :: (" ".intercalate ((y :: l).map f)).toList := by
      simp [String.toList_intercalate, List.intercalate]
    rw [hcons, ih y (by simp)]
    rfl

/-- The declarations of a style, with a blank before each. -/
def spacedText (l : List Declaration) : List Char := l.flatMap fun d => ' ' :: (d.text ++ [';'])

theorem spacedText_append (l m : List Declaration) : spacedText (l ++ m) = spacedText l ++ spacedText m := List.flatMap_append

theorem spacedText_eq {l : List Declaration} (h : l ≠ []) : ' ' :: (inlineText l).toList = spacedText l := by
  simp only [inlineText, toList_intercalate_space _ h, Declaration.toList_inlineText, spacedText]

end EmailMarkup.Style
