import EmailMarkup.Proofs.Html.Cascade
import EmailMarkup.Proofs.Html.Rewritten
/-!
# Inlined styles as they are read again

HTML into which a stylesheet is inlined is read again as the same elements, each with at most one `style` attribute,
and the value of this attribute is the text of the declarations that the element gets, with its quotes written as
`&quot;` (`inlineAdditional_reads_back`). This holds for start tags into which such a value can be written
(`Document.takesStyles`): it is put between the quotes of the style that is there, or behind all attributes.
-/
namespace EmailMarkup.Style

/-! ## Rules that declare something -/

/-- Every rule has a declaration. -/
def Stylesheet.Declares (sheet : Stylesheet) : Prop := ∀ r ∈ sheet.rules, r.declarations ≠ []

namespace Stylesheet.Declares

variable {sheet : Stylesheet}

theorem addRule (h : sheet.Declares) (selector body : List Char) : (sheet.addRule selector body).Declares := by
  rw [Stylesheet.addRule]
  split
  · exact h
  · rename_i hne
    exact List.forall_mem_cons.2 ⟨hne, h⟩

theorem readAtRule (h : sheet.Declares) (s : List Char) : (Style.readAtRule sheet s).1.Declares := by
  have hrules : (Style.readAtRule sheet s).1.rules = sheet.rules := by
    rw [Style.readAtRule]
    repeat' split
    all_goals rfl
  rwa [Declares, hrules]

theorem readRule (h : sheet.Declares) (s : List Char) : (Style.readRule sheet s).1.Declares := by
  unfold Style.readRule
  simp only
  repeat' split
  all_goals first | exact h | exact h.addRule _ _

theorem readSheet (h : sheet.Declares) (fuel : Nat) (s : List Char) : (Style.readSheet fuel sheet s).Declares := by
  induction fuel generalizing sheet s with
  | zero => exact h
  | succ fuel ih =>
    simp only [Style.readSheet]
    split
    · exact h
    · rename_i c r heq
      by_cases hc : c = '@'
      · rw [if_pos hc]
        exact ih (h.readAtRule _) _
      · rw [if_neg hc]
        exact ih (h.readRule _) _

end Stylesheet.Declares

theorem Stylesheet.declares_parse (css : String) : (Stylesheet.parse css).Declares := by
  intro r hr
  have hempty : Declares {} := by simp [Declares]
  exact hempty.readSheet _ _ r (List.mem_reverse.1 hr)

/-- Declarations that are merged onto others leave something. -/
theorem merge_ne_nil {onto l : List Declaration} (h : onto ≠ [] ∨ l ≠ []) : merge onto l ≠ [] := by
  obtain ⟨p, hp⟩ : ∃ p, p ∈ properties onto ∨ p ∈ properties l := by
    rcases h with h | h <;> obtain ⟨d, hd⟩ := List.exists_mem_of_ne_nil _ h
    · exact ⟨d.property, .inl (mem_properties.2 ⟨d, hd, rfl⟩)⟩
    · exact ⟨d.property, .inr (mem_properties.2 ⟨d, hd, rfl⟩)⟩
  obtain ⟨d, hd, -⟩ := mem_properties.1 (mem_properties_foldl.2 hp)
  exact List.ne_nil_of_mem hd

theorem isEmpty_inlineText {l : List Declaration} (h : l ≠ []) : (inlineText l).isEmpty = false := by
  obtain ⟨d, l, rfl⟩ := List.exists_cons_of_ne_nil h
  have hmem : ';' ∈ (inlineText (d :: l)).toList := by
    rw [inlineText, String.toList_intercalate]
    cases l <;> simp [Declaration.inlineText, List.intercalate]
  rw [Bool.eq_false_iff]
  intro hempty
  rw [String.isEmpty_iff.1 hempty] at hmem
  cases hmem

end EmailMarkup.Style

namespace EmailMarkup.Html

open EmailMarkup.Text
open EmailMarkup.Style

/-! ## Quotes in values -/

/-- How a quote is written in a value. -/
def quoteEntity : List Char := ['&', 'q', 'u', 'o', 't', ';']

/-- A value with its quotes as such. -/
def readQuotes (value : List Char) : List Char := replaceAll quoteEntity ['"'] value

theorem styleValue_eq (style : String) :
    styleValue style = style.toList.flatMap fun c => if c = '"' then quoteEntity else [c] :=
  replaceAll_char '"' quoteEntity style.toList

theorem quote_not_mem_styleValue (style : String) : '"' ∉ styleValue style := by
  rw [styleValue_eq, List.mem_flatMap]
  rintro ⟨c, -, hc⟩
  split at hc
  · exact absurd hc (by decide)
  · exact absurd (List.mem_singleton.1 hc).symm ‹_›

/-- A text without `&` that is found where quotes are written is found in the text itself. -/
theorem startsWith_of_quotes {pat s : List Char} (hpat : '&' ∉ pat)
    (h : startsWith pat (s.flatMap fun c => if c = '"' then quoteEntity else [c]) = true) : startsWith pat s = true := by
  induction pat generalizing s with
  | nil => rfl
  | cons p pat ih =>
    obtain ⟨hp, hpat⟩ := not_or.1 (List.mem_cons.not.1 hpat)
    cases s with
    | nil => exact h
    | cons c s =>
      rw [List.flatMap_cons] at h
      split at h
      · simp [startsWith, strip?, quoteEntity, Ne.symm hp] at h
      · by_cases hc : p = c
        · simp only [startsWith, strip?, hc, List.singleton_append, if_true] at h ⊢
          exact ih hpat h
        · simp [startsWith, strip?, hc] at h

/-- Quotes are read as they were written, if none stood there written before. -/
theorem readQuotes_styleValue {style : String} (h : occurs quoteEntity style.toList = false) :
    readQuotes (styleValue style) = style.toList := by
  rw [styleValue_eq]
  generalize style.toList = s at h
  induction s with
  | nil => rfl
  | cons c s ih =>
    rw [occurs_cons, Bool.or_eq_false_iff] at h
    rw [readQuotes] at ih ⊢
    rw [List.flatMap_cons]
    split
    · rename_i hc
      rw [replaceAll_append (by decide), ih h.2, hc, List.singleton_append]
    · have hno : startsWith quoteEntity (c :: s.flatMap fun c => if c = '"' then quoteEntity else [c]) = false := by
        rw [Bool.eq_false_iff]
        intro hstart
        by_cases hc : '&' = c
        · subst hc
          have hrest : startsWith ['q', 'u', 'o', 't', ';'] s = true := startsWith_of_quotes (by decide) hstart
          exact Bool.eq_false_iff.1 h.1 hrest
        · simp [startsWith, strip?, quoteEntity, hc] at hstart
      rw [List.singleton_append, replaceAll_cons hno, ih h.2]

/-! ## Start tags with new styles -/

/-- Whether every start tag takes the style that its element gets. -/
def Document.takesStyles (d : Document) (styles : List (Nat × String)) : Bool :=
  keepsRaw (writeStyled styles) 1 d.pieces && ((startTags d.pieces).zipIdx 1).all fun (tag, id) =>
    tag.styleCount ≤ 1 && (styles.lookup id).all fun style => tag.takesStyle (styleValue style)

/-- `t'` is the start tag of an element with the style it has got. -/
def GotStyle (styles : List (Nat × String)) (id : Nat) (t t' : StartTag) : Prop :=
  t'.styleCount ≤ 1 ∧
    match styles.lookup id with
    | none => t' = t
    | some style => t.Restyled t' (styleValue style)

/-- Attributes that differ in the style that was got. -/
def GotValue (styles : List (Nat × String)) (id : Nat) (a a' : Attributes) : Prop :=
  match styles.lookup id with
  | none => a' = a
  | some style =>
    a'.without ["style"] = a.without ["style"] ∧ a'.get? "style" = some (String.ofList (styleValue style))

section

variable {styles : List (Nat × String)} {id : Nat} {t t' : StartTag}

theorem GotStyle.value (h : GotStyle styles id t t') : GotValue styles id t.attributes t'.attributes := by
  unfold GotStyle at h
  unfold GotValue
  split at h
  · rw [h.2]
  · exact ⟨h.2.others, h.2.style⟩

/-- A start tag that takes its style is read with it. -/
theorem rereads_writeStyled (hcount : t.styleCount ≤ 1)
    (htakes : ((styles.lookup id).all fun style => t.takesStyle (styleValue style)) = true)
    (hempty : ∀ style, styles.lookup id = some style → style.isEmpty = false) :
    Rereads (GotStyle styles) (writeStyled styles) id t := by
  intro name attributes h
  rw [writeStyled]
  unfold GotStyle
  cases hstyle : styles.lookup id with
  | none => exact ⟨t, attributes, h, rfl, rfl, hcount, rfl⟩
  | some style =>
    rw [hstyle] at htakes
    obtain ⟨t', attributes', hread, hrestyled⟩ := h.withStyle hcount (quote_not_mem_styleValue style) htakes
    refine ⟨t', attributes', hread, ?_, hrestyled.closed_eq, hrestyled.styleCount_le, hrestyled⟩
    simpa [hempty style hstyle] using hrestyled.text_eq

end

/-- A document whose start tags take their styles is read again as the same pieces with these styles. -/
theorem Document.rewritten_edit {html : List Char} {styles : List (Nat × String)}
    (h : (Document.ofChars html).takesStyles styles = true)
    (hempty : ∀ id style, styles.lookup id = some style → style.isEmpty = false) :
    Rewritten (GotStyle styles) 1 (Document.ofChars html).pieces
      (Document.ofChars ((Document.ofChars html).edit (writeStyled styles))).pieces := by
  rw [takesStyles, Bool.and_eq_true, List.all_eq_true] at h
  have hscans : Scans html (Document.ofChars html).pieces := scans_piecesFrom (Nat.le_refl _)
  obtain ⟨ps', hscans', hrewritten, -⟩ := hscans.edit (R := GotStyle styles) (n := 1) h.1 fun p hp => by
    have hp := h.2 p hp
    rw [Bool.and_eq_true, decide_eq_true_iff] at hp
    exact rereads_writeStyled hp.1 hp.2 (hempty p.2)
  have hpieces : (Document.ofChars ((Document.ofChars html).edit (writeStyled styles))).pieces = ps' :=
    hscans'.piecesFrom_eq (Nat.le_refl _)
  rwa [hpieces]

/-! ## The document read again -/

/-- The same elements in the same places, but for their styles. -/
structure SameElements (d d' : Document) : Prop where
  elements : d'.elements = d.elements
  tag : ∀ id, d'.forest.tag? id = d.forest.tag? id
  parent : ∀ id, d'.forest.parent? id = d.forest.parent? id
  attributes : ∀ id, (d'.forest.element? id).map (·.2.without ["style"]) = (d.forest.element? id).map (·.2.without ["style"])

/-- What an element of `d` is in `d'`, if rules are matched against `turn`: its style is the text of the declarations
that it gets, if a rule describes it, and else it is as it was. -/
structure GetsStyle (rules : List InlineRule) (turn : Forest) (d d' : Document) (id : Nat) : Prop where
  own : turn.attribute? id "style" = d.forest.attribute? id "style"
  unmatched : (∀ r ∈ rules, ∀ s ∈ r.selectors, s.holds turn id = false) → d'.forest.element? id = d.forest.element? id
  matched : ∀ r ∈ rules, ∀ s ∈ r.selectors, s.holds turn id = true → ∃ value,
    d'.forest.attribute? id "style" = some value ∧
    value.toList = styleValue (inlineText (mergedStyle rules turn id)) ∧
    (occurs quoteEntity (inlineText (mergedStyle rules turn id)).toList = false →
      readQuotes value.toList = (inlineText (mergedStyle rules turn id)).toList)

section

variable {rules : List InlineRule}

/-- A rule that declares something gives a style that is not empty. -/
theorem isEmpty_of_styleOf? (hrules : ∀ r ∈ rules, r.declarations ≠ []) {f : Forest} {id : Nat} {style : String}
    (h : styleOf? rules f id = some style) : style.isEmpty = false := by
  have hfold (l : List (Specificity × List Declaration)) (hl : ∀ x ∈ l, x.2 ≠ []) (own : List Declaration)
      (hne : own ≠ [] ∨ l ≠ []) : l.foldl (fun style r => merge style r.2) own ≠ [] := by
    induction l generalizing own with
    | nil => simpa using hne
    | cons x l ih =>
      obtain ⟨hx, hl⟩ := List.forall_mem_cons.1 hl
      exact ih hl _ (.inl (merge_ne_nil (.inr hx)))
  rw [styleOf?_eq, Option.ite_none_left_eq_some] at h
  obtain ⟨hmatching, heq⟩ := h
  rw [← Option.some.inj heq]
  refine isEmpty_inlineText (hfold _ (fun x hx => ?_) _ (.inr fun hnil => hmatching ?_))
  · obtain ⟨r, hr, hx⟩ := List.mem_filterMap.1 (List.mem_mergeSort.1 hx)
    obtain ⟨-, -, rfl⟩ := Option.map_eq_some_iff.1 hx
    exact hrules r hr
  · have hlength := congrArg List.length hnil
    rw [List.length_mergeSort] at hlength
    rw [List.eq_nil_of_length_eq_zero hlength]
    rfl

theorem isEmpty_of_lookup_newStyles (hrules : ∀ r ∈ rules, r.declarations ≠ []) {f : Forest} {ids : List Nat} {id : Nat}
    {style : String} (h : (newStyles rules f ids).lookup id = some style) : style.isEmpty = false := by
  by_cases hid : id ∈ ids
  · obtain ⟨before, after, -, -, hlookup⟩ := @exists_turn rules f ids id hid
    exact isEmpty_of_styleOf? hrules (hlookup ▸ h)
  · rw [lookup_newStyles_of_not_mem hid] at h
    cases h

theorem getsStyle_of_lookup {turn : Forest} {d d' : Document} {styles : List (Nat × String)}
    (h : Forest.Alike (GotValue styles) d.forest d'.forest) {id : Nat} (hid : id ∈ d.elements)
    (hlookup : styles.lookup id = styleOf? rules turn id)
    (hown : turn.attribute? id "style" = d.forest.attribute? id "style") : GetsStyle rules turn d d' id := by
  have helement : ∃ tag a a', d.forest.element? id = some (tag, a) ∧ d'.forest.element? id = some (tag, a') ∧
      GotValue styles id a a' := by
    refine (h.element?_cases id).resolve_left fun hnone => ?_
    have hsome : d.forest.isElement id = true := (List.mem_filter.1 hid).2
    rw [Forest.isElement, hnone.1] at hsome
    cases hsome
  obtain ⟨tag, a, a', ha, ha', hgot⟩ := helement
  unfold GotValue at hgot
  rw [hlookup, styleOf?_eq] at hgot
  refine ⟨hown, fun hnone => ?_, fun r hr s hs hholds => ?_⟩
  · rw [(matching_eq_nil_iff rules turn id).2 hnone] at hgot
    rw [ha, ha', show a' = a from hgot]
  · have hmatching : matching rules turn id ≠ [] := fun hnil => by
      rw [(matching_eq_nil_iff rules turn id).1 hnil r hr s hs] at hholds
      cases hholds
    rw [if_neg (by simpa using hmatching)] at hgot
    refine ⟨_, ?_, String.toList_ofList, fun hquotes => ?_⟩
    · simp [Forest.attribute?, ha', hgot.2]
    · rw [String.toList_ofList]
      exact readQuotes_styleValue hquotes

theorem sameElements_of_alike {d d' : Document} {styles : List (Nat × String)}
    (h : Forest.Alike (GotValue styles) d.forest d'.forest) : SameElements d d' where
  elements := h.elements_eq.symm
  tag id := (h.tag?_eq id).symm
  parent id := (h.parent?_eq id).symm
  attributes id := by
    rcases h.element?_cases id with ⟨hf, hg⟩ | ⟨tag, a, a', hf, hg, hgot⟩
    · simp [hf, hg]
    · unfold GotValue at hgot
      split at hgot
      · simp [hf, hg, hgot]
      · simp [hf, hg, hgot.1]

end

def inlineRules (css : String) : List InlineRule := (Stylesheet.parse css).rules.filterMap inlineRule?

theorem inlineRules_declare (css : String) : ∀ r ∈ inlineRules css, r.declarations ≠ [] := by
  intro r hr
  obtain ⟨x, hx, hrule⟩ := List.mem_filterMap.1 hr
  unfold inlineRule? at hrule
  split at hrule
  · obtain ⟨-, heq⟩ := Option.ite_none_left_eq_some.1 hrule
    obtain rfl := Option.some.inj heq
    exact Stylesheet.declares_parse css x hx
  · cases hrule

def Document.stylesFrom (d : Document) (css : String) : List (Nat × String) :=
  newStyles (inlineRules css) d.forest d.elements

/-- If the start tags take their styles, inlining gives the same elements with one `style` attribute at most. An element
that a rule describes at its turn, when those before it have got their styles, has as its style the text of the merged
declarations. -/
theorem inlineAdditional_reads_back (html css : String)
    (h : (Document.parse html).takesStyles ((Document.parse html).stylesFrom css) = true) :
    SameElements (Document.parse html) (Document.parse (inlineAdditional html css)) ∧
    (∀ t ∈ startTags (Document.parse (inlineAdditional html css)).pieces, t.styleCount ≤ 1) ∧
    ∀ id ∈ (Document.parse html).elements,
      (∃ before after, (Document.parse html).elements = before ++ id :: after ∧
        GetsStyle (inlineRules css)
          (withStyles (Document.parse html).forest (newStyles (inlineRules css) (Document.parse html).forest before))
          (Document.parse html) (Document.parse (inlineAdditional html css)) id) ∧
      ((∀ r ∈ inlineRules css, ∀ s ∈ r.selectors, s.looksAround "style" = false) →
        GetsStyle (inlineRules css) (Document.parse html).forest (Document.parse html)
          (Document.parse (inlineAdditional html css)) id) := by
  have htext : Document.parse (inlineAdditional html css) =
      .ofChars ((Document.parse html).edit (writeStyled ((Document.parse html).stylesFrom css))) := by
    rw [Document.parse, inlineAdditional, String.toList_ofList]
    rfl
  have hrewritten := Document.rewritten_edit h fun id style => isEmpty_of_lookup_newStyles (inlineRules_declare css)
  have halike : Forest.Alike (GotValue ((Document.parse html).stylesFrom css)) (Document.parse html).forest
      (Document.parse (inlineAdditional html css)).forest := by
    rw [htext]
    exact hrewritten.alike fun _ _ _ hgot => hgot.value
  refine ⟨sameElements_of_alike halike, fun t ht => ?_, fun id hid => ⟨?_, fun hrules => ?_⟩⟩
  · rw [htext] at ht
    obtain ⟨_, _, hgot⟩ := hrewritten.startTags_cases t ht
    exact hgot.1
  · obtain ⟨before, after, hsplit, hbefore, hlookup⟩ := exists_turn hid
    exact ⟨before, after, hsplit,
      getsStyle_of_lookup halike hid hlookup (style_eq_of_alike (alike_withStyles_self hbefore))⟩
  · refine getsStyle_of_lookup halike hid ?_ rfl
    rw [Document.stylesFrom, lookup_newStyles hrules, if_pos hid]

def mixedHtml : String := "<div><p style='margin: 0'>a</p><img src=\"b.png\" /><br></div>"

def quotingCss : String := "p,img\x7bfont-family:\"A B\"\x7d"

theorem inlineAdditional_reads_back_mixed :
    (Document.parse mixedHtml).takesStyles ((Document.parse mixedHtml).stylesFrom quotingCss) = true ∧
    SameElements (Document.parse mixedHtml) (Document.parse (inlineAdditional mixedHtml quotingCss)) ∧
    (∀ t ∈ startTags (Document.parse (inlineAdditional mixedHtml quotingCss)).pieces, t.styleCount ≤ 1) ∧
    ∃ value, (Document.parse (inlineAdditional mixedHtml quotingCss)).forest.attribute? 2 "style" = some value ∧
      readQuotes value.toList = "margin: 0; font-family: \"A B\";".toList := by
  have htakes : (Document.parse mixedHtml).takesStyles ((Document.parse mixedHtml).stylesFrom quotingCss) = true := by
    decide +kernel
  obtain ⟨hsame, hcount, hstyle⟩ := inlineAdditional_reads_back mixedHtml quotingCss htakes
  obtain ⟨r, hr, s, hs, hholds⟩ : ∃ r ∈ inlineRules quotingCss, ∃ s ∈ r.selectors,
      s.holds (Document.parse mixedHtml).forest 2 = true := by decide +kernel
  have hmerged : inlineText (mergedStyle (inlineRules quotingCss) (Document.parse mixedHtml).forest 2) =
      "margin: 0; font-family: \"A B\";" := by decide +kernel
  have hgets := (hstyle 2 (by decide +kernel)).2 (by decide +kernel)
  obtain ⟨value, hvalue, -, hquotes⟩ := hgets.matched r hr s hs hholds
  rw [hmerged] at hquotes
  exact ⟨htakes, hsame, hcount, value, hvalue, hquotes (by decide +kernel)⟩

/-- A style that is not quoted is not found, and the new one is written behind it. -/
theorem inlineAdditional_unquoted :
    inlineAdditional "<p style=color:red></p>" "p\x7bcolor:blue\x7d" = "<p style=color:red style=\"color: blue;\"></p>" ∧
      ∃ t ∈ startTags (Document.parse (inlineAdditional "<p style=color:red></p>" "p\x7bcolor:blue\x7d")).pieces,
        t.styleCount = 2 := by
  decide +kernel

end EmailMarkup.Html
