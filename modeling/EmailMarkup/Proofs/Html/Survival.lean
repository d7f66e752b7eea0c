import EmailMarkup.Proofs.Html.Restyle
import EmailMarkup.Proofs.Html.Spans
import EmailMarkup.Proofs.Style.RoundTrip
/-!
# The styles that elements have

Rules that set other properties are written behind the declarations that an element has, and these are read again as they
were (`inlineAdditional_keeps_declarations`). A `style` value is read as it stands, with its quotes written, so it has to
say the same either way (`readsAlike`): outside parentheses, the semicolon of a written quote ends a declaration
(`inlineAdditional_cuts_at_entity`).
-/
namespace EmailMarkup.Style

/-! ## Other properties -/

theorem mergeOne_append {own : List Declaration} {d : Declaration} (h : d.property ∉ properties own) (l : List Declaration) :
    mergeOne (own ++ l) d = own ++ mergeOne l d := by
  induction own with
  | nil => rfl
  | cons old own ih =>
    obtain ⟨hold, hown⟩ := not_or.1 (List.mem_cons.not.1 h)
    rw [List.cons_append, mergeOne, if_neg (Ne.symm hold), ih hown, List.cons_append]

theorem merge_append {own new : List Declaration} (h : ∀ d ∈ new, d.property ∉ properties own) (l : List Declaration) :
    merge (own ++ l) new = own ++ merge l new := by
  induction new generalizing l with
  | nil => rfl
  | cons d new ih =>
    obtain ⟨hd, hnew⟩ := List.forall_mem_cons.1 h
    have hfirst := mergeOne_append hd l
    rw [merge, List.foldl_cons, hfirst]
    exact ih hnew _

/-- Rules for other properties leave declarations where they are. -/
theorem foldl_merge_append {κ : Type} {rules : List (κ × List Declaration)} {own : List Declaration}
    (h : ∀ r ∈ rules, ∀ d ∈ r.2, d.property ∉ properties own) (l : List Declaration) :
    ∃ new, rules.foldl (fun style r => merge style r.2) (own ++ l) = own ++ new := by
  induction rules generalizing l with
  | nil => exact ⟨l, rfl⟩
  | cons r rules ih =>
    obtain ⟨hr, hrules⟩ := List.forall_mem_cons.1 h
    rw [List.foldl_cons, merge_append hr]
    exact ih hrules _

end EmailMarkup.Style

namespace EmailMarkup.Html

open EmailMarkup.Text
open EmailMarkup.Style

/-! ## Written quotes -/

/-- A text with its quotes written. -/
def writeQuotes (s : List Char) : List Char := s.flatMap fun c => if c = '"' then quoteEntity else [c]

@[simp] theorem writeQuotes_append (s t : List Char) : writeQuotes (s ++ t) = writeQuotes s ++ writeQuotes t :=
  List.flatMap_append

theorem quote_not_mem_writeQuotes (s : List Char) : '"' ∉ writeQuotes s := by
  have hvalue := quote_not_mem_styleValue (String.ofList s)
  rwa [styleValue_eq, String.toList_ofList] at hvalue

theorem writeQuotes_of_not_mem {s : List Char} (h : '"' ∉ s) : writeQuotes s = s := by
  induction s with
  | nil => rfl
  | cons c s ih =>
    obtain ⟨hc, hs⟩ := not_or.1 (List.mem_cons.not.1 h)
    rw [writeQuotes, List.flatMap_cons, if_neg (Ne.symm hc), List.singleton_append]
    exact congrArg (c :: ·) (ih hs)

/-- A declaration with its quotes written. -/
def writtenQuotes (d : Declaration) : Declaration :=
  { d with
    property := String.ofList (writeQuotes d.property.toList)
    value := String.ofList (writeQuotes d.value.toList) }

theorem text_writtenQuotes (d : Declaration) : (writtenQuotes d).text = writeQuotes d.text := by
  have hcons {c : Char} (hc : c ≠ '"') (s : List Char) : writeQuotes (c :: s) = c :: writeQuotes s := by
    simp [writeQuotes, hc]
  have hmark : writeQuotes (if d.important then ' ' :: '!' :: importantMark else []) =
      if d.important then ' ' :: '!' :: importantMark else [] := by cases d.important <;> decide
  rw [Declaration.text, Declaration.text, writeQuotes_append, hcons (by decide), hcons (by decide), writeQuotes_append, hmark,
    writtenQuotes, String.toList_ofList, String.toList_ofList]

theorem spacedText_map_writtenQuotes (l : List Declaration) : spacedText (l.map writtenQuotes) = writeQuotes (spacedText l) := by
  induction l with
  | nil => rfl
  | cons d l ih =>
    have hfirst : writeQuotes (' ' :: (d.text ++ [';'])) = ' ' :: (writeQuotes d.text ++ [';']) := by
      rw [← List.singleton_append, writeQuotes_append, writeQuotes_append]
      rfl
    rw [List.map_cons, spacedText, List.flatMap_cons, text_writtenQuotes, spacedText, List.flatMap_cons, writeQuotes_append, hfirst]
    exact congrArg _ ih

/-- A text is read as it was before its quotes were written, if it has none written. -/
theorem readQuotes_writeQuotes_append {s rest : List Char} (h : occurs quoteEntity s = false)
    (hrest : ∀ c ∈ rest.head?, c = ' ') : readQuotes (writeQuotes s ++ rest) = s ++ readQuotes rest := by
  have hread : readQuotes (writeQuotes s) = s := by
    have hvalue := @readQuotes_styleValue (String.ofList s) (by rwa [String.toList_ofList])
    rwa [styleValue_eq, String.toList_ofList] at hvalue
  have hapart : Apart quoteEntity (writeQuotes s) rest := by
    cases rest with
    | nil => exact fun u _ _ => by rw [List.append_nil]
    | cons c rest =>
      obtain rfl : c = ' ' := hrest c rfl
      exact Apart.of_head? rfl (by decide)
  rw [readQuotes, hapart.replaceAll_eq (by decide), ← readQuotes, hread, readQuotes]

theorem readQuotes_space (s : List Char) : readQuotes (' ' :: s) = ' ' :: readQuotes s := replaceAll_cons rfl _

/-! ## Values -/

/-- Whether a declaration is read again from its text with the quotes written: its property has no quote, and it has no
written quote. -/
def takesQuotes (d : Declaration) : Bool := !d.property.toList.contains '"' && !occurs quoteEntity d.inlineText.toList

/-- Declarations are read again from a text in which their quotes are written. -/
theorem parseDeclarations_spacedText {l : List Declaration} (h : ∀ d ∈ l, d.WellFormed ∧ Passes parentheses ';' {} d.text {} ∧
    takesQuotes d = true) {rest : List Char} (hrest : ∀ c ∈ rest.head?, c = ' ') :
    parseDeclarations (readQuotes (writeQuotes (spacedText l) ++ rest)) = l ++ parseDeclarations (readQuotes rest) := by
  induction l with
  | nil => rfl
  | cons d l ih =>
    obtain ⟨⟨hd, hpasses, htakes⟩, hl⟩ := List.forall_mem_cons.1 h
    rw [takesQuotes, Bool.and_eq_true, Bool.not_eq_true', Bool.not_eq_true', Declaration.toList_inlineText] at htakes
    have hoccurs : occurs quoteEntity (' ' :: (d.text ++ [';'])) = false := by
      rw [occurs_cons, htakes.2]
      rfl
    -- No written quote reaches across the blank behind a declaration.
    have hnext : ∀ c ∈ (writeQuotes (spacedText l) ++ rest).head?, c = ' ' := by
      cases l with
      | nil => exact hrest
      | cons e l => simp [spacedText, writeQuotes]
    have hsplit : writeQuotes (spacedText (d :: l)) ++ rest =
        writeQuotes (' ' :: (d.text ++ [';'])) ++ (writeQuotes (spacedText l) ++ rest) := by
      rw [← List.append_assoc, ← writeQuotes_append]
      rfl
    rw [hsplit, readQuotes_writeQuotes_append hoccurs hnext, List.cons_append, List.append_assoc, List.singleton_append,
      parseDeclarations_text hd hpasses, ih hl, List.cons_append]

/-- Whether a `style` value says the same as it stands and with its quotes read: it has the same declarations, which are
read again from their texts, and it ends outside quotes and parentheses. -/
def readsAlike (value : List Char) : Bool :=
  parseDeclarations value == (parseDeclarations (readQuotes value)).map writtenQuotes &&
    (readQuotes value).foldl (Nesting.step parentheses) {} == {} && (parseDeclarations (readQuotes value)).all takesQuotes

theorem properties_of_readsAlike {value : List Char} (h : readsAlike value = true) :
    properties (parseDeclarations value) = properties (parseDeclarations (readQuotes value)) := by
  rw [readsAlike, Bool.and_eq_true, Bool.and_eq_true, beq_iff_eq, List.all_eq_true] at h
  rw [h.1.1, properties, List.map_map]
  refine List.map_congr_left fun d hd => ?_
  have htakes := h.2 d hd
  rw [takesQuotes, Bool.and_eq_true, Bool.not_eq_true', List.contains_eq_mem, decide_eq_false_iff_not] at htakes
  rw [Function.comp_apply, writtenQuotes, writeQuotes_of_not_mem htakes.1, String.ofList_toList]

/-- Declarations that are written behind those of a value leave these as they were. -/
theorem prefix_parseDeclarations {value : List Char} (h : readsAlike value = true) (new : List Declaration) :
    parseDeclarations (readQuotes value) <+:
      parseDeclarations (readQuotes (styleValue (inlineText (parseDeclarations value ++ new)))) := by
  rw [readsAlike, Bool.and_eq_true, Bool.and_eq_true, beq_iff_eq, beq_iff_eq, List.all_eq_true] at h
  obtain ⟨⟨hown, hend⟩, htakes⟩ := h
  generalize hl : parseDeclarations (readQuotes value) = l at hown htakes
  have hread : ∀ d ∈ l, d.WellFormed ∧ Passes parentheses ';' {} d.text {} ∧ takesQuotes d = true := by
    intro d hd
    obtain ⟨hformed, hpasses⟩ := mem_parseDeclarations (hl ▸ hd)
    exact ⟨hformed, hpasses hend, htakes d hd⟩
  by_cases hne : l.map writtenQuotes ++ new = []
  · obtain ⟨hnil, -⟩ := List.append_eq_nil_iff.1 hne
    rw [List.map_eq_nil_iff.1 hnil]
    exact List.nil_prefix
  · have hnew : ∀ c ∈ (writeQuotes (spacedText new)).head?, c = ' ' := by
      cases new <;> simp [spacedText, writeQuotes]
    -- With a blank in front of the value every declaration has one before it; the quotes of the old ones are written already.
    have hvalue : ' ' :: styleValue (inlineText (l.map writtenQuotes ++ new)) =
        writeQuotes (spacedText l) ++ writeQuotes (spacedText new) := by
      have hspace (s : List Char) : ' ' :: writeQuotes s = writeQuotes (' ' :: s) := rfl
      rw [styleValue_eq, ← writeQuotes, hspace, spacedText_eq hne, spacedText_append, spacedText_map_writtenQuotes,
        writeQuotes_append, writeQuotes_of_not_mem (quote_not_mem_writeQuotes _)]
    refine ⟨parseDeclarations (readQuotes (writeQuotes (spacedText new))), ?_⟩
    rw [← parseDeclarations_spacedText hread hnew, ← hvalue, readQuotes_space, parseDeclarations_space, hown]

/-! ## Inlining -/

/-- The elements at the turn of one of them: those before it have got their styles. -/
def Document.turnOf (d : Document) (css : String) (id : Nat) : Forest :=
  withStyles d.forest (newStyles (inlineRules css) d.forest (d.elements.takeWhile (· != id)))

/-- The style that an element gets is found at its turn, when it has the style of its start tag. -/
theorem Document.lookup_stylesFrom {html : String} {i : Nat} {t : StartTag}
    (ht : (startTags (parse html).pieces)[i]? = some t) (css : String) :
    ((parse html).stylesFrom css).lookup (i + 1) = styleOf? (inlineRules css) ((parse html).turnOf css (i + 1)) (i + 1) ∧
      ownStyle ((parse html).turnOf css (i + 1)) (i + 1) = parseDeclarations ((t.attributes.get? "style").getD "").toList := by
  have helements : (parse html).elements = List.range' 1 (startTags (parse html).pieces).length := elements_eq html.toList
  have helement : (parse html).forest.element? (i + 1) = some (t.name, t.attributes) := element?_eq html.toList ht
  have hmem : i + 1 ∈ (parse html).elements := by
    obtain ⟨hlt, -⟩ := List.getElem?_eq_some_iff.1 ht
    rw [helements]
    exact List.mem_range'.2 ⟨i, hlt, by omega⟩
  have hnodup : (parse html).elements.Nodup := by
    rw [helements]
    exact List.nodup_range'
  obtain ⟨before, after, hsplit, hbefore, hlookup⟩ :=
    @exists_turn (inlineRules css) (parse html).forest (parse html).elements (i + 1) hmem
  have hnot : ∀ x ∈ before, (x != i + 1) = true := by
    intro x hx
    rw [hsplit] at hnodup
    have hne : x ≠ i + 1 := (List.nodup_append.1 hnodup).2.2 x hx (i + 1) List.mem_cons_self
    simpa using hne
  have hturn : (parse html).turnOf css (i + 1) =
      withStyles (parse html).forest (newStyles (inlineRules css) (parse html).forest before) := by
    rw [turnOf, hsplit, List.takeWhile_append_of_pos hnot, List.takeWhile_cons_of_neg (by simp), List.append_nil]
  rw [hturn]
  refine ⟨hlookup, ?_⟩
  rw [ownStyle, style_eq_of_alike (alike_withStyles_self hbefore), Forest.attribute?, helement, Option.bind_some]

theorem Document.editFrom_append (write : Nat → StartTag → List Char) (id : Nat) (ps qs : List Piece) :
    editFrom write id (ps ++ qs) = editFrom write id ps ++ editFrom write (id + (startTags ps).length) qs := by
  induction ps generalizing id with
  | nil => rfl
  | cons p ps ih =>
    have hkeep (text : List Char) : text ++ editFrom write id (ps ++ qs) =
        text ++ editFrom write id ps ++ editFrom write (id + (startTags ps).length) qs := by rw [ih, List.append_assoc]
    cases p with
    | start tag =>
      have hcount : id + (startTags (.start tag :: ps)).length = id + 1 + (startTags ps).length := by
        rw [Nat.add_assoc, Nat.add_comm 1]
        rfl
      rw [List.cons_append, editFrom, ih, hcount, editFrom, List.append_assoc]
    | stop name text => exact hkeep text
    | other text => exact hkeep text

/-- The `style` attribute of a start tag stands in double quotes. -/
structure StartTag.HasStyle (t : StartTag) (front value back : List Char) : Prop where
  text_eq : t.text = front ++ '"' :: (value ++ back)
  place : t.style = some (front.length + 1, value.length)
  get? : t.attributes.get? "style" = some (String.ofList value)

namespace StartTag.HasStyle

variable {t : StartTag} {front value back : List Char} (h : t.HasStyle front value back)

include h

theorem withStyle_eq (new : List Char) : t.withStyle new = front ++ '"' :: (new ++ back) := by
  have hsplit : t.text = (front ++ ['"']) ++ (value ++ back) := by simp [h.text_eq]
  have hlength : front.length + 1 = (front ++ ['"']).length := by simp
  rw [withStyle, h.place]
  simp only
  rw [hsplit, hlength, List.take_left, List.drop_length_add_append, List.drop_left]
  simp

theorem quote_not_mem {name attributes : List Char} (ht : t.IsRead name attributes) : '"' ∉ value := by
  obtain ⟨front', q, value', back', htext, hstart, hlength, -, hnot, -⟩ := ht.style_inside h.place
  have hsame := h.text_eq.symm.trans htext
  obtain ⟨-, hrest⟩ := List.append_inj hsame (Nat.succ.inj hstart)
  obtain ⟨rfl, hvalues⟩ := List.cons.inj hrest
  obtain ⟨rfl, -⟩ := List.append_inj hvalues hlength
  exact hnot

end StartTag.HasStyle

/-- Rules for other properties are merged behind the declarations that an element has. -/
theorem mergedStyle_eq_append {rules : List InlineRule} {f : Forest} {id : Nat}
    (h : ∀ r ∈ rules, ∀ s ∈ r.selectors, s.holds f id = true →
      ∀ d ∈ r.declarations, d.property ∉ properties (ownStyle f id)) :
    ∃ new, mergedStyle rules f id = ownStyle f id ++ new := by
  have hsorted : ∀ x ∈ (matching rules f id).mergeSort (fun a b => a.1.le b.1), ∀ d ∈ x.2,
      d.property ∉ properties (ownStyle f id) := by
    intro x hx
    obtain ⟨r, hr, hbest⟩ := List.mem_filterMap.1 (List.mem_mergeSort.1 hx)
    obtain ⟨s, hs, rfl⟩ := Option.map_eq_some_iff.1 hbest
    obtain ⟨⟨sel, hsel, hholds, -⟩, -⟩ := Selector.bestMatch?_eq_some_iff.1 hs
    exact h r hr sel hsel hholds
  have hfold := foldl_merge_append hsorted []
  rwa [List.append_nil] at hfold

open Document (editFrom)

/-- The text around a start tag. -/
theorem toList_inlineAdditional {html : String} {before after : List Piece} {t : StartTag}
    (hpieces : (Document.parse html).pieces = before ++ .start t :: after) (css : String) :
    (inlineAdditional html css).toList =
      editFrom (writeStyled ((Document.parse html).stylesFrom css)) 1 before ++
        (writeStyled ((Document.parse html).stylesFrom css) ((startTags before).length + 1) t ++
          editFrom (writeStyled ((Document.parse html).stylesFrom css)) ((startTags before).length + 2) after) := by
  have hsplit := Document.editFrom_append (writeStyled ((Document.parse html).stylesFrom css)) 1 before (.start t :: after)
  rw [← hpieces, Nat.add_comm 1] at hsplit
  rw [inlineAdditional, String.toList_ofList]
  exact hsplit

/-- Rules that set other properties leave the declarations of a start tag as they were: its value begins with them when it
is read again. -/
theorem inlineAdditional_keeps_declarations (html css : String) {before after : List Piece} {t : StartTag} {id : Nat}
    {front value back : List Char} (hpieces : (Document.parse html).pieces = before ++ .start t :: after)
    (hid : id = (startTags before).length + 1) (hstyle : t.HasStyle front value back) (hvalue : readsAlike value = true)
    (hrules : ∀ r ∈ inlineRules css, ∀ s ∈ r.selectors, s.holds ((Document.parse html).turnOf css id) id = true →
      ∀ d ∈ r.declarations, d.property ∉ properties (parseDeclarations (readQuotes value))) :
    ∃ value', '"' ∉ value' ∧ parseDeclarations (readQuotes value) <+: parseDeclarations (readQuotes value') ∧
      (inlineAdditional html css).toList =
        editFrom (writeStyled ((Document.parse html).stylesFrom css)) 1 before ++ ((front ++ '"' :: (value' ++ back)) ++
          editFrom (writeStyled ((Document.parse html).stylesFrom css)) (id + 1) after) := by
  subst hid
  have hscans : Scans html.toList (Document.parse html).pieces := scans_piecesFrom (Nat.le_refl _)
  have ht : (startTags (Document.parse html).pieces)[(startTags before).length]? = some t := by
    rw [hpieces, startTags, List.filterMap_append]
    simp [startTags]
  obtain ⟨hlookup, hown⟩ := Document.lookup_stylesFrom ht css
  rw [hstyle.get?, Option.getD_some, String.toList_ofList] at hown
  rw [toList_inlineAdditional hpieces]
  rw [styleOf?_eq] at hlookup
  split at hlookup
  · obtain ⟨name, attributes, hread⟩ := hscans.isRead t (List.mem_of_getElem? ht)
    refine ⟨value, hstyle.quote_not_mem hread, List.prefix_refl _, ?_⟩
    rw [writeStyled, hlookup, hstyle.text_eq]
  · obtain ⟨new, hmerged⟩ := mergedStyle_eq_append (by rwa [hown, properties_of_readsAlike hvalue])
    have hempty := isEmpty_of_lookup_newStyles (inlineRules_declare css) hlookup
    rw [hmerged, hown] at hlookup hempty
    refine ⟨_, quote_not_mem_styleValue _, prefix_parseDeclarations hvalue new, ?_⟩
    rw [writeStyled, hlookup]
    simp only [hempty, Bool.false_eq_true, if_false]
    rw [hstyle.withStyle_eq]

def urlStyle : List Char := "background: url(&quot;a.png&quot;); color: red".toList

def urlHtml : String := "<div><p style=\"background: url(&quot;a.png&quot;); color: red\"></p></div>"

def marginCss : String := "p\x7bmargin:0\x7d"

theorem inlineAdditional_keeps_url : ∃ before after t, (Document.parse urlHtml).pieces = before ++ .start t :: after ∧
    (startTags before).length = 1 ∧ t.HasStyle "<p style=".toList urlStyle "\">".toList ∧ readsAlike urlStyle = true ∧
    ∃ value', '"' ∉ value' ∧
      [⟨"background", "url(\"a.png\")", false⟩, ⟨"color", "red", false⟩] <+: parseDeclarations (readQuotes value') ∧
      (inlineAdditional urlHtml marginCss).toList =
        Document.editFrom (writeStyled ((Document.parse urlHtml).stylesFrom marginCss)) 1 before ++
          (("<p style=".toList ++ '"' :: (value' ++ "\">".toList)) ++
            Document.editFrom (writeStyled ((Document.parse urlHtml).stylesFrom marginCss)) 3 after) := by
  obtain ⟨t, ht⟩ : ∃ t, (startTags (Document.parse urlHtml).pieces)[1]? = some t :=
    Option.isSome_iff_exists.1 (by decide +kernel)
  obtain ⟨before, after, hpieces, hbefore, -⟩ := Document.spansFrom_split ht 0
  have hfacts : (startTags (Document.parse urlHtml).pieces)[1]?.map (fun t => (t.text, t.style, t.attributes.get? "style")) =
      some ("<p style=".toList ++ '"' :: (urlStyle ++ "\">".toList), some (10, urlStyle.length), some (String.ofList urlStyle)) := by
    decide +kernel
  rw [ht] at hfacts
  obtain ⟨htext, hplace, hget⟩ : t.text = _ ∧ t.style = _ ∧ t.attributes.get? "style" = _ := by
    simpa only [Option.map_some, Option.some.injEq, Prod.mk.injEq] using hfacts
  have hstyle : t.HasStyle "<p style=".toList urlStyle "\">".toList := ⟨htext, hplace, hget⟩
  have halike : readsAlike urlStyle = true := by decide +kernel
  have hdeclarations : parseDeclarations (readQuotes urlStyle) =
      [⟨"background", "url(\"a.png\")", false⟩, ⟨"color", "red", false⟩] := by decide +kernel
  have hid : 2 = (startTags before).length + 1 := by rw [hbefore]
  obtain ⟨value', hquote, hprefix, hwritten⟩ :=
    inlineAdditional_keeps_declarations urlHtml marginCss hpieces hid hstyle halike (by decide +kernel)
  exact ⟨before, after, t, hpieces, hbefore, hstyle, halike, value', hquote, hdeclarations ▸ hprefix, hwritten⟩

def fontStyle : List Char := "font-family: &quot;Open Sans&quot;, Arial".toList

/-- The semicolon of a written quote ends the declaration, and the rest of it is lost. -/
theorem inlineAdditional_cuts_at_entity :
    parseDeclarations (readQuotes fontStyle) = [⟨"font-family", "\"Open Sans\", Arial", false⟩] ∧
      (∀ r ∈ inlineRules "p\x7bcolor:red\x7d", properties r.declarations = ["color"]) ∧
      inlineAdditional ("<p style=\"" ++ String.ofList fontStyle ++ "\"></p>") "p\x7bcolor:red\x7d" =
        "<p style=\"font-family: &quot; color: red;\"></p>" ∧
      ¬ parseDeclarations (readQuotes fontStyle) <+:
        parseDeclarations (readQuotes "font-family: &quot; color: red;".toList) := by
  decide +kernel

end EmailMarkup.Html
