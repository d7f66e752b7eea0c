import EmailMarkup.Proofs.Render.Containers
import EmailMarkup.Proofs.Render.Tags
/-!
# Attribute values stay in their attributes

Two renderings of a component with the same content but other attribute values have the same tags (`renderedTags_eq`).
Attributes are written escaped, so this holds whatever their values are. Styles are not, so values that go into styles
must have no double quote, and those that go into the comment that a divider writes for Outlook must not end it
(`Confined`).
-/
namespace EmailMarkup.Render

open EmailMarkup.Html
open EmailMarkup.Text

/-! ## Values as they are given -/

/-- A colour that is written out has no other characters than its digits. -/
theorem expandColor_cases (s : String) :
    expandColor s = s ∨ ∀ c ∈ (expandColor s).toList, c = '#' ∨ isHexDigit c = true := by
  unfold expandColor expandColorChars
  split
  · rename_i digits heq
    split
    · rename_i hcolor
      right
      intro c hc
      rw [Bool.and_eq_true, List.all_eq_true] at hcolor
      rw [String.toList_ofList, List.mem_cons] at hc
      refine hc.imp_right fun hc => ?_
      obtain ⟨d, hd, hcd⟩ := List.mem_flatMap.1 hc
      obtain rfl : c = d := by simpa using hcd
      exact hcolor.2 c hd
    · exact .inl (String.ofList_toList)
  · exact .inl (String.ofList_toList)

/-- A value has a property if those that the template gives, colours that are written out, those of the component and the
fallback have it. -/
theorem getD_induction {p : String → Prop} {c : Cascade} {name fallback : String}
    (hgiven : ∀ value ∈ c.given? name, p value)
    (hcolor : ∀ value : String, (∀ d ∈ value.toList, d = '#' ∨ isHexDigit d = true) → p value)
    (hdefault : ∀ value, (name, value) ∈ c.defaults → p value) (hfallback : p fallback) : p (c.getD name fallback) := by
  rw [Cascade.getD, Cascade.get?]
  cases hvalue : c.given? name with
  | some value =>
    change p (expandColor value)
    rcases expandColor_cases value with hsame | hdigits
    · rw [hsame]
      exact hgiven value hvalue
    · exact hcolor _ hdigits
  | none =>
    cases hlookup : c.defaults.lookup name with
    | none => exact hfallback
    | some value =>
      obtain ⟨l, r, hl, -⟩ := List.lookup_eq_some_iff.1 hlookup
      exact hdefault value (by simp [hl])

/-! ## Values that are not escaped -/

/-- The attributes whose values a component writes into its styles as they are. -/
def styled : Builtin → List String
  | .text => ["font-family", "font-size", "font-style", "font-weight", "letter-spacing", "line-height", "align",
      "text-decoration", "text-transform", "color", "height"]
  | .button => ["border", "border-bottom", "border-left", "border-right", "border-top", "border-radius", "font-style",
      "inner-padding", "background-color", "width", "color", "font-family", "font-size", "font-weight", "line-height",
      "letter-spacing", "text-decoration", "text-transform"]
  | .divider => ["border-style", "border-width", "border-color", "width"]
  | .spacer => ["height"]
  | .table => ["color", "font-family", "font-size", "line-height", "table-layout", "width", "border"]
  | _ => []

/-- The attributes whose values a component writes into comments as they are. -/
def commented : Builtin → List String
  | .divider => ["border-style", "border-width", "border-color"]
  | _ => []

/-- The template gives no value that ends what it is written into: a quoted style, or a comment. -/
structure Confined (b : Builtin) (c : Cascade) : Prop where
  styles : ∀ name ∈ styled b, ∀ value ∈ c.given? name, Quotable value
  comments : ∀ name ∈ commented b, ∀ value ∈ c.given? name, Commentable value

instance (b : Builtin) (c : Cascade) : Decidable (Confined b c) :=
  decidable_of_iff ((∀ name ∈ styled b, ∀ value ∈ c.given? name, Quotable value) ∧
      ∀ name ∈ commented b, ∀ value ∈ c.given? name, Commentable value)
    ⟨fun h => ⟨h.1, h.2⟩, fun h => ⟨h.styles, h.comments⟩⟩

theorem quotable_defaults (b : Builtin) : ∀ e ∈ b.defaults, Quotable e.2 := by
  cases b <;> decide

theorem commentable_defaults (b : Builtin) : ∀ e ∈ b.defaults, Commentable e.2 := by
  cases b <;> decide

namespace Confined

variable {ctx : Context} {n : Node} {b : Builtin}

theorem quotable (h : Confined b (ctx.cascade n b)) {name fallback : String} (hname : name ∈ styled b)
    (hfallback : Quotable fallback) : Quotable ((ctx.cascade n b).getD name fallback) := by
  refine getD_induction (h.styles name hname) (fun value hdigits hquote => ?_) (fun value hdefault => ?_) hfallback
  · exact absurd (hdigits _ hquote) (by decide)
  · exact quotable_defaults b (name, value) hdefault

theorem quotable_border (h : Confined b (ctx.cascade n b)) {property name : String} (hname : name ∈ styled b) :
    Quotable (borderValue (ctx.cascade n b) property name).2 := by
  unfold borderValue
  dsimp only
  split
  · exact h.quotable hname (by decide)
  · decide

theorem commentable (h : Confined b (ctx.cascade n b)) {name fallback : String} (hname : name ∈ commented b)
    (hfallback : Commentable fallback) : Commentable ((ctx.cascade n b).getD name fallback) := by
  refine getD_induction (h.comments name hname) (fun value hdigits => ?_) (fun value hdefault => ?_) hfallback
  · exact commentable_of_not_mem fun hangle => absurd (hdigits _ hangle) (by decide)
  · exact commentable_defaults b (name, value) hdefault

end Confined

/-! ## What components write -/

section

variable {ctx : Context} {n : Node} {s : Surroundings}

theorem text_opening (h : Confined .text (ctx.cascade n .text)) : ∃ l, Writable l ∧
    (textOutline (ctx.cascade n .text)).opening = spaces contentIndent ++ (startTag "div" l ++ (flow n.innerMarkup ++
      ((if (dropEnd? "\n" (flow n.innerMarkup)).isSome then spaces contentIndent else "") ++ "</div>"))) := by
  refine ⟨_, ?_, by simp only [textOutline, String.append_assoc]; rfl⟩
  refine .cons (by decide) (quotable_styleText ?_) .nil
  simp +decide (disch := decide) [ownValues, h.quotable]

theorem spacer_opening (h : Confined .spacer (ctx.cascade n .spacer)) : ∃ l, Writable l ∧
    (spacerOutline (ctx.cascade n .spacer)).opening = spaces contentIndent ++ (startTag "div" l ++ "&#8202;</div>") := by
  refine ⟨_, ?_, by simp only [spacerOutline, String.append_assoc]; rfl⟩
  refine .cons (by decide) (quotable_styleText ?_) .nil
  simp +decide (disch := decide) [h.quotable]

theorem table_opening (hs : ctx.sanitize = true) (h : Confined .table (ctx.cascade n .table)) : ∃ l, Writable l ∧
    (tableOutline ctx (ctx.cascade n .table)).opening = startTag "table" l ++ ("\n" ++ (n.innerMarkup ++ "</table>\n")) := by
  refine ⟨_, ?_, by simp only [tableOutline, String.append_assoc]; rfl⟩
  refine .cons (by decide) (quotable_escape hs _) <| .cons (by decide) (quotable_escape hs _) <|
    .cons (by decide) (quotable_escape hs _) <| .cons (by decide) (by decide) <|
    .cons (by decide) (quotable_styleText ?_) .nil
  simp +decide (disch := decide) [h.quotable]

theorem quotable_labelWidth (c : Cascade) (s : Surroundings) (padding : String) : Quotable (labelWidth c s padding) := by
  rw [labelWidth]
  split
  · decide
  · split
    · decide
    · exact quotable_append.2 ⟨quotable_wholeText _, by decide⟩

theorem button_opening (hs : ctx.sanitize = true) (h : Confined .button (ctx.cascade n .button)) : ∃ table cell link,
    Writable table ∧ Writable cell ∧ Writable link ∧
    (buttonOutline ctx (ctx.cascade n .button) s).opening = spaces contentIndent ++ (startTag "table" table ++
      (newline (contentIndent + 2) ++ (startTag "tbody" [] ++ (newline (contentIndent + 4) ++ (startTag "tr" [] ++
      (newline (contentIndent + 6) ++ (startTag "td" cell ++ (newline (contentIndent + 8) ++ (startTag "a" link ++
      (" " ++ (trim (String.ofList (collapse n.innerMarkup.toList)) ++ (" </a>" ++ ("\n" ++ closeCell contentIndent))))))))))))) := by
  have hbody : startTag "tbody" [] = "<tbody>" := by decide
  have hrow : startTag "tr" [] = "<tr>" := by decide
  refine ⟨_, _, _, ?_, ?_, ?_, by
    simp only [buttonOutline, openCell, line, newline, tableTag, hbody, hrow, String.append_assoc]; rfl⟩
  · refine .append (.append .nil (.cons (by decide) (by decide) <| .cons (by decide) (by decide) <|
      .cons (by decide) (by decide) <| .cons (by decide) (by decide) .nil)) (.cons (by decide) (quotable_styleText ?_) .nil)
    simp +decide (disch := decide) [h.quotable]
  · refine .cons (by decide) (by decide) <| .cons (by decide) (quotable_escape hs _) <| .cons (by decide) (by decide) <|
      .cons (by decide) (quotable_styleText ?_) <| .cons (by decide) (quotable_escape hs _) .nil
    have hname (property name : String) : (borderValue (ctx.cascade n .button) property name).1 = property := rfl
    simp +decide (disch := decide) [h.quotable, h.quotable_border, hname]
  · refine .append (.append (.cons (by decide) (quotable_link hs _) .nil) (.optional (by decide) ?_)) <|
      .cons (by decide) (quotable_styleText ?_) <| .cons (by decide) (quotable_escape hs _) .nil
    · intro v hv
      obtain ⟨_, -, rfl⟩ := Option.map_eq_some_iff.1 hv
      exact quotable_escape hs _
    · simp +decide (disch := decide) [h.quotable, quotable_labelWidth]

theorem dividerMargin_cases (align : String) :
    dividerMargin align = "0px" ∨ dividerMargin align = "0px 0px 0px auto" ∨ dividerMargin align = "0px auto" := by
  unfold dividerMargin
  split <;> simp

theorem divider_opening (hs : ctx.sanitize = true) (h : Confined .divider (ctx.cascade n .divider)) : ∃ l body,
    Writable l ∧ Commentable body ∧
    (dividerOutline ctx (ctx.cascade n .divider) s).opening = spaces contentIndent ++ (startTag "p" l ++
      (newline contentIndent ++ ("</p>" ++ (newline contentIndent ++ ("<!--" ++ (body ++ ("-->" ++ ""))))))) := by
  have hopen (t : String) : outlookOpen ++ ("<table" ++ t) = "<!--" ++ ("[if mso | IE]><table" ++ t) := by
    rw [← String.append_assoc, ← String.append_assoc]
    congr 1
  have hclose : " ><tr><td style=\"height:0;line-height:0;\"> &nbsp;\n</td></tr></table>" ++ outlookClose =
      " ><tr><td style=\"height:0;line-height:0;\"> &nbsp;\n</td></tr></table><![endif]" ++ ("-->" ++ "") := by
    decide
  refine ⟨_, "[if mso | IE]><table" ++ (attributeText _ ++
    " ><tr><td style=\"height:0;line-height:0;\"> &nbsp;\n</td></tr></table><![endif]"), ?_, ?_, by
    simp only [dividerOutline, line, newline, String.append_assoc, hopen, hclose]; rfl⟩
  · refine .cons (by decide) (quotable_styleText ?_) .nil
    have hmargin (align : String) : Quotable (dividerMargin align) := by
      rcases dividerMargin_cases align with heq | heq | heq <;> rw [heq] <;> decide
    simp +decide (disch := decide) [h.quotable, hmargin]
  · have hborder : Commentable ((ctx.cascade n .divider).getD "border-style" "solid" ++
        (" " ++ ((ctx.cascade n .divider).getD "border-width" "4px" ++
        (" " ++ (ctx.cascade n .divider).getD "border-color" "#000000")))) :=
      (h.commentable (by decide) (by decide)).spaced <| (h.commentable (by decide) (by decide)).spaced <|
        h.commentable (by decide) (by decide)
    have hmargin (align : String) : Commentable (dividerMargin align) := by
      rcases dividerMargin_cases align with heq | heq | heq <;> rw [heq] <;> decide
    have hwidth (x : Float) : Commentable (wholeText x ++ "px") := commentable_of_not_mem fun hmem => by
      rw [String.toList_append, List.mem_append] at hmem
      exact hmem.elim (fun hmem => (mem_wholeText hmem).1 rfl) (absurd · (by decide))
    have hescape (value : String) : Commentable (ctx.escape value) :=
      commentable_of_not_mem fun hmem => (mem_escape hs hmem).1 rfl
    have htable : Sealed "[if mso | IE]><table" := by decide
    have hrest : Commentable " ><tr><td style=\"height:0;line-height:0;\"> &nbsp;\n</td></tr></table><![endif]" := by decide
    refine htable.commentable_append ((sealed_attributeText ?_).commentable_append hrest)
    simp only [List.forall_mem_cons]
    refine ⟨⟨by decide, hescape _⟩, by decide, by decide, by decide, ⟨by decide, (sealed_styleText ?_).commentable⟩,
      by decide, ⟨by decide, hwidth _⟩, by simp⟩
    simp +decide [hborder, hmargin, hwidth]

end

/-! ## Two templates -/

/-- The components of which only attributes and text reach the HTML. -/
def leaves : List Builtin := [.text, .button, .divider, .spacer, .table]

theorem sameTags_outline {b : Builtin} (hb : b ∈ leaves) {ctx ctx' : Context} (hs : ctx.sanitize = true)
    (hs' : ctx'.sanitize = true) {n n' : Node} (hn : n'.innerMarkup = n.innerMarkup) (h : Confined b (ctx.cascade n b))
    (h' : Confined b (ctx'.cascade n' b)) (s s' : Surroundings) :
    SameTags (outline ctx b n s).opening (outline ctx' b n' s').opening := by
  simp only [leaves, List.mem_cons, List.not_mem_nil, or_false] at hb
  rcases hb with rfl | rfl | rfl | rfl | rfl
  · obtain ⟨l, hl, heq⟩ := text_opening h
    obtain ⟨l', hl', heq'⟩ := text_opening h'
    rw [outline, heq, outline, heq', hn]
    exact sameTags_text_startTag (angle_not_mem_spaces _) (by decide) hl hl' (.refl _)
  · obtain ⟨table, cell, link, htable, hcell, hlink, heq⟩ := button_opening hs h
    obtain ⟨table', cell', link', htable', hcell', hlink', heq'⟩ := button_opening hs' h'
    rw [outline, heq, outline, heq', hn]
    refine sameTags_text_startTag (angle_not_mem_spaces _) (by decide) htable htable' ?_
    refine sameTags_text_startTag (angle_not_mem_newline _) (by decide) .nil .nil ?_
    refine sameTags_text_startTag (angle_not_mem_newline _) (by decide) .nil .nil ?_
    refine sameTags_text_startTag (angle_not_mem_newline _) (by decide) hcell hcell' ?_
    exact sameTags_text_startTag (angle_not_mem_newline _) (by decide) hlink hlink' (.refl _)
  · obtain ⟨l, body, hl, hbody, heq⟩ := divider_opening hs h
    obtain ⟨l', body', hl', hbody', heq'⟩ := divider_opening hs' h'
    have hstop (rest : List Char) : readAngle ("</p>".toList ++ rest) = ([.stop "p" "</p>".toList], rest) := rfl
    rw [outline, heq, outline, heq']
    refine sameTags_text_startTag (angle_not_mem_spaces _) (by decide) hl hl' ?_
    refine .text (angle_not_mem_newline _) (by simp) (by simp) (.stop ⟨['/', 'p', '>'], by decide⟩ hstop ?_)
    exact .text (angle_not_mem_newline _) (by simp) (by simp) (.comment hbody hbody' (.refl ""))
  · obtain ⟨l, hl, heq⟩ := spacer_opening h
    obtain ⟨l', hl', heq'⟩ := spacer_opening h'
    rw [outline, heq, outline, heq']
    exact sameTags_text_startTag (angle_not_mem_spaces _) (by decide) hl hl' (.refl _)
  · obtain ⟨l, hl, heq⟩ := table_opening hs h
    obtain ⟨l', hl', heq'⟩ := table_opening hs' h'
    rw [outline, heq, outline, heq', hn]
    exact sameTags_startTag (by decide) hl hl' (.refl _)

/-- These components write nothing but their opening. -/
theorem renderNode_leaf {b : Builtin} (hb : b ∈ leaves) {ctx : Context} {tag : String}
    (htag : ctx.registry.lookup? tag = some (.builtin b)) (a : Attributes) (children : List Node) (s : Surroundings)
    (o : Outcome) : (renderNode ctx (.element tag a children) s).run o =
      .ok ((outline ctx b (.element tag a children) s).opening, o) := by
  have hrest : container? b = none ∧ (outline ctx b (.element tag a children) s).closing = "" ∧
      (outline ctx b (.element tag a children) s).effects = [] := by
    simp only [leaves, List.mem_cons, List.not_mem_nil, or_false] at hb
    rcases hb with rfl | rfl | rfl | rfl | rfl <;> exact ⟨rfl, rfl, rfl⟩
  obtain ⟨hkind, hclosing, heffects⟩ := hrest
  rw [renderNode_childless hkind htag, hclosing, heffects, String.append_empty, List.foldl_nil]

/-- The tags of the elements in what is rendered, if rendering succeeds. -/
def renderedTags (ctx : Context) (n : Node) (s : Surroundings) (o : Outcome) : Option (List String) :=
  match (renderNode ctx n s).run o with
  | .ok (html, _) => some (Document.parse html).tags
  | .error _ => none

theorem renderedTags_leaf {b : Builtin} (hb : b ∈ leaves) {ctx : Context} {tag : String}
    (htag : ctx.registry.lookup? tag = some (.builtin b)) (a : Attributes) (children : List Node) (s : Surroundings)
    (o : Outcome) : renderedTags ctx (.element tag a children) s o =
      some (Document.parse (outline ctx b (.element tag a children) s).opening).tags := by
  rw [renderedTags, renderNode_leaf hb htag]

/-- With escaping on, the tags of what is rendered do not depend on the values of attributes, if those that are written
into styles and comments do not end them. -/
theorem renderedTags_eq {b : Builtin} (hb : b ∈ leaves) {ctx ctx' : Context} (hs : ctx.sanitize = true)
    (hs' : ctx'.sanitize = true) {tag : String} (htag : ctx.registry.lookup? tag = some (.builtin b))
    (htag' : ctx'.registry.lookup? tag = some (.builtin b)) (a a' : Attributes) (children : List Node)
    (h : Confined b (ctx.cascade (.element tag a children) b)) (h' : Confined b (ctx'.cascade (.element tag a' children) b))
    (s s' : Surroundings) (o o' : Outcome) : ∃ tags,
      renderedTags ctx (.element tag a children) s o = some tags ∧
      renderedTags ctx' (.element tag a' children) s' o' = some tags := by
  have hn : (Node.element tag a' children).innerMarkup = (Node.element tag a children).innerMarkup := rfl
  refine ⟨_, renderedTags_leaf hb htag a children s o, ?_⟩
  rw [renderedTags_leaf hb htag', (sameTags_outline hb hs hs' hn h h' s s').tags_eq]

def contextWith (a : Attributes) : Context where
  head := { rules := Head.AttributeRules.addDefaults {} Head.everyTag a }
  registry := {}
  sanitize := true
  language := "und"
  direction := .auto

def buttonTo (address : String) : Node := .element "mj-button" (.ofList [("href", address), ("mj-class", "a")]) [.text "<i>Go"]

def hostileValues : Attributes := .ofList [("rel", "\"><script>"), ("target", "<b>"), ("border", "1px --> solid")]

theorem renderedTags_eq_button :
    Confined .button ((contextWith hostileValues).cascade (buttonTo "\"><b>") .button) ∧
    Confined .button ((contextWith .empty).cascade (buttonTo "#") .button) ∧ ∃ tags,
      renderedTags (contextWith hostileValues) (buttonTo "\"><b>") { width := 600 } {} = some tags ∧
      renderedTags (contextWith .empty) (buttonTo "#") { width := 300 } {} = some tags := by
  have h : Confined .button ((contextWith hostileValues).cascade (buttonTo "\"><b>") .button) := by decide +kernel
  have h' : Confined .button ((contextWith .empty).cascade (buttonTo "#") .button) := by decide +kernel
  exact ⟨h, h', renderedTags_eq (by decide) rfl rfl rfl rfl _ _ _ h h' _ _ _ _⟩

/-- A quote in the height of a spacer ends its style, and what follows is markup. -/
theorem renderedTags_spacer_quote :
    renderedTags (contextWith .empty) (.element "mj-spacer" (.ofList [("height", "20px")]) []) { width := 600 } {} =
      some ["div"] ∧
    renderedTags (contextWith .empty) (.element "mj-spacer" (.ofList [("height", "\"><b x=\"")]) []) { width := 600 } {} =
      some ["div", "b", "b"] := by
  have htag : (contextWith .empty).registry.lookup? "mj-spacer" = some (.builtin .spacer) := rfl
  rw [renderedTags_leaf (by decide) htag, renderedTags_leaf (by decide) htag]
  decide +kernel

end EmailMarkup.Render
