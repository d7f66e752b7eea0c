import EmailMarkup.Proofs.Style.RoundTrip
import EmailMarkup.Proofs.Style.Sheet
/-!
# Stylesheets written out

What cannot be inlined is written out again, a line for each rule and each block. Such a sheet is read as it was
(`Stylesheet.parse_printed`), if every declaration can be told from what stands around it: quotes and parentheses are closed,
there is no brace outside quotes and no comment, and no semicolon cuts the value (`parse_printed_cut`).
-/
namespace EmailMarkup.Style

open EmailMarkup.Text

namespace Declaration

variable {d : Declaration}

/-! ## Declarations -/

/-- The text of a declaration in a rule, without the semicolon behind it. -/
def ruleText (d : Declaration) : List Char :=
  d.property.toList ++ ':' :: (d.value.toList ++ if d.important then ' ' :: '!' :: importantMark else [])

theorem toList_shown (d : Declaration) : d.shown.toList = d.ruleText := by
  have hmark : " !important".toList = ' ' :: '!' :: importantMark := by decide
  cases hd : d.important <;> simp [shown, ruleText, hd, hmark]

theorem WellFormed.parse?_ruleText (h : d.WellFormed) : parse? d.ruleText = some d := by
  have hspace (s : List Char) : trimBoth isBlank (' ' :: s) = trimBoth isBlank s := rfl
  have htext := h.parse?_text
  rw [text, parse?, cut_char h.colon_not_mem] at htext
  rw [ruleText, parse?, cut_char h.colon_not_mem]
  simpa only [Option.bind_eq_bind, Option.bind_some, hspace] using htext

/-- A declaration with closed quotes and parentheses, and no braces outside quotes. -/
structure Balanced (d : Declaration) : Prop extends WellFormed d where
  property_plain : d.property.toList.any [';', '"', '\'', '(', ')', '{', '}'].contains = false
  value_closed : d.value.toList.foldl (Nesting.step parentheses) {} = {}
  no_opening_brace : cutOutside quotesOnly '{' {} d.value.toList = none
  no_closing_brace : cutOutside quotesOnly '}' {} d.value.toList = none
  value_no_comment : occurs commentOpen d.value.toList = false

/-- A declaration that can be told from what stands around it. -/
structure Printable (d : Declaration) : Prop extends Balanced d where
  no_semicolon : cutOutside parentheses ';' {} d.value.toList = none
  property_no_comment : occurs commentOpen d.property.toList = false

/-- A search passes a declaration if it passes the value. -/
theorem passes_ruleText {b : Brackets} {separator : Char} (hproperty : d.property.toList.any (b.isMark separator) = false)
    (hvalue : Passes b separator {} d.value.toList {})
    (hmark : (':' :: ' ' :: '!' :: importantMark).any (b.isMark separator) = false) :
    Passes b separator {} d.ruleText {} := by
  rw [List.any_cons, Bool.or_eq_false_iff] at hmark
  have hcolon : Passes b separator {} [':'] {} := .of_no_mark (by simpa using hmark.1)
  have hend : Passes b separator {} (if d.important then ' ' :: '!' :: importantMark else []) {} := by
    cases d.important
    · exact .nil
    · exact .of_no_mark hmark.2
  simpa [ruleText] using (Passes.of_no_mark hproperty).append (hcolon.append (hvalue.append hend))

theorem Balanced.no_mark (h : d.Balanced) {p : Char → Bool} (hp : ∀ c, p c = true → c ∈ [';', '"', '\'', '(', ')', '{', '}']) :
    d.property.toList.any p = false := by
  have hplain := h.property_plain
  rw [List.any_eq_false] at hplain ⊢
  exact fun c hc hpc => hplain c hc (List.contains_iff_mem.2 (hp c hpc))

/-- No brace of a declaration is seen. -/
theorem Balanced.passes_braces (h : d.Balanced) : Passes braces '}' {} d.ruleText {} := by
  have hopening : Passes quotesOnly '{' {} d.value.toList _ := ⟨h.no_opening_brace, rfl⟩
  have hclosed : (d.value.toList.foldl (Nesting.step quotesOnly) {}).quote = none := by
    rw [Nesting.quote_foldl_step quotesOnly parentheses rfl, h.value_closed]
  have hend : d.value.toList.foldl (Nesting.step quotesOnly) {} = {} := by
    rcases hopening.cases with heq | ⟨q, -, heq⟩
    · exact heq
    · rw [heq] at hclosed
      cases hclosed
  have hvalue : Passes braces '}' {} d.value.toList (d.value.toList.foldl (Nesting.step quotesOnly) {}) := by
    refine .of_quotesOnly rfl fun c hc => ?_
    have hbrace : c = '{' ∨ c = '}' := by simpa [braces] using hc
    rcases hbrace with rfl | rfl
    · exact h.no_opening_brace
    · exact h.no_closing_brace
  rw [hend] at hvalue
  refine passes_ruleText (h.no_mark fun c hc => ?_) hvalue (by decide)
  simp only [Brackets.isMark, braces] at hc
  grind

namespace Printable

/-- A declaration ends with its semicolon. -/
theorem passes_parentheses (h : d.Printable) : Passes parentheses ';' {} d.ruleText {} := by
  refine passes_ruleText (h.no_mark fun c hc => ?_) ⟨h.no_semicolon, h.value_closed⟩ (by decide)
  rcases isMark_iff.1 hc with rfl | rfl | rfl | rfl | rfl <;> simp

theorem no_comment (h : d.Printable) : occurs commentOpen d.ruleText = false := by
  have hmark : occurs commentOpen (d.value.toList ++ if d.important then ' ' :: '!' :: importantMark else []) = false := by
    cases d.important
    · simpa using h.value_no_comment
    · exact occurs_append_of_head? h.value_no_comment (by decide) rfl (by decide)
  refine occurs_append_of_head? h.property_no_comment ?_ rfl (by decide)
  rw [occurs_cons, hmark]
  rfl

end Printable

end Declaration

/-! ## Rules -/

/-- The body of a rule: its declarations, each with a blank before it and a semicolon behind it. -/
def ruleBody (l : List Declaration) : List Char := (l.flatMap fun d => ' ' :: (d.ruleText ++ [';'])) ++ [' ']

theorem ruleBody_cons (d : Declaration) (l : List Declaration) :
    ruleBody (d :: l) = ' ' :: d.ruleText ++ ';' :: ruleBody l := by
  simp [ruleBody]

theorem passes_ruleBody {l : List Declaration} (h : ∀ d ∈ l, d.Printable) : Passes braces '}' {} (ruleBody l) {} := by
  induction l with
  | nil => exact .of_no_mark (by decide)
  | cons d l ih =>
    obtain ⟨hd, hl⟩ := List.forall_mem_cons.1 h
    have hspace : Passes braces '}' {} [' '] {} := .of_no_mark (by decide)
    have hend : Passes braces '}' {} [';'] {} := .of_no_mark (by decide)
    rw [ruleBody_cons]
    simpa using hspace.append (hd.passes_braces.append (hend.append (ih hl)))

theorem parseDeclarations_ruleBody {l : List Declaration} (h : ∀ d ∈ l, d.Printable) : parseDeclarations (ruleBody l) = l := by
  induction l with
  | nil => rfl
  | cons d l ih =>
    obtain ⟨hd, hl⟩ := List.forall_mem_cons.1 h
    have hparse : Declaration.parse? (' ' :: d.ruleText) = some d := by
      rw [Declaration.parse?_space]
      exact hd.parse?_ruleText
    have hpasses : Passes parentheses ';' {} (' ' :: d.ruleText) {} := Passes.cons_iff.2 ⟨by decide, hd.passes_parentheses⟩
    rw [ruleBody_cons, parseDeclarations_cons hparse hpasses, ih hl]

theorem occurs_ruleBody {l : List Declaration} (h : ∀ d ∈ l, d.Printable) : occurs commentOpen (ruleBody l) = false := by
  induction l with
  | nil => decide
  | cons d l ih =>
    obtain ⟨hd, hl⟩ := List.forall_mem_cons.1 h
    have hfirst : occurs commentOpen (' ' :: d.ruleText) = false := by
      rw [occurs_cons, hd.no_comment]
      rfl
    have hrest : occurs commentOpen (';' :: ruleBody l) = false := by
      rw [occurs_cons, ih hl]
      rfl
    rw [ruleBody_cons]
    exact occurs_append_of_head? hfirst hrest rfl (by decide)

namespace Rule

/-- A rule that can be told from what stands around it. -/
structure Printable (r : Rule) : Prop where
  selector : IsSelectorText r.selector.toList
  declares : r.declarations ≠ []
  declarations : ∀ d ∈ r.declarations, d.Printable

theorem toList_shown {r : Rule} (h : r.declarations ≠ []) :
    r.shown.toList = r.selector.toList ++ ' ' :: '{' :: (ruleBody r.declarations ++ ['}']) := by
  have hbody := toList_intercalate_space (fun d : Declaration => d.shown ++ ";") h
  simp only [String.toList_append, Declaration.toList_shown] at hbody
  rw [ruleBody, ← show ";".toList = [';'] from rfl, ← hbody]
  simp [shown]

theorem Printable.readsAs {r : Rule} (h : r.Printable) : ReadsAs r.shown.toList ⟨[r], []⟩ := by
  have hparse := parseDeclarations_ruleBody h.declarations
  have hadd : ({} : Stylesheet).addRule r.selector.toList (ruleBody r.declarations) = ⟨[r], []⟩ := by
    rw [Stylesheet.addRule_of_ne_nil (by rw [hparse]; exact h.declares), hparse, String.ofList_toList]
  rw [toList_shown h.declares, ← hadd]
  exact ReadsAs.rule h.selector (passes_ruleBody h.declarations) (occurs_ruleBody h.declarations)

end Rule

/-! ## Sheets -/

namespace Stylesheet

def text (sheet : Stylesheet) : List Char :=
  (sheet.rules.map Rule.shown ++ sheet.blocks).flatMap fun line => line.toList ++ ['\n']

/-- A sheet of which every line can be read for itself. -/
structure Printable (sheet : Stylesheet) : Prop where
  rules : ∀ r ∈ sheet.rules, r.Printable
  blocks : ∀ line ∈ sheet.blocks, ∃ b : AtBlock, line = String.ofList b.text ∧ b.isKept = true ∧
    occurs commentOpen b.text = false

/-- Lines that are read one by one. -/
theorem readsAs_lines {α : Type} (line : α → String) (sheet : List α → Stylesheet) (hnil : sheet [] = {})
    (hcons : ∀ x l, sheet (x :: l) = sheet [x] ++ sheet l) {l : List α} (h : ∀ x ∈ l, ReadsAs (line x).toList (sheet [x])) :
    ReadsAs ((l.map line).flatMap fun text => text.toList ++ ['\n']) (sheet l) := by
  induction l with
  | nil =>
    rw [hnil]
    exact .nil
  | cons x l ih =>
    obtain ⟨hx, hl⟩ := List.forall_mem_cons.1 h
    have hline := hx.append .newline
    rw [append_empty] at hline
    rw [hcons]
    exact hline.append (ih hl)

/-- A sheet that is written out is read as it was. -/
theorem parse_printed {sheet : Stylesheet} (h : sheet.Printable) : Stylesheet.parse (String.ofList sheet.text) = sheet := by
  have hrules := readsAs_lines Rule.shown (⟨·, []⟩) rfl (fun _ _ => rfl) fun r hr => (h.rules r hr).readsAs
  have hblocks := readsAs_lines id (⟨[], ·⟩) rfl (fun _ _ => rfl) fun line hline => by
    obtain ⟨b, rfl, hkept, hcomment⟩ := h.blocks line hline
    rw [id, String.toList_ofList]
    exact b.readsAs hkept hcomment
  rw [List.map_id] at hblocks
  have htext : ReadsAs sheet.text ⟨sheet.rules ++ [], [] ++ sheet.blocks⟩ := by
    rw [text, List.flatMap_append]
    exact hrules.append hblocks
  rw [parse, String.toList_ofList, htext.ofChars_eq, List.append_nil, List.nil_append]

def hoverSheet : Stylesheet where
  rules := [⟨"a:hover", [⟨"content", "\";\x7d/\"", false⟩, ⟨"b", "url(c:d;e)", true⟩]⟩]
  blocks := ["@MEDIA x \x7bp\x7bq:\"\x7d\"\x7d\x7d"]

theorem parse_printed_hover :
    hoverSheet.Printable ∧ Stylesheet.parse (String.ofList hoverSheet.text) = hoverSheet := by
  have hcontent : Declaration.Printable ⟨"content", "\";\x7d/\"", false⟩ := by
    refine ⟨⟨⟨?_, ?_, ?_, ?_, ?_, ?_, ?_⟩, ?_, ?_, ?_, ?_, ?_⟩, ?_, ?_⟩
    all_goals decide +kernel
  have hurl : Declaration.Printable ⟨"b", "url(c:d;e)", true⟩ := by
    refine ⟨⟨⟨?_, ?_, ?_, ?_, ?_, ?_, ?_⟩, ?_, ?_, ?_, ?_, ?_⟩, ?_, ?_⟩
    all_goals decide +kernel
  have hselector : IsSelectorText "a:hover".toList := by
    refine ⟨?_, ?_, ?_, ?_, ?_⟩
    all_goals decide +kernel
  have hprintable : hoverSheet.Printable := by
    refine ⟨fun r hr => ?_, fun line hline => ?_⟩
    · obtain rfl := List.mem_singleton.1 hr
      exact ⟨hselector, by simp, by simp [hcontent, hurl]⟩
    · obtain rfl := List.mem_singleton.1 hline
      exact ⟨⟨"MEDIA x ".toList, "p\x7bq:\"\x7d\"\x7d".toList, by decide +kernel, ⟨by decide +kernel, by decide +kernel⟩⟩,
        by decide +kernel, by decide +kernel, by decide +kernel⟩
  exact ⟨hprintable, parse_printed hprintable⟩

/-- A value is cut at its semicolon, a property may look like a comment, an open quote hides the end of a block, and braces
that are quoted in its head are taken for its body. -/
theorem parse_printed_cut :
    (IsSelectorText "a".toList ∧ Declaration.Balanced ⟨"color", "red;b", false⟩ ∧
      Stylesheet.parse (String.ofList (text ⟨[⟨"a", [⟨"color", "red;b", false⟩]⟩], []⟩)) =
        ⟨[⟨"a", [⟨"color", "red", false⟩]⟩], []⟩) ∧
    (Declaration.Balanced ⟨"b/*c", "d", false⟩ ∧
      Stylesheet.parse (String.ofList (text ⟨[⟨"a", [⟨"b/*c", "d", false⟩]⟩], []⟩)) = {}) ∧
    Stylesheet.parse (String.ofList (text ⟨[], ["@media x \x7b'\x7d"]⟩)) = {} ∧
    Stylesheet.parse (String.ofList (text ⟨[], ["@media \"\x7b\x7d\" \x7b\x7d"]⟩)) = ⟨[], ["@media \"\x7b\x7d"]⟩ := by
  refine ⟨⟨⟨?_, ?_, ?_, ?_, ?_⟩, ⟨⟨?_, ?_, ?_, ?_, ?_, ?_, ?_⟩, ?_, ?_, ?_, ?_, ?_⟩, ?_⟩,
    ⟨⟨⟨?_, ?_, ?_, ?_, ?_, ?_, ?_⟩, ?_, ?_, ?_, ?_, ?_⟩, ?_⟩, ?_, ?_⟩
  all_goals decide +kernel

end Stylesheet

end EmailMarkup.Style
