import EmailMarkup.Proofs.Template.RoundTrip
/-!
# Content that comes out as it was written

The content of an ending tag may hold anything but its own end tag, the marks of verbatim text included
(`parse_content`). Protecting it writes verbatim sections, which break inside every end mark
(`wrapContent_eq`), so that no section holds an end mark of its own. Both the pass over named characters and
the reader then stop at the end marks that were added, and nowhere else.
-/
namespace EmailMarkup.Template

open EmailMarkup.Text

/-! ## Sections of verbatim text -/

/-- The first section of a content, and the others: an end mark is broken before its last character. -/
def sections : List Char → List Char × List (List Char)
  | ']' :: ']' :: '>' :: r => ([']', ']'], ('>' :: (sections r).1) :: (sections r).2)
  | c :: r => (c :: (sections r).1, (sections r).2)
  | [] => ([], [])

def sectionText (content : List Char) : List Char := cdataOpen ++ (content ++ cdataClose)

theorem flatten_sections (s : List Char) : (sections s).1 ++ (sections s).2.flatten = s := by
  fun_induction sections s with
  | case1 r ih => simpa using ih
  | case2 c r _ ih => simpa using ih
  | case3 => rfl

theorem occurs_close_cons_of_ne {c : Char} (h : c ≠ ']') (s : List Char) : occurs cdataClose (c :: s) = occurs cdataClose s := by
  rw [occurs_cons, startsWith, cdataClose, strip?_cons_of_ne (Ne.symm h)]
  rfl

/-- No section holds an end mark. -/
theorem occurs_sections (s : List Char) : ∀ t ∈ (sections s).1 :: (sections s).2, occurs cdataClose t = false := by
  fun_induction sections s with
  | case1 r ih =>
    obtain ⟨hfirst, hothers⟩ := List.forall_mem_cons.1 ih
    refine List.forall_mem_cons.2 ⟨rfl, List.forall_mem_cons.2 ⟨?_, hothers⟩⟩
    rw [occurs_close_cons_of_ne (by decide), hfirst]
  | case2 c r hmark ih =>
    obtain ⟨hfirst, hothers⟩ := List.forall_mem_cons.1 ih
    refine List.forall_mem_cons.2 ⟨?_, hothers⟩
    rw [occurs_cons, hfirst, Bool.or_false, startsWith, Option.isSome_eq_false_iff, Option.isNone_iff_eq_none,
      Option.eq_none_iff_forall_ne_some]
    -- an end mark at the front of the section would stand at the front of the text
    intro t ht
    obtain ⟨rfl, hrest⟩ := List.cons.inj (strip?_eq_some_iff.1 ht)
    have hr := flatten_sections r
    rw [hrest] at hr
    exact hmark _ rfl hr.symm
  | case3 => simp [occurs, cut, cutBy, cdataClose, strip?]

/-- Replacing the end marks writes the sections, but for the first opening mark. -/
theorem replaceAll_close (s : List Char) : replaceAll cdataClose cdataSplit s ++ cdataClose =
    (sections s).1 ++ (cdataClose ++ (sections s).2.flatMap sectionText) := by
  fun_induction sections s with
  | case1 r ih =>
    rw [show ']' :: ']' :: '>' :: r = cdataClose ++ r from rfl, replaceAll_append (by decide), List.append_assoc, ih]
    simp [cdataSplit, sectionText]
  | case2 c r hmark ih =>
    have hnone : strip? cdataClose (c :: r) = none := by
      rw [Option.eq_none_iff_forall_ne_some]
      intro t ht
      obtain ⟨rfl, hrest⟩ := List.cons.inj (strip?_eq_some_iff.1 ht)
      exact hmark t rfl hrest
    rw [replaceAll_cons (by simp [startsWith, hnone]), List.cons_append, ih, List.cons_append]
  | case3 => rfl

/-- Content that is not marked as verbatim becomes its sections. -/
theorem wrapContent_eq_sections {content : List Char} (hne : content ≠ [])
    (hopen : startsWith cdataOpen (trimBoth isBlank content) = false) :
    wrapContent content = ((sections content).1 :: (sections content).2).flatMap sectionText := by
  have hclose := replaceAll_close content
  rw [wrapContent, if_neg (by simp [hne, hopen]), List.append_assoc, hclose]
  simp [sectionText]

/-- Each section is read as a verbatim text of its own. -/
theorem reaches_sections {maxDepth : Nat} {outer : List Open} (rest : List Char) : ∀ (top : Open) (texts : List (List Char)),
    (∀ t ∈ texts, occurs cdataClose t = false) →
    Reaches maxDepth top outer (texts.flatMap sectionText ++ rest)
      (top.addAll (texts.map fun t => .cdata (String.ofList t))) outer rest
  | _, [], _ => .refl
  | top, t :: texts, h => by
    obtain ⟨ht, htexts⟩ := List.forall_mem_cons.1 h
    have hfirst : Reaches maxDepth top outer (strict (.cdata (String.ofList t)) ++ (texts.flatMap sectionText ++ rest)) _ outer _ :=
      reaches_cdata (by simpa using ht) _
    rw [strict, String.toList_ofList] at hfirst
    rw [List.flatMap_cons, List.append_assoc, List.map_cons, ← Open.add_addAll]
    exact hfirst.trans (reaches_sections rest _ texts htexts)

/-! ## Templates of one block -/

/-- Attributes with names of their own whose values can stand between double quotes as they are. -/
def arePlainAttributes (a : Attributes) : Bool :=
  decide (a.entries.map Prod.fst).Nodup &&
    a.entries.all fun e => isName e.1 &&
      e.2.toList.all fun c => !(['<', '>', '&', '"', '\t', '\n', '\r'].contains c)

/-- The attributes of a start tag as they are, each with the space before it. -/
def plainMarkup (a : Attributes) : String :=
  String.join (a.entries.map fun e => " " ++ e.1 ++ "=\"" ++ e.2 ++ "\"")

def blockSource (tag : String) (a : Attributes) (content : String) : String :=
  "<mjml><mj-body><" ++ tag ++ plainMarkup a ++ ">" ++ content ++ "</" ++ tag ++ "></mj-body></mjml>"

def plainStart (tag : String) (a : Attributes) : List Char := quotedStart (fun e => e.2.toList) tag a tagClose

theorem toList_plainMarkup (a : Attributes) :
    (plainMarkup a).toList = a.entries.flatMap fun e => quotedText e.1 e.2.toList := by
  rw [plainMarkup, String.toList_join, List.flatMap_map]
  refine congrArg (a.entries.flatMap ·) (funext fun e => ?_)
  simp [quotedText]

theorem toList_blockSource (tag : String) (a : Attributes) (content : String) : (blockSource tag a content).toList =
    startText rootTag .empty tagClose ++ ((startText bodyTag .empty tagClose ++
      ((plainStart tag a ++ (content.toList ++ endText tag)) ++ endText bodyTag)) ++ endText rootTag) := by
  have hfront : "<mjml><mj-body><".toList = startText rootTag .empty tagClose ++ (startText bodyTag .empty tagClose ++ ['<']) := by
    decide +kernel
  have hback : "></mj-body></mjml>".toList = tagClose ++ (endText bodyTag ++ endText rootTag) := by
    decide +kernel
  have hstart : plainStart tag a = '<' :: (tag.toList ++ ((plainMarkup a).toList ++ ">".toList)) := by
    rw [toList_plainMarkup]
    rfl
  have hend : endText tag = "</".toList ++ (tag.toList ++ tagClose) := rfl
  show ("<mjml><mj-body><" ++ tag ++ plainMarkup a ++ ">" ++ content ++ "</" ++ tag ++ "></mj-body></mjml>").toList = _
  simp only [String.toList_append, hfront, hback, hstart, hend, List.append_assoc, List.cons_append, List.nil_append]

theorem plainAttributes_iff {a : Attributes} : arePlainAttributes a = true ↔ (a.entries.map Prod.fst).Nodup ∧
    ∀ e ∈ a.entries, isName e.1 = true ∧
      ∀ c ∈ e.2.toList, c ∉ ['<', '>', '&', '"', '\t', '\n', '\r'] := by
  simp only [arePlainAttributes, Bool.and_eq_true, decide_eq_true_eq, List.all_eq_true, Bool.not_eq_true',
    List.contains_eq_mem, decide_eq_false_iff_not]

/-- Plain values stand for themselves. -/
theorem spells_plain {value : String} (h : ∀ c ∈ value.toList, c ∉ ['<', '>', '&', '"', '\t', '\n', '\r']) :
    Spells value.toList value where
  no_quote hm := h _ hm (by decide)
  no_angle hm := h _ hm (by decide)
  decodes := decode_plain fun hm => h _ hm (by decide)
  only_spaces c hc := by
    have hnot := h c hc
    simp only [List.mem_cons, not_or] at hnot
    exact ⟨hnot.2.2.2.2.1, hnot.2.2.2.2.2.1, hnot.2.2.2.2.2.2.1⟩

theorem isName_of_isEndingTag {tag : String} (h : isEndingTag tag = true) : isName tag = true :=
  endingTags_isName (by simpa [isEndingTag] using h)

/-- No mark of markup stands inside a plain start tag. -/
theorem mem_plainStart {tag : String} {a : Attributes} (ht : isName tag = true) (ha : arePlainAttributes a = true) {d : Char}
    (hd : d ∈ tag.toList ++ a.entries.flatMap fun e => quotedText e.1 e.2.toList) : d ≠ '<' ∧ d ≠ '>' ∧ d ≠ '&' := by
  rcases List.mem_append.1 hd with hd | hd
  · exact mem_name ht hd
  · obtain ⟨e, he, hd⟩ := List.mem_flatMap.1 hd
    obtain ⟨hn, hv⟩ := (plainAttributes_iff.1 ha).2 e he
    simp only [quotedText, List.mem_cons, List.mem_append, List.not_mem_nil, or_false] at hd
    rcases hd with rfl | hd | rfl | rfl | hd | rfl
    · decide
    · exact mem_name hn hd
    · decide
    · decide
    · have hnot := hv d hd
      simp only [List.mem_cons, not_or] at hnot
      exact ⟨hnot.1, hnot.2.1, hnot.2.2.1⟩
    · decide

theorem rootTag_isName : isName rootTag = true := by decide +kernel

theorem bodyTag_isName : isName bodyTag = true := by decide +kernel

/-- An element around a text that is wrapped piece by piece. -/
theorem wraps_element {tag : String} (ht : isName tag = true) (hn : isEndingTag tag = false) {text out : List Char}
    (h : Turns wrapStep text out) :
    Turns wrapStep (startText tag .empty tagClose ++ (text ++ endText tag))
      (startText tag .empty tagClose ++ (out ++ endText tag)) :=
  (wraps_startText ht rfl (.inr rfl) (endingBlock?_of_not_ending ht hn .empty (.inr rfl))).append (h.append (wraps_endText ht))

/-- An element around a text that stays. -/
theorem keeps_element {tag : String} (ht : isName tag = true) {text : List Char} (h : Turns outsideStep text text) :
    Turns outsideStep (startText tag .empty tagClose ++ (text ++ endText tag))
      (startText tag .empty tagClose ++ (text ++ endText tag)) :=
  (keeps_startText ht rfl (.inr rfl)).append (h.append (keeps_endText ht))

/-- An element around a text that is read as nodes. -/
theorem reaches_around {tag : String} (ht : isName tag = true) {maxDepth : Nat} {top : Open} {outer : List Open}
    (hd : outer.length + 1 ≤ maxDepth) {text rest : List Char} {children : List Node}
    (h : Reaches maxDepth ⟨tag, .empty, []⟩ (top :: outer) (text ++ (endText tag ++ rest))
      (Open.addAll ⟨tag, .empty, []⟩ children) (top :: outer) (endText tag ++ rest)) :
    Reaches maxDepth top outer (startText tag .empty tagClose ++ (text ++ endText tag) ++ rest)
      (top.add (.element tag .empty children)) outer rest :=
  reaches_element ht hd (List.cons_ne_nil _ _) (readToken_startText ht rfl (.inr rfl)) h

section

variable {tag : String} {a : Attributes} {content : String}

/-- The children of an ending tag with this content: a verbatim text for each section. -/
def contentNodes (content : String) : List Node :=
  ((sections content.toList).1 :: (sections content.toList).2).map fun t => .cdata (String.ofList t)

theorem markupAll_cdata (texts : List (List Char)) :
    Node.markupAll (texts.map fun t => .cdata (String.ofList t)) = String.ofList texts.flatten := by
  induction texts with
  | nil => rfl
  | cons t texts ih =>
    rw [List.map_cons, Node.markupAll, Node.markup, ih, List.flatten_cons, String.ofList_append]

theorem innerMarkup_contentNodes (tag : String) (a : Attributes) (content : String) :
    (Node.element tag a (contentNodes content)).innerMarkup = content := by
  rw [Node.innerMarkup, Node.children, contentNodes, markupAll_cdata, List.flatten_cons, flatten_sections, String.ofList_toList]

def protectedBlock (tag : String) (a : Attributes) (content : String) : List Char :=
  startText rootTag .empty tagClose ++ ((startText bodyTag .empty tagClose ++
    ((plainStart tag a ++
      (((sections content.toList).1 :: (sections content.toList).2).flatMap sectionText ++ endText tag)) ++
        endText bodyTag)) ++ endText rootTag)

/-- Protecting the template of a block writes its content in sections, and changes nothing else. -/
theorem protect_blockSource (ht : isEndingTag tag = true) (ha : arePlainAttributes a = true) (hne : content.toList ≠ [])
    (hend : textBefore? (closesTag tag) content.toList = none)
    (hopen : startsWith cdataOpen (trimBoth isBlank content.toList) = false) :
    protect (blockSource tag a content).toList = protectedBlock tag a content := by
  have hname := isName_of_isEndingTag ht
  have hblock (rest : List Char) : endingBlock? (plainStart tag a ++ rest) =
      (textBefore? (closesTag tag) rest).map fun content => ⟨plainStart tag a, content⟩ :=
    endingBlock?_quotedStart hname ht (fun hm => (mem_plainStart hname ha hm).2.1 rfl) rest
  have hwraps : Turns wrapStep (plainStart tag a ++ (content.toList ++ endText tag)) _ :=
    wraps_content hname (List.cons_ne_nil _ _) hblock hend
  rw [wrapContent_eq_sections hne hopen] at hwraps
  have hstart : Turns outsideStep (plainStart tag a) (plainStart tag a) := by
    refine .cons (outsideStep_of_name hname _) (keeps_plain ?_ ?_)
    · rw [← List.append_assoc]
      exact fun hm => (List.mem_append.1 hm).elim (fun hm => (mem_plainStart hname ha hm).1 rfl) (by simp [tagClose])
    · rw [← List.append_assoc]
      exact fun hm => (List.mem_append.1 hm).elim (fun hm => (mem_plainStart hname ha hm).2.2 rfl) (by simp [tagClose])
  have hsections := keeps_flatMap fun t hm => keeps_cdata (occurs_sections content.toList t hm)
  have hkeeps := hstart.append (hsections.append (keeps_endText hname))
  rw [protect, wrapEnding_eq, toList_blockSource,
    (wraps_element rootTag_isName rfl (wraps_element bodyTag_isName rfl hwraps)).substitute_eq, replaceOutside_eq]
  exact (keeps_element rootTag_isName (keeps_element bodyTag_isName hkeeps)).substitute_eq

/-- The protected template of a block is read as the block. -/
theorem readDocument_protectedBlock (ht : isEndingTag tag = true) (ha : arePlainAttributes a = true) (content : String)
    {maxDepth : Nat} (hd : 2 ≤ maxDepth) : readDocument maxDepth (protectedBlock tag a content) =
      .ok (.element rootTag .empty [.element bodyTag .empty [.element tag a (contentNodes content)]]) := by
  have hname := isName_of_isEndingTag ht
  obtain ⟨hnames, hvalues⟩ := plainAttributes_iff.1 ha
  have hspells : ∀ e ∈ a.entries, isName e.1 = true ∧ Spells e.2.toList e.2 :=
    fun e hm => ⟨(hvalues e hm).1, spells_plain (hvalues e hm).2⟩
  have hblock (top : Open) (outer : List Open) (rest : List Char) (hlevel : outer.length + 1 ≤ maxDepth) :
      Reaches maxDepth top outer (plainStart tag a ++ (_ ++ endText tag) ++ rest)
        (top.add (.element tag a (contentNodes content))) outer rest :=
    reaches_element hname hlevel (List.cons_ne_nil _ _) (readToken_quotedStart hname hnames hspells (.inr rfl))
      (reaches_sections _ _ _ (occurs_sections content.toList))
  have hbody : Reaches maxDepth ⟨rootTag, .empty, []⟩ [] (startText bodyTag .empty tagClose ++ (_ ++ endText bodyTag) ++ endText rootTag)
      (Open.add ⟨rootTag, .empty, []⟩ (.element bodyTag .empty [.element tag a (contentNodes content)])) [] (endText rootTag) :=
    reaches_around bodyTag_isName (by simp; omega) (hblock ⟨bodyTag, .empty, []⟩ [⟨rootTag, .empty, []⟩] _ (by simpa using hd))
  obtain ⟨fuel, hf, heq⟩ := hbody _ (Nat.le_refl _)
  have hempty : areWritableAttributes .empty = true := rfl
  refine readDocument_of_root (opensElement_quotedStart rootTag_isName _ .empty _ _)
    (readStartTag_quotedStart rootTag_isName (attributes_iff.1 hempty).1 (spells_attributes hempty) (.inr rfl) _) ?_
  exact heq.trans (readContent_endText maxDepth (Open.add ⟨rootTag, .empty, []⟩ _) rootTag_isName hf)

end

/-- The content of an ending tag comes out as it was written: unless it is empty, holds the end tag or is marked
as verbatim already, the element has its attributes, verbatim texts and nothing else as children, and the
markup of these is the content. -/
theorem parse_content {tag : String} (ht : isEndingTag tag = true) {a : Attributes} (ha : arePlainAttributes a = true)
    {content : String} (hne : content ≠ "")
    (hend : ∀ before blanks after : List Char, (∀ c ∈ blanks, isAsciiBlank c = true) →
      content.toList ≠ before ++ (endTagOpen ++ tag.toList ++ blanks ++ ['>'] ++ after))
    (hopen : startsWith cdataOpen (trimBoth isBlank content.toList) = false) {maxDepth : Nat} (hd : 2 ≤ maxDepth) :
    ∃ children, parse maxDepth (blockSource tag a content) =
        .ok ⟨.empty, [.element bodyTag .empty [.element tag a children]]⟩ ∧
      (∀ n ∈ children, ∃ text, n = .cdata text) ∧ (Node.element tag a children).innerMarkup = content := by
  have hchars : content.toList ≠ [] := by simpa using hne
  have hprotect := protect_blockSource ht ha hchars (textBefore?_eq_none_iff.2 hend) hopen
  have hread := readDocument_protectedBlock ht ha content hd
  refine ⟨contentNodes content, ?_, ?_, ?_⟩
  · have hblank : (blockSource tag a content).toList.all isBlank = false := by
      rw [toList_blockSource]
      rfl
    rw [parse, ofChars, hblank, if_neg Bool.false_ne_true, hprotect, ofProtected, hread]
    rfl
  · intro n hn
    obtain ⟨t, -, rfl⟩ := List.mem_map.1 hn
    exact ⟨_, rfl⟩
  · exact innerMarkup_contentNodes tag a content

/-- Content with end marks that overlap, a mark that opens verbatim text, other end tags, names of characters and a
bracket at its end. -/
def bracketContent : String := "a]]]> ]]>]]> <![CDATA[ </mj-text-x> </mj-raw> & &nbsp; <b>]"

theorem parse_content_brackets :
    ∃ children, parse defaultMaxDepth (blockSource "mj-text" ⟨[("align", "left"), ("title", "it's /")]⟩ bracketContent) =
        .ok ⟨.empty, [.element bodyTag .empty [.element "mj-text" ⟨[("align", "left"), ("title", "it's /")]⟩ children]]⟩ ∧
      (∀ n ∈ children, ∃ text, n = .cdata text) ∧
      (Node.element "mj-text" ⟨[("align", "left"), ("title", "it's /")]⟩ children).innerMarkup = bracketContent := by
  have hend : textBefore? (closesTag "mj-text") bracketContent.toList = none := by decide +kernel
  exact parse_content (by decide +kernel) (by decide +kernel) (by decide +kernel) (textBefore?_eq_none_iff.1 hend)
    (by decide +kernel) (by decide)

end EmailMarkup.Template
