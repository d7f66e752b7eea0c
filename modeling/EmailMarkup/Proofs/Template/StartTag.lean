import EmailMarkup.Proofs.Template.Wrapper
/-!
# Where the start tag of a block ends

The start tag of an ending tag is looked for twice. Protecting the content takes it to reach to the first `>`; the
reader takes a `>` between quotes for a part of the value. Where the value of an attribute holds a `>`, the two
disagree (`endsInside`), and the mark of verbatim text is put between the quotes, where the reader refuses it. Only if a
slash stands before the first `>` of the value, the tag looks like one that ends its element too and is left alone
(`parse_block_value`).
-/
namespace EmailMarkup.Template

open EmailMarkup.Text

theorem bind_of_ok {ε α β : Type} {x : Except ε α} {a : α} (h : x = .ok a) {f : α → Except ε β} : x >>= f = f a := by
  rw [h]
  rfl

theorem bind_of_error {ε α β : Type} {x : Except ε α} {e : ε} (h : x = .error e) {f : α → Except ε β} :
    x >>= f = .error e := by
  rw [h]
  rfl

/-! ## Values -/

/-- Whether the start tag of a block seems to end inside an attribute value. -/
def endsInside (value : List Char) : Bool :=
  match cut tagClose value with
  | some (before, _) => !endsWith ['/'] before
  | none => false

/-- A value that can stand between double quotes as it is. -/
def isQuotable (value : List Char) : Bool := value.all fun c => c ∉ ['<', '&', '"', '\t', '\n', '\r']

theorem not_mem_of_isQuotable {value : List Char} (h : isQuotable value = true) {c : Char}
    (hc : c ∈ ['<', '&', '"', '\t', '\n', '\r']) : c ∉ value := fun hm =>
  of_decide_eq_true (List.all_eq_true.1 h c hm) hc

theorem not_mem_of_isQuotable_append {before after : List Char} (h : isQuotable (before ++ '>' :: after) = true)
    {c : Char} (hc : c ∈ ['<', '&', '"', '\t', '\n', '\r']) : c ∉ before ∧ c ∉ after := by
  have hnot := not_mem_of_isQuotable h hc
  rw [List.mem_append, List.mem_cons, not_or, not_or] at hnot
  exact ⟨hnot.1, hnot.2.2⟩

theorem spells_of_isQuotable {value : String} (h : isQuotable value.toList = true) : Spells value.toList value where
  no_quote := not_mem_of_isQuotable h (by decide)
  no_angle := not_mem_of_isQuotable h (by decide)
  decodes := decode_plain (not_mem_of_isQuotable h (by decide))
  only_spaces c hc := by
    refine ⟨?_, ?_, ?_⟩
    all_goals
      rintro rfl
      exact not_mem_of_isQuotable h (by decide) hc

/-- A start tag behind its `<`, up to the value of its attribute. -/
def valueFront (tag name : String) : List Char := tag.toList ++ ' ' :: (name.toList ++ ['=', '"'])

section

variable {tag name value : String} {before : List Char}

theorem mem_valueFront (ht : isName tag = true) (hn : isName name = true) {d : Char} (hd : d ∈ valueFront tag name) :
    d ≠ '<' ∧ d ≠ '>' ∧ d ≠ '&' := by
  simp only [valueFront, List.mem_append, List.mem_cons, List.not_mem_nil, or_false] at hd
  rcases hd with hd | rfl | hd | rfl | rfl
  · exact mem_name ht hd
  · decide
  · exact mem_name hn hd
  · decide
  · decide

theorem plainStart_eq (tag name value : String) :
    plainStart tag ⟨[(name, value)]⟩ = '<' :: (valueFront tag name ++ (value.toList ++ ['"', '>'])) := by
  simp [plainStart, quotedStart, quotedText, valueFront, tagClose]

/-! ## Both searches -/

/-- The block at a start tag is decided by what stands before its first `>`. -/
theorem endingBlock?_value (ht : isEndingTag tag = true) (hn : isName name = true) (hb : '>' ∉ before)
    (rest : List Char) : endingBlock? ('<' :: (valueFront tag name ++ (before ++ '>' :: rest))) =
      if endsWith ['/'] before then none
      else (textBefore? (closesTag tag) rest).map fun content =>
        ⟨'<' :: (valueFront tag name ++ (before ++ tagClose)), content⟩ := by
  have hname := isName_of_isEndingTag ht
  have hfind := find?_endingTags hname (by decide : (' ' == '>' || isAsciiBlank ' ') = true)
    (name.toList ++ '=' :: '"' :: (before ++ '>' :: rest))
  have hsplit : tag.toList ++ ' ' :: (name.toList ++ '=' :: '"' :: (before ++ '>' :: rest)) =
      valueFront tag name ++ (before ++ '>' :: rest) := by simp [valueFront]
  rw [ht, if_pos rfl, hsplit] at hfind
  have hmem : '>' ∉ valueFront tag name ++ before := by
    rw [List.mem_append, not_or]
    exact ⟨fun hm => (mem_valueFront hname hn hm).2.1 rfl, hb⟩
  have hcut : cut tagClose (valueFront tag name ++ (before ++ '>' :: rest)) =
      some (valueFront tag name ++ before, rest) := by
    simpa [tagClose] using cut_char hmem rest
  have hends : endsWith ['/'] (valueFront tag name ++ before) = endsWith ['/'] before := by
    rcases List.eq_nil_or_concat before with rfl | ⟨s, c, rfl⟩
    · have hquote := endsWith_concat '/' '"' (tag.toList ++ ' ' :: (name.toList ++ ['=']))
      rw [show endsWith ['/'] [] = false from rfl]
      simpa [valueFront] using hquote
    · rw [List.concat_eq_append, ← List.append_assoc, endsWith_concat, endsWith_concat]
  rw [endingBlock?_of_ending hfind hcut, hends]
  simp

/-- A mark of verbatim text before the end of a value is refused. -/
theorem readValue_angle (hquote : '"' ∉ before) (hangle : '<' ∉ before) {text : List Char} (hend : '"' ∈ text) :
    readValue ('"' :: (before ++ '<' :: text)) = .error (.malformed .angleInValue ('<' :: text)) := by
  obtain ⟨inside, rest, rfl, hinside⟩ := List.eq_append_cons_of_mem hend
  have hmem : '"' ∉ before ++ '<' :: inside := by
    simp only [List.mem_append, List.mem_cons, not_or]
    exact ⟨hquote, by decide, hinside⟩
  have hcut : cut ['"'] (before ++ '<' :: (inside ++ '"' :: rest)) = some (before ++ '<' :: inside, rest) := by
    simpa using cut_char hmem rest
  have hvalue : attributeValue (before ++ '<' :: inside) (before ++ '<' :: (inside ++ '"' :: rest)) =
      .error (.malformed .angleInValue ('<' :: (inside ++ '"' :: rest))) := by
    rw [attributeValue, cut_char hangle]
    simp
  rw [readValue, if_pos (by decide)]
  exact (bind_of_ok (readUntil_eq_ok.2 hcut)).trans (bind_of_error hvalue)

/-- A value that cannot be read stops the reading of the start tag. -/
theorem readStartTag_value (ht : isName tag = true) (hn : isName name = true) {text : List Char} {stop : Stop}
    (h : readValue ('"' :: text) = .error stop) : readStartTag ('<' :: (valueFront tag name ++ text)) = .error stop := by
  obtain ⟨c, r, hc, hstart, -⟩ := isName_iff.1 hn
  have hattribute : readAttribute (name.toList ++ '=' :: '"' :: text) = .error stop := by
    refine (bind_of_ok (readName_append hn (by decide) _)).trans ?_
    refine (bind_of_ok (readChar_eq_ok.2 (skipBlank_of_not_blank (by decide) _))).trans ?_
    refine bind_of_error ?_
    rw [skipBlank_of_not_blank (by decide), h]
  have hskip : skipBlank (' ' :: (name.toList ++ '=' :: '"' :: text)) = name.toList ++ '=' :: '"' :: text := by
    have hblank : ∀ d ∈ [' '], isMarkupBlank d = true := fun d hd => by
      rw [List.mem_singleton.1 hd]
      decide
    rw [hc]
    exact skipBlank_append hblank (isMarkupBlank_of_isNameStart hstart) _
  have hattributes (fuel : Nat) : readAttributes tag (fuel + 1) .empty (' ' :: (name.toList ++ '=' :: '"' :: text)) =
      .error stop := by
    rw [readAttributes, hskip]
    split
    · rename_i heq
      obtain rfl : c = '/' := by simpa [hc] using congrArg List.head? heq
      exact absurd hstart (by decide)
    · rename_i heq
      obtain rfl : c = '>' := by simpa [hc] using congrArg List.head? heq
      exact absurd hstart (by decide)
    · rw [if_neg (by simp [hc])]
      exact bind_of_error hattribute
  have hsplit : valueFront tag name ++ text = tag.toList ++ ' ' :: (name.toList ++ '=' :: '"' :: text) := by
    simp [valueFront]
  rw [hsplit]
  refine (bind_of_ok (readChar_cons '<' _)).trans ?_
  exact (bind_of_ok (readName_append ht (by decide) _)).trans (hattributes _)

end

/-! ## Bodies that cannot be read -/

section

variable {maxDepth : Nat} {text : List Char}

/-- A start tag that cannot be read stops the reading of the content. -/
theorem readContent_of_startTag {s : List Char} {stop : Stop} {fuel : Nat} {top : Open} {outer : List Open}
    (hopen : opensElement s = true) (hd : outer.length + 1 ≤ maxDepth) (h : readStartTag s = .error stop) :
    readContent maxDepth (fuel + 1) top outer s = .error stop := by
  obtain ⟨r, rfl⟩ := eq_cons_of_opensElement hopen
  have hread : readToken ('<' :: r) = .error stop := by
    have hhead : ('<' :: r).head? = some '<' := rfl
    simp only [readToken, if_pos hhead, readMarkup, endTagOpen, commentOpen, cdataOpen, startsWith, instructionOpen,
      declarationOpen, strip?_of_opensElement hopen (.inl rfl), strip?_of_opensElement hopen (.inr (.inl rfl)),
      strip?_of_opensElement hopen (.inr (.inr rfl)), Option.isSome_none, Bool.false_eq_true, if_false]
    exact bind_of_error h
  rw [readContent, not_tooDeep fun _ => hd, hread]
  · rfl
  · exact List.cons_ne_nil _ _

/-- A body that begins with a start tag that cannot be read. -/
theorem readDocument_wrapIn_error {stop : Stop} (hd : 2 ≤ maxDepth) (hopen : ∀ rest, opensElement (text ++ rest) = true)
    (h : readStartTag (text ++ fence bodyTag) = .error stop) :
    readDocument maxDepth (wrapIn bodyTag text) = .error stop := by
  have hbody : Reaches maxDepth ⟨rootTag, .empty, []⟩ [] (startText bodyTag .empty tagClose ++ (text ++ fence bodyTag))
      ⟨bodyTag, .empty, []⟩ [⟨rootTag, .empty, []⟩] (text ++ fence bodyTag) :=
    .start_open (readToken_startText bodyTag_isName rfl (.inr rfl) _) rfl (by simp; omega) (by simp [startText]; omega)
  obtain ⟨fuel, hf, heq⟩ := hbody _ (Nat.le_refl _)
  obtain ⟨fuel, rfl⟩ : ∃ k, fuel = k + 1 := by
    obtain ⟨r, hr⟩ := eq_cons_of_opensElement (hopen (fence bodyTag))
    rw [hr, List.length_cons] at hf
    exact ⟨fuel - 1, by omega⟩
  refine readDocument_of_content_error (opensRoot_wrapIn bodyTag text) ?_
  exact heq.trans (readContent_of_startTag (hopen _) (by simpa using hd) h)

/-- What cannot be read is reported where the reader stopped. -/
theorem parse_error {source : String} {front rest : List Char} {what : Malformed}
    (hblank : source.toList.all isBlank = false) (hprotect : protect source.toList = front ++ rest)
    (h : readDocument maxDepth (front ++ rest) = .error (.malformed what rest)) :
    parse maxDepth source = .error (.malformed what (.after front)) := by
  rw [parse, ofChars, hblank, if_neg Bool.false_ne_true, ofProtected, hprotect, h]
  simp [Stop.fault]

end

/-! ## Text without tags -/

theorem textBefore?_plain {s : List Char} (h : '<' ∉ s) (tag : String) : textBefore? (closesTag tag) s = none := by
  refine textBefore?_eq_none_iff.2 fun before blanks after _ hs => h ?_
  simp [hs, endTagOpen]

theorem startsWith_cdataOpen_plain {s : List Char} (h : '<' ∉ s) : startsWith cdataOpen (trimBoth isBlank s) = false := by
  rw [Bool.eq_false_iff]
  intro hstart
  obtain ⟨r, hr⟩ := Option.isSome_iff_exists.1 hstart
  have hmem : '<' ∈ trimBoth isBlank s := by simp [strip?_eq_some_iff.1 hr, cdataOpen]
  rw [trimBoth, trimEnd, List.mem_reverse] at hmem
  exact h ((List.dropWhile_suffix _).mem (List.mem_reverse.1 ((List.dropWhile_suffix _).mem hmem)))

/-- A text without an end mark is one section. -/
theorem sections_of_not_occurs {s : List Char} (h : occurs cdataClose s = false) : sections s = (s, []) := by
  fun_induction sections s with
  | case1 r ih =>
    rw [show ']' :: ']' :: '>' :: r = cdataClose ++ r from rfl] at h
    have hnone := strip?_eq_none_of_occurs h (List.suffix_refl _)
    rw [strip?_append] at hnone
    cases hnone
  | case2 c r _ ih =>
    rw [occurs_cons, Bool.or_eq_false_iff] at h
    rw [ih h.2]
  | case3 => rfl

/-- Every character of a content stands in one of its sections. -/
theorem mem_sections {s : List Char} {c : Char} (h : c ∈ s) :
    c ∈ (sections s).1 ++ (cdataClose ++ (sections s).2.flatMap sectionText) := by
  rw [← flatten_sections s, List.mem_append, List.mem_flatten] at h
  rw [List.mem_append, List.mem_append, List.mem_flatMap]
  rcases h with h | ⟨t, ht, hc⟩
  · exact .inl h
  · exact .inr (.inr ⟨t, ht, by simp [sectionText, hc]⟩)

/-! ## Blocks with one attribute -/

section

variable {tag name value content : String} {before after : List Char} {maxDepth : Nat}

theorem toList_blockSource_eq (tag : String) (a : Attributes) (content : String) :
    (blockSource tag a content).toList = wrapIn bodyTag (plainStart tag a ++ (content.toList ++ endText tag)) := by
  rw [toList_blockSource, wrapIn, fence, List.append_assoc, List.append_assoc (_ ++ _)]

/-- A block is protected as if it stood alone. -/
theorem protect_blockSource_of_turns {a : Attributes} {text out : List Char}
    (hsource : plainStart tag a ++ (content.toList ++ endText tag) = text) (hw : Turns wrapStep text out)
    (hk : Turns outsideStep out out) : protect (blockSource tag a content).toList = wrapIn bodyTag out := by
  rw [toList_blockSource_eq, hsource, protect_wrapIn isWrapper_body, protect, wrapEnding_eq, hw.substitute_eq,
    replaceOutside_eq, hk.substitute_eq]

theorem blockSource_not_blank (tag : String) (a : Attributes) (content : String) :
    (blockSource tag a content).toList.all isBlank = false := by
  rw [toList_blockSource_eq]
  rfl

/-- A start tag with text behind it stays where nothing is wrapped. -/
theorem keeps_value (ht : isName tag = true) (hn : isName name = true) {text : List Char} (hlt : '<' ∉ text)
    (hamp : '&' ∉ text) :
    Turns outsideStep ('<' :: (valueFront tag name ++ text)) ('<' :: (valueFront tag name ++ text)) := by
  refine .cons (fun rest => ?_) (keeps_plain ?_ ?_)
  · have hstep := outsideStep_of_name ht (' ' :: (name.toList ++ '=' :: '"' :: text)) rest
    simpa [valueFront] using hstep
  · rw [List.mem_append, not_or]
    exact ⟨fun hm => (mem_valueFront ht hn hm).1 rfl, hlt⟩
  · rw [List.mem_append, not_or]
    exact ⟨fun hm => (mem_valueFront ht hn hm).2.2 rfl, hamp⟩

/-- A value without `>` leaves the content to be protected. -/
theorem parse_block_plain (ht : isEndingTag tag = true) (hn : isName name = true) (hv : isQuotable value.toList = true)
    (hgt : '>' ∉ value.toList) (hc : isWritableText content.toList = true) (hd : 2 ≤ maxDepth) :
    parse maxDepth (blockSource tag ⟨[(name, value)]⟩ content) =
      .ok ⟨.empty, [.element bodyTag .empty [.element tag ⟨[(name, value)]⟩ [.cdata content]]]⟩ := by
  obtain ⟨hblank, hlt, -, hmark⟩ := isWritableText_iff.1 hc
  have hne : content.toList ≠ [] := by
    intro hnil
    simp [hnil] at hblank
  have ha : arePlainAttributes ⟨[(name, value)]⟩ = true := by
    refine plainAttributes_iff.2 ⟨by simp, fun e he => ?_⟩
    obtain rfl := List.mem_singleton.1 he
    refine ⟨hn, fun c hm hmem => ?_⟩
    by_cases hc : c = '>'
    · exact hgt (hc ▸ hm)
    · exact not_mem_of_isQuotable hv (by simpa [hc] using hmem) hm
  have hnodes : contentNodes content = [.cdata content] := by
    rw [contentNodes, sections_of_not_occurs hmark]
    simp
  refine parse_eq_ok_iff.2 ⟨blockSource_not_blank _ _ _, ?_⟩
  rw [protect_blockSource ht ha hne (textBefore?_plain hlt tag) (startsWith_cdataOpen_plain hlt),
    readDocument_protectedBlock ht ha content hd, hnodes]
  rfl

/-- Behind a slash, `>` makes the start tag look like one that ends its element: the content is read as it stands. -/
theorem parse_block_slash (ht : isEndingTag tag = true) (hn : isName name = true) (hv : isQuotable value.toList = true)
    (hvalue : value.toList = before ++ '>' :: after) (hb : '>' ∉ before) (hslash : endsWith ['/'] before = true)
    (hc : isWritableText content.toList = true) (hd : 2 ≤ maxDepth) :
    parse maxDepth (blockSource tag ⟨[(name, value)]⟩ content) =
      .ok ⟨.empty, [.element bodyTag .empty [.element tag ⟨[(name, value)]⟩ [.text content]]]⟩ := by
  have hname := isName_of_isEndingTag ht
  obtain ⟨-, hlt, hamp, -⟩ := isWritableText_iff.1 hc
  let text := value.toList ++ '"' :: '>' :: content.toList
  have hlt' : '<' ∉ text := by
    simp only [text, List.mem_append, List.mem_cons, not_or]
    exact ⟨not_mem_of_isQuotable hv (by decide), by decide, by decide, hlt⟩
  have hamp' : '&' ∉ text := by
    simp only [text, List.mem_append, List.mem_cons, not_or]
    exact ⟨not_mem_of_isQuotable hv (by decide), by decide, by decide, hamp⟩
  have hsource : plainStart tag ⟨[(name, value)]⟩ ++ (content.toList ++ endText tag) =
      '<' :: (valueFront tag name ++ text) ++ endText tag := by
    simp [plainStart_eq, text]
  have hwraps : Turns wrapStep ('<' :: (valueFront tag name ++ text)) ('<' :: (valueFront tag name ++ text)) := by
    refine .cons (fun rest => ?_) (wraps_plain ?_)
    · have hblock := endingBlock?_value ht hn hb (after ++ '"' :: '>' :: (content.toList ++ rest))
      rw [if_pos hslash] at hblock
      have hsplit : valueFront tag name ++ text ++ rest =
          valueFront tag name ++ (before ++ '>' :: (after ++ '"' :: '>' :: (content.toList ++ rest))) := by
        simp [text, hvalue]
      rw [hsplit, wrapStep, hblock]
      rfl
    · rw [List.mem_append, not_or]
      exact ⟨fun hm => (mem_valueFront hname hn hm).1 rfl, hlt'⟩
  have hspells : ∀ e ∈ [(name, value)], isName e.1 = true ∧ Spells e.2.toList e.2 := by
    intro e he
    obtain rfl := List.mem_singleton.1 he
    exact ⟨hn, spells_of_isQuotable hv⟩
  refine parse_eq_ok_iff.2 ⟨blockSource_not_blank _ _ _, ?_⟩
  rw [protect_blockSource_of_turns hsource (hwraps.append (wraps_endText hname))
    ((keeps_value hname hn hlt' hamp').append (keeps_endText hname)), ← hsource]
  refine readDocument_wrapIn bodyTag_isName (by omega) ?_
  exact reaches_element hname (by simpa using hd) (List.cons_ne_nil _ _)
    (readToken_quotedStart hname (by simp) hspells (.inr rfl)) (reaches_text hc rfl)

/-- The start tag that is seen if it seems to end inside the value, and the content behind it. -/
theorem protect_block_broken (ht : isEndingTag tag = true) (hn : isName name = true) (hv : isQuotable value.toList = true)
    (hvalue : value.toList = before ++ '>' :: after) (hb : '>' ∉ before) (hslash : endsWith ['/'] before = false)
    (hlt : '<' ∉ content.toList) : ∃ text, '"' ∈ text ∧ protect (blockSource tag ⟨[(name, value)]⟩ content).toList =
      wrapIn bodyTag ('<' :: (valueFront tag name ++ (before ++ '>' :: '<' :: text))) := by
  have hname := isName_of_isEndingTag ht
  rw [hvalue] at hv
  let opening := '<' :: (valueFront tag name ++ (before ++ tagClose))
  let inner := after ++ '"' :: '>' :: content.toList
  have hplain : '<' ∉ inner := by
    simp only [inner, List.mem_append, List.mem_cons, not_or]
    exact ⟨(not_mem_of_isQuotable_append hv (by decide)).2, by decide, by decide, hlt⟩
  have hsource : plainStart tag ⟨[(name, value)]⟩ ++ (content.toList ++ endText tag) =
      opening ++ (inner ++ endText tag) := by
    simp [plainStart_eq, hvalue, opening, inner, tagClose]
  have hblock (rest : List Char) : endingBlock? (opening ++ rest) =
      (textBefore? (closesTag tag) rest).map fun content => ⟨opening, content⟩ := by
    have hdecided := endingBlock?_value ht hn hb rest
    rw [hslash, if_neg Bool.false_ne_true] at hdecided
    simpa [opening, tagClose] using hdecided
  have hwraps := wraps_content hname (by simp [opening]) hblock (textBefore?_plain hplain tag)
  rw [wrapContent_eq_sections (by simp [inner]) (startsWith_cdataOpen_plain hplain)] at hwraps
  have hopening : Turns outsideStep opening opening := by
    refine keeps_value hname hn ?_ ?_
    · simpa [tagClose] using (not_mem_of_isQuotable_append hv (by decide)).1
    · simpa [tagClose] using (not_mem_of_isQuotable_append hv (by decide)).1
  have hsections := keeps_flatMap fun t hm => keeps_cdata (occurs_sections inner t hm)
  refine ⟨cdataOpen.tail ++ ((sections inner).1 ++ (cdataClose ++ (sections inner).2.flatMap sectionText)) ++ endText tag,
    ?_, ?_⟩
  · have hquote : '"' ∈ inner := by simp [inner]
    exact List.mem_append_left _ (List.mem_append_right _ (mem_sections hquote))
  · have hkeeps := hopening.append (hsections.append (keeps_endText hname))
    rw [protect_blockSource_of_turns hsource hwraps hkeeps]
    simp [opening, sectionText, cdataOpen, tagClose]

/-- Any other `>` in the value puts the mark of verbatim text between the quotes, which the reader does not take. -/
theorem parse_block_broken (ht : isEndingTag tag = true) (hn : isName name = true) (hv : isQuotable value.toList = true)
    (hvalue : value.toList = before ++ '>' :: after) (hb : '>' ∉ before) (hslash : endsWith ['/'] before = false)
    (hlt : '<' ∉ content.toList) (hd : 2 ≤ maxDepth) :
    parse maxDepth (blockSource tag ⟨[(name, value)]⟩ content) = .error (.malformed .angleInValue
      (.after ("<mjml><mj-body><".toList ++ (valueFront tag name ++ (before ++ ['>']))))) := by
  have hname := isName_of_isEndingTag ht
  obtain ⟨text, hquote, hprotect⟩ := protect_block_broken ht hn hv hvalue hb hslash hlt
  have hfront : "<mjml><mj-body><".toList =
      startText rootTag .empty tagClose ++ (startText bodyTag .empty tagClose ++ ['<']) := by decide +kernel
  rw [hvalue] at hv
  have hangle : '<' ∉ before ++ ['>'] := by simpa using (not_mem_of_isQuotable_append hv (by decide)).1
  have hquote' : '"' ∉ before ++ ['>'] := by simpa using (not_mem_of_isQuotable_append hv (by decide)).1
  have hread : readStartTag ('<' :: (valueFront tag name ++ (before ++ '>' :: '<' :: text)) ++ fence bodyTag) =
      .error (.malformed .angleInValue ('<' :: (text ++ fence bodyTag))) := by
    have hvalue := readValue_angle hquote' hangle (List.mem_append_left (fence bodyTag) hquote)
    have hsplit : '<' :: (valueFront tag name ++ (before ++ '>' :: '<' :: text)) ++ fence bodyTag =
        '<' :: (valueFront tag name ++ (before ++ ['>'] ++ '<' :: (text ++ fence bodyTag))) := by simp
    rw [hsplit]
    exact readStartTag_value hname hn hvalue
  have hopen (rest : List Char) :
      opensElement ('<' :: (valueFront tag name ++ (before ++ '>' :: '<' :: text)) ++ rest) = true := by
    have h := opensElement_quotedStart hname (fun e => e.2.toList) ⟨[(name, String.ofList before)]⟩ [] rest
    obtain ⟨c, r, hc, -⟩ := isName_iff.1 hname
    simpa [quotedStart, hc, valueFront, opensElement] using h
  have hdocument := readDocument_wrapIn_error hd hopen hread
  have hsplit : wrapIn bodyTag ('<' :: (valueFront tag name ++ (before ++ '>' :: '<' :: text))) =
      "<mjml><mj-body><".toList ++ (valueFront tag name ++ (before ++ ['>'])) ++ '<' :: (text ++ fence bodyTag) := by
    rw [hfront, wrapIn]
    simp
  exact parse_error (blockSource_not_blank _ _ _) (hprotect.trans hsplit) (hsplit ▸ hdocument)

/-- A block with one attribute is read with its value and its content, whichever ending tag it has, unless its start tag
seems to end inside the value. Then it is refused at the mark put behind the first `>`. -/
theorem parse_block_value (ht : isEndingTag tag = true) (hn : isName name = true) (hv : isQuotable value.toList = true)
    (hc : isWritableText content.toList = true) (hd : 2 ≤ maxDepth) :
    (endsInside value.toList = false → ∃ children,
      parse maxDepth (blockSource tag ⟨[(name, value)]⟩ content) =
        .ok ⟨.empty, [.element bodyTag .empty [.element tag ⟨[(name, value)]⟩ children]]⟩ ∧
      (Node.element tag ⟨[(name, value)]⟩ children).innerMarkup = content) ∧
    (endsInside value.toList = true → ∃ before after, value.toList = before ++ '>' :: after ∧ '>' ∉ before ∧
      parse maxDepth (blockSource tag ⟨[(name, value)]⟩ content) = .error (.malformed .angleInValue
        (.after ("<mjml><mj-body><".toList ++ (valueFront tag name ++ (before ++ ['>'])))))) := by
  have hlt := (isWritableText_iff.1 hc).2.1
  by_cases hgt : '>' ∈ value.toList
  · obtain ⟨before, after, hvalue, hb⟩ := List.eq_append_cons_of_mem hgt
    have hends : endsInside value.toList = !endsWith ['/'] before := by
      rw [endsInside, tagClose, hvalue, cut_char hb]
    cases hslash : endsWith ['/'] before with
    | true =>
      rw [hends, hslash]
      refine ⟨fun _ => ⟨_, parse_block_slash ht hn hv hvalue hb hslash hc hd, ?_⟩, fun h => absurd h (by decide)⟩
      simp [Node.innerMarkup, Node.children, Node.markupAll, Node.markup]
    | false =>
      rw [hends, hslash]
      exact ⟨fun h => absurd h (by decide), fun _ => ⟨before, after, hvalue, hb, parse_block_broken ht hn hv hvalue hb hslash hlt hd⟩⟩
  · have hends : endsInside value.toList = false := by
      rw [endsInside, tagClose, cut_char_eq_none hgt]
    rw [hends]
    refine ⟨fun _ => ⟨_, parse_block_plain ht hn hv hgt hc hd, ?_⟩, fun h => absurd h (by decide)⟩
    simp [Node.innerMarkup, Node.children, Node.markupAll, Node.markup]

end

theorem parse_block_value_slash :
    endsInside "b/>c>".toList = false ∧ endsInside "a > b".toList = true ∧
    (∃ children, parse defaultMaxDepth "<mjml><mj-body><mj-text a=\"b/>c>\">x</mj-text></mj-body></mjml>" =
        .ok ⟨.empty, [.element bodyTag .empty [.element "mj-text" ⟨[("a", "b/>c>")]⟩ children]]⟩ ∧
      (Node.element "mj-text" ⟨[("a", "b/>c>")]⟩ children).innerMarkup = "x") ∧
    ∃ before after, "a > b".toList = before ++ '>' :: after ∧ '>' ∉ before ∧
      parse defaultMaxDepth "<mjml><mj-body><mj-button if=\"a > b\">x</mj-button></mj-body></mjml>" =
        .error (.malformed .angleInValue
          (.after ("<mjml><mj-body><".toList ++ (valueFront "mj-button" "if" ++ (before ++ ['>']))))) := by
  have hslash : blockSource "mj-text" ⟨[("a", "b/>c>")]⟩ "x" =
      "<mjml><mj-body><mj-text a=\"b/>c>\">x</mj-text></mj-body></mjml>" := by decide +kernel
  have hinside : blockSource "mj-button" ⟨[("if", "a > b")]⟩ "x" =
      "<mjml><mj-body><mj-button if=\"a > b\">x</mj-button></mj-body></mjml>" := by decide +kernel
  rw [← hslash, ← hinside]
  refine ⟨by decide +kernel, by decide +kernel, ?_, ?_⟩
  · exact (parse_block_value (by decide +kernel) (by decide +kernel) (by decide +kernel) (by decide +kernel)
      (by decide)).1 (by decide +kernel)
  · exact (parse_block_value (by decide +kernel) (by decide +kernel) (by decide +kernel) (by decide +kernel)
      (by decide)).2 (by decide +kernel)

/-- The value `b>c` is refused on a block, and read on any other element. -/
theorem parse_block_angle :
    parse defaultMaxDepth "<mjml><mj-body><mj-text a=\"b>c\">x</mj-text></mj-body></mjml>" =
      .error (.malformed .angleInValue (.after "<mjml><mj-body><mj-text a=\"b>".toList)) ∧
    (parse defaultMaxDepth "<mjml><mj-body><mj-hero a=\"b>c\">x</mj-hero></mj-body></mjml>").toOption.map (·.root.markup) =
      some "<mjml><mj-body><mj-hero a=\"b&gt;c\">x</mj-hero></mj-body></mjml>" := by
  have hsource : blockSource "mj-text" ⟨[("a", "b>c")]⟩ "x" =
      "<mjml><mj-body><mj-text a=\"b>c\">x</mj-text></mj-body></mjml>" := by decide +kernel
  have hfront : "<mjml><mj-body><mj-text a=\"b>".toList =
      "<mjml><mj-body><".toList ++ (valueFront "mj-text" "a" ++ (['b'] ++ ['>'])) := by decide +kernel
  refine ⟨?_, by decide +kernel⟩
  rw [← hsource, hfront]
  have hvalue : "b>c".toList = ['b'] ++ '>' :: ['c'] := rfl
  exact parse_block_broken (by decide +kernel) (by decide +kernel) (by decide +kernel) hvalue (by decide) rfl (by decide)
    (by decide)

end EmailMarkup.Template
