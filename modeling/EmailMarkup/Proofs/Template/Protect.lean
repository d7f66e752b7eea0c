import EmailMarkup.Proofs.Template.Writable
import Mathlib.Data.List.Find
/-!
# Protecting written markup

Both passes of `protect` go through written markup piece by piece: the first finds the blocks of ending
tags exactly where they were written and wraps their content, the second leaves everything as it is.
So a writable node becomes its strict markup (`protect_markup`).
-/
namespace EmailMarkup.Template

open EmailMarkup.Text

/-! ## Wrapping -/

/-- One step of `wrapEnding`. -/
def wrapStep (s : List Char) : Option (List Char × Nat) :=
  (endingBlock? s).map fun b => (b.opening ++ wrapContent b.content, b.opening.length + b.content.length)

theorem wrapEnding_eq (s : List Char) : wrapEnding s = substitute wrapStep s := rfl

theorem wrapStep_of_ne {c : Char} (h : c ≠ '<') (s : List Char) : wrapStep (c :: s) = none := by
  unfold wrapStep endingBlock?
  split
  · rename_i heq
    exact absurd (List.cons.inj heq).1 h
  · rfl

theorem wraps_plain {s : List Char} (h : '<' ∉ s) : Turns wrapStep s s :=
  .copy fun _ hc => wrapStep_of_ne fun he => h (he ▸ hc)

theorem endingTags_nameChars : ∀ tag ∈ endingTags, ∀ c ∈ tag.toList, isNameChar c = true := by
  have hall : (endingTags.all fun tag => tag.toList.all isNameChar) = true := by decide +kernel
  intro tag ht c hc
  exact List.all_eq_true.1 (List.all_eq_true.1 hall tag ht) c hc

theorem endingTags_isName {tag : String} (h : tag ∈ endingTags) : isName tag = true := by
  have hall : endingTags.all isName = true := by decide +kernel
  exact List.all_eq_true.1 hall tag h

theorem isNameChar_of_endsName {c : Char} (h : (c == '>' || isAsciiBlank c) = true) : isNameChar c = false := by
  simp only [isAsciiBlank, Bool.or_eq_true, beq_iff_eq] at h
  rcases h with rfl | (((rfl | rfl) | rfl) | rfl) | rfl <;> decide

/-- An ending tag is named at the front of a text exactly if it is the name that stands there. -/
theorem namesTag_eq {tag name : String} (ht : tag ∈ endingTags) (hn : isName name = true) {c : Char}
    (hc : (c == '>' || isAsciiBlank c) = true) (r : List Char) :
    namesTag tag (name.toList ++ c :: r) = (tag == name) := by
  by_cases heq : tag = name
  · subst heq
    simp [namesTag, strip?_append, hc]
  · rw [beq_eq_false_iff_ne.2 heq]
    unfold namesTag
    split
    · rename_i d r' hs
      by_cases hd : (d == '>' || isAsciiBlank d) = true
      · have hlist : name.toList = tag.toList :=
          eq_of_append_cons_eq (nameChars hn) (endingTags_nameChars tag ht) (isNameChar_of_endsName hc)
            (isNameChar_of_endsName hd) (strip?_eq_some_iff.1 hs)
        exact absurd (String.toList_inj.1 hlist.symm) heq
      · simpa using hd
    · rfl

theorem find?_eq_of_beq {l : List String} {p : String → Bool} {name : String} (h : ∀ tag ∈ l, p tag = (tag == name)) :
    l.find? p = if l.contains name then some name else none := by
  induction l with
  | nil => rfl
  | cons tag l ih =>
    rw [List.find?_cons, h tag (by simp), ih fun t ht => h t (by simp [ht])]
    by_cases heq : tag = name
    · simp [heq]
    · rw [beq_eq_false_iff_ne.2 heq]
      simp [Ne.symm heq]

theorem find?_endingTags {name : String} (hn : isName name = true) {c : Char} (hc : (c == '>' || isAsciiBlank c) = true)
    (r : List Char) : (endingTags.find? fun tag => namesTag tag (name.toList ++ c :: r)) =
      if isEndingTag name then some name else none :=
  find?_eq_of_beq fun _ ht => namesTag_eq ht hn hc r

theorem quotedStart_append (write : String × String → List Char) (tag : String) (a : Attributes) (close rest : List Char) :
    quotedStart write tag a close ++ rest =
      '<' :: (tag.toList ++ ((a.entries.flatMap fun e => quotedText e.1 (write e)) ++ (close ++ rest))) := by
  simp [quotedStart]

theorem find?_quotedStart {tag : String} (ht : isName tag = true) (a : Attributes) (write : String × String → List Char)
    {close : List Char} (hclose : close = emptyClose ∨ close = tagClose) (rest : List Char) :
    (endingTags.find? fun t => namesTag t (tag.toList ++
      ((a.entries.flatMap fun e => quotedText e.1 (write e)) ++ (close ++ rest)))) =
        if isEndingTag tag then some tag else none := by
  obtain ⟨c, r, hr, hc⟩ := attributes_append_eq a write hclose rest
  rw [hr]
  refine find?_endingTags ht ?_ r
  rcases hc with rfl | rfl <;> decide

theorem find?_startText {tag : String} (ht : isName tag = true) (a : Attributes) {close : List Char}
    (hclose : close = emptyClose ∨ close = tagClose) (rest : List Char) :
    (endingTags.find? fun t => namesTag t (tag.toList ++ (a.entries.flatMap attributeText ++ (close ++ rest)))) =
      if isEndingTag tag then some tag else none :=
  find?_quotedStart ht a _ hclose rest

theorem startText_append (tag : String) (a : Attributes) (close rest : List Char) :
    startText tag a close ++ rest = '<' :: (tag.toList ++ (a.entries.flatMap attributeText ++ (close ++ rest))) := by
  simp [startText]

/-- At the start of an element that is no ending tag there is no block. -/
theorem endingBlock?_of_not_ending {tag : String} (ht : isName tag = true) (hn : isEndingTag tag = false) (a : Attributes)
    {close : List Char} (hclose : close = emptyClose ∨ close = tagClose) (rest : List Char) :
    endingBlock? (startText tag a close ++ rest) = none := by
  rw [startText_append, endingBlock?, find?_startText ht a hclose rest, hn]
  rfl

/-- The block at an ending tag whose start tag is `head`. -/
theorem endingBlock?_of_ending {tag : String} {r head rest : List Char}
    (hfind : (endingTags.find? fun t => namesTag t r) = some tag) (hcut : cut tagClose r = some (head, rest)) :
    endingBlock? ('<' :: r) = if endsWith ['/'] head then none
      else (textBefore? (closesTag tag) rest).map fun content => ⟨'<' :: head ++ tagClose, content⟩ := by
  rw [endingBlock?, hfind]
  simp only [Option.bind_eq_bind, Option.bind_some, hcut]
  split
  · rfl
  · cases textBefore? (closesTag tag) rest <;> rfl

/-- At an element that is closed at once there is no block. -/
theorem endingBlock?_of_empty {tag : String} {a : Attributes} (ht : isName tag = true)
    (ha : areWritableAttributes a = true) (rest : List Char) :
    endingBlock? (startText tag a emptyClose ++ rest) = none := by
  cases hn : isEndingTag tag with
  | false => exact endingBlock?_of_not_ending ht hn a (.inl rfl) rest
  | true =>
    have hmem : '>' ∉ (tag.toList ++ a.entries.flatMap attributeText ++ [' ']) ++ ['/'] := by
      intro hm
      rw [List.append_assoc, List.mem_append] at hm
      rcases hm with hm | hm
      · exact (mem_tag ht ha hm).2 rfl
      · exact absurd hm (by decide)
    have hcut : cut tagClose (tag.toList ++ (a.entries.flatMap attributeText ++ (emptyClose ++ rest))) =
        some ((tag.toList ++ a.entries.flatMap attributeText ++ [' ']) ++ ['/'], rest) := by
      rw [← cut_char hmem rest]
      simp [tagClose, emptyClose]
    have hfind := find?_startText ht a (.inl rfl) rest
    rw [hn, if_pos rfl] at hfind
    rw [startText_append, endingBlock?_of_ending hfind hcut, endsWith_concat]
    rfl

/-- The block of an ending tag reaches from its start tag to its first end tag. -/
theorem endingBlock?_quotedStart {write : String × String → List Char} {tag : String} {a : Attributes}
    (ht : isName tag = true) (hn : isEndingTag tag = true)
    (hgt : '>' ∉ tag.toList ++ (a.entries.flatMap fun e => quotedText e.1 (write e))) (rest : List Char) :
    endingBlock? (quotedStart write tag a tagClose ++ rest) =
      (textBefore? (closesTag tag) rest).map fun content => ⟨quotedStart write tag a tagClose, content⟩ := by
  have hfind := find?_quotedStart ht a write (.inr rfl) rest
  rw [hn, if_pos rfl] at hfind
  have hcut : cut tagClose (tag.toList ++ ((a.entries.flatMap fun e => quotedText e.1 (write e)) ++ (tagClose ++ rest))) =
      some (tag.toList ++ (a.entries.flatMap fun e => quotedText e.1 (write e)), rest) := by
    rw [← List.append_assoc]
    exact cut_char hgt rest
  obtain ⟨s, c, hs, hc⟩ := tag_eq_concat ht a write
  rw [quotedStart_append, endingBlock?_of_ending hfind hcut, hs, endsWith_concat, beq_eq_false_iff_ne.2 (Ne.symm hc), ← hs]
  simp [quotedStart]

theorem endingBlock?_of_content {tag : String} {a : Attributes} (ht : isName tag = true) (hn : isEndingTag tag = true)
    (ha : areWritableAttributes a = true) (rest : List Char) :
    endingBlock? (startText tag a tagClose ++ rest) =
      (textBefore? (closesTag tag) rest).map fun content => ⟨startText tag a tagClose, content⟩ :=
  endingBlock?_quotedStart ht hn (fun hm => (mem_tag ht ha hm).2 rfl) rest

theorem endingTags_head : ∀ tag ∈ endingTags, tag.toList.head? = some 'm' := by
  decide +kernel

/-- Every ending tag begins with the same letter. -/
theorem wrapStep_of_head_ne {c : Char} (h : c ≠ 'm') (s : List Char) : wrapStep ('<' :: c :: s) = none := by
  have hfind : (endingTags.find? fun tag => namesTag tag (c :: s)) = none := by
    refine List.find?_eq_none.2 fun tag ht => ?_
    obtain ⟨r, hr⟩ := List.head?_eq_some_iff.1 (endingTags_head tag ht)
    simp [namesTag, hr, strip?_cons_of_ne (Ne.symm h)]
  rw [wrapStep, endingBlock?, hfind]
  rfl

theorem wraps_endText {tag : String} (ht : isName tag = true) : Turns wrapStep (endText tag) (endText tag) := by
  refine .cons (fun rest => wrapStep_of_head_ne (by decide) _) (wraps_plain fun hm => ?_)
  have hm : '<' ∈ '/' :: (tag.toList ++ tagClose) := hm
  rw [List.mem_cons, List.mem_append] at hm
  rcases hm with he | hm | hm
  · exact absurd he (by decide)
  · exact (mem_name ht hm).1 rfl
  · exact absurd hm (by decide)

theorem wraps_startText {tag : String} {a : Attributes} (ht : isName tag = true) (ha : areWritableAttributes a = true)
    {close : List Char} (hclose : close = emptyClose ∨ close = tagClose)
    (hnone : ∀ rest, endingBlock? (startText tag a close ++ rest) = none) :
    Turns wrapStep (startText tag a close) (startText tag a close) := by
  refine .cons (fun rest => ?_) (wraps_plain fun hm => ?_)
  · have h := hnone rest
    rw [startText, List.cons_append] at h
    rw [wrapStep, h]
    rfl
  · rw [← List.append_assoc, List.mem_append] at hm
    rcases hm with hm | hm
    · exact (mem_tag ht ha hm).1 rfl
    · rcases hclose with rfl | rfl <;> exact absurd hm (by decide)

/-! ## Blocks -/

theorem closesTag_iff {tag : String} {s : List Char} : closesTag tag s = true ↔
    ∃ blanks r, s = (endTagOpen ++ tag.toList ++ blanks ++ ['>']) ++ r ∧ ∀ c ∈ blanks, isAsciiBlank c = true := by
  unfold closesTag
  constructor
  · intro h
    split at h
    · rename_i r hr
      split at h
      · rename_i r' hd
        refine ⟨r.takeWhile isAsciiBlank, r', ?_, List.all_eq_true.1 List.all_takeWhile⟩
        have hr' : r = r.takeWhile isAsciiBlank ++ '>' :: r' := by
          rw [← hd, List.takeWhile_append_dropWhile]
        rw [strip?_eq_some_iff.1 hr]
        simpa using hr'
      · cases h
    · cases h
  · rintro ⟨blanks, r, rfl, hb⟩
    have hs : endTagOpen ++ tag.toList ++ blanks ++ ['>'] ++ r = endTagOpen ++ tag.toList ++ (blanks ++ '>' :: r) := by simp
    rw [hs, strip?_append]
    simp [dropWhile_append_cons hb (by decide : isAsciiBlank '>' = false) r]

/-- Nothing is found if no end tag stands anywhere. -/
theorem textBefore?_eq_none_iff {tag : String} {s : List Char} : textBefore? (closesTag tag) s = none ↔
    ∀ before blanks after, (∀ c ∈ blanks, isAsciiBlank c = true) →
      s ≠ before ++ (endTagOpen ++ tag.toList ++ blanks ++ ['>'] ++ after) := by
  rw [textBefore?, Option.map_eq_none_iff, cutBy_eq_none_iff]
  constructor
  · intro h before blanks after hb hs
    have hnone := h _ ⟨before, hs.symm⟩
    rw [if_pos (closesTag_iff.2 ⟨blanks, after, rfl, hb⟩)] at hnone
    cases hnone
  · rintro h t ⟨before, ht⟩
    rw [if_neg]
    intro hc
    obtain ⟨blanks, after, rfl, hb⟩ := closesTag_iff.1 hc
    exact h before blanks after hb ht.symm

/-- Behind its first character, an end tag holds neither `<` nor `]`. -/
theorem not_mem_endTag {tag : String} (ht : isName tag = true) {d : Char} (hd : d = '<' ∨ d = ']') {blanks : List Char}
    (hb : ∀ c ∈ blanks, isAsciiBlank c = true) : d ∉ '/' :: (tag.toList ++ (blanks ++ ['>'])) := by
  intro hm
  rw [List.mem_cons, List.mem_append, List.mem_append] at hm
  rcases hm with he | hm | hm | hm
  · rcases hd with rfl | rfl <;> exact absurd he (by decide)
  · rcases hd with rfl | rfl <;> exact absurd (nameChars ht _ hm) (by decide)
  · rcases hd with rfl | rfl <;> exact absurd (hb _ hm) (by decide)
  · rcases hd with rfl | rfl <;> exact absurd hm (by decide)

/-- An end tag does not begin inside a text and end behind it, if `<` or `]` stands there. -/
theorem closesTag_append {tag : String} (ht : isName tag = true) {c d : Char} (hd : d = '<' ∨ d = ']') {s : List Char}
    (h : closesTag tag (c :: s) = false) (r : List Char) : closesTag tag (c :: s ++ d :: r) = false := by
  rw [Bool.eq_false_iff] at h ⊢
  intro hc
  obtain ⟨blanks, r', heq, hb⟩ := closesTag_iff.1 hc
  rcases List.append_eq_append_iff.1 heq with ⟨m, hm, hr⟩ | ⟨m, hm, hr⟩
  · cases m with
    | nil => exact h (closesTag_iff.2 ⟨blanks, [], by rw [hm]; simp, hb⟩)
    | cons e m =>
      obtain rfl : d = e := (List.cons.inj hr).1
      have htail : '/' :: (tag.toList ++ (blanks ++ ['>'])) = s ++ d :: m := by
        have := (List.cons.inj hm).2
        simpa using this
      have hmem : d ∈ '/' :: (tag.toList ++ (blanks ++ ['>'])) := by simp [htail]
      exact not_mem_endTag ht hd hb hmem
  · exact h (closesTag_iff.2 ⟨blanks, m, hm, hb⟩)

/-- Whatever follows an end tag, it is one. -/
theorem closesTag_mono {tag : String} {s : List Char} (h : closesTag tag s = true) (r : List Char) :
    closesTag tag (s ++ r) = true := by
  obtain ⟨blanks, after, rfl, hb⟩ := closesTag_iff.1 h
  exact closesTag_iff.2 ⟨blanks, after ++ r, by rw [List.append_assoc], hb⟩

/-- The first end tag has none before it. -/
theorem textBefore?_eq_some_iff {tag : String} (ht : isName tag = true) {s content : List Char} :
    textBefore? (closesTag tag) s = some content ↔
      ∃ rest, s = content ++ rest ∧ textBefore? (closesTag tag) content = none ∧ closesTag tag rest = true := by
  constructor
  · intro h
    obtain ⟨⟨before, found⟩, hcut, rfl⟩ := Option.map_eq_some_iff.1 h
    obtain ⟨rest, rfl, hrest, hbefore⟩ := cutBy_eq_some_iff.1 hcut
    refine ⟨rest, rfl, ?_, by simpa using (Option.ite_none_right_eq_some.1 hrest).1⟩
    rw [textBefore?, Option.map_eq_none_iff, cutBy_eq_none_iff]
    intro t ht
    cases t with
    | nil => rfl
    | cons c t =>
      have hnot : closesTag tag (c :: t ++ rest) ≠ true := by simpa using hbefore c t ht
      rw [if_neg fun hc => hnot (closesTag_mono hc rest)]
  · rintro ⟨rest, rfl, hcontent, hrest⟩
    rw [textBefore?, Option.map_eq_none_iff, cutBy_eq_none_iff] at hcontent
    have hcut : cutBy (fun s => if closesTag tag s then some s else none) (content ++ rest) = some (content, rest) := by
      refine cutBy_append (by simp [hrest]) fun c t hs => ?_
      have hnot : closesTag tag (c :: t) = false := by simpa using hcontent _ hs
      -- the end tag begins with `<`, so none that begins before it reaches so far
      obtain ⟨blanks, after, rfl, -⟩ := closesTag_iff.1 hrest
      rw [show endTagOpen ++ tag.toList ++ blanks ++ ['>'] ++ after =
        '<' :: ('/' :: (tag.toList ++ (blanks ++ ('>' :: after)))) by simp [endTagOpen], closesTag_append ht (.inl rfl) hnot]
      rfl
    rw [textBefore?, hcut]
    rfl

/-- The name of a tag ends before its start tag does. -/
theorem namesTag_tagClose {tag : String} (ht : isName tag = true) (head r : List Char) :
    namesTag tag (head ++ '>' :: r) = namesTag tag (head ++ tagClose) := by
  have hclose : '>' ∉ tag.toList := fun hm => (mem_name ht hm).2.1 rfl
  rw [namesTag, namesTag, tagClose, strip?_append_cons hclose, strip?_append_cons hclose]
  rcases strip? tag.toList head with _ | _ | ⟨c, w⟩ <;> rfl

/-- A block of `tag` with its start tag `<head>`, and what follows it. -/
structure IsBlock (tag : String) (head content rest : List Char) : Prop where
  named : (endingTags.find? fun t => namesTag t (head ++ tagClose)) = some tag
  no_close : '>' ∉ head
  no_slash : endsWith ['/'] head = false
  no_end : textBefore? (closesTag tag) content = none
  ends : closesTag tag rest = true

theorem IsBlock.isName {tag : String} {head content rest : List Char} (h : IsBlock tag head content rest) :
    isName tag = true :=
  endingTags_isName (List.mem_of_find?_eq_some h.named)

theorem find?_tagClose (head r : List Char) : (endingTags.find? fun t => namesTag t (head ++ '>' :: r)) =
    endingTags.find? fun t => namesTag t (head ++ tagClose) :=
  List.find?_congr fun _ ht => namesTag_tagClose (endingTags_isName ht) head r

/-- What is found at the front of a text is a block. -/
theorem exists_isBlock {t : List Char} {b : Block} (h : endingBlock? t = some b) : ∃ tag head rest,
    IsBlock tag head b.content rest ∧ b.opening = '<' :: (head ++ ['>']) ∧ t = '<' :: (head ++ '>' :: (b.content ++ rest)) := by
  unfold endingBlock? at h
  split at h
  · obtain ⟨tag, hfind, h⟩ := Option.bind_eq_some_iff.1 h
    obtain ⟨⟨head, after⟩, hcut, h⟩ := Option.bind_eq_some_iff.1 h
    dsimp only at h
    split at h
    · cases h
    · rename_i hslash
      obtain ⟨content, hcontent, h⟩ := Option.bind_eq_some_iff.1 h
      obtain rfl := Option.some.inj h
      have ht := endingTags_isName (List.mem_of_find?_eq_some hfind)
      obtain ⟨rest, rfl, hnone, hends⟩ := (textBefore?_eq_some_iff ht).1 hcontent
      obtain ⟨rfl, hclose⟩ := not_mem_of_cut hcut
      exact ⟨tag, head, rest, ⟨by rw [← find?_tagClose, hfind], hclose, by simpa using hslash, hnone, hends⟩, rfl, rfl⟩
  · cases h

/-- A block at the front of a text is found. -/
theorem endingBlock?_of_isBlock {tag : String} {head content rest : List Char} (h : IsBlock tag head content rest) :
    endingBlock? ('<' :: (head ++ '>' :: (content ++ rest))) = some ⟨'<' :: (head ++ ['>']), content⟩ := by
  have hfind := (find?_tagClose head (content ++ rest)).trans h.named
  rw [endingBlock?_of_ending hfind (cut_char h.no_close _), h.no_slash,
    (textBefore?_eq_some_iff h.isName).2 ⟨rest, rfl, h.no_end, h.ends⟩]
  rfl

/-- The content of an ending tag reaches to its own end tag. -/
theorem textBefore?_content {tag : String} (ht : isName tag = true) {content : List Char}
    (h : textBefore? (closesTag tag) content = none) (rest : List Char) :
    textBefore? (closesTag tag) (content ++ (endText tag ++ rest)) = some content :=
  (textBefore?_eq_some_iff ht).2 ⟨_, rfl, h, closesTag_iff.2 ⟨[], rest, by simp [endText, tagClose], by simp⟩⟩

theorem wrapContent_eq {tag : String} {content : List Char} (h : isWritableContent tag content = true) :
    wrapContent content = cdataOpen ++ (content ++ cdataClose) := by
  obtain ⟨hne, hmark, -, hopen⟩ := isWritableContent_iff.1 h
  simp [wrapContent, hne, hopen, replaceAll_of_not_occurs hmark]

/-- The content of an ending tag is wrapped. -/
theorem wraps_content {tag : String} {opening content : List Char} (ht : isName tag = true) (hne : opening ≠ [])
    (hblock : ∀ rest, endingBlock? (opening ++ rest) =
      (textBefore? (closesTag tag) rest).map fun content => ⟨opening, content⟩)
    (hc : textBefore? (closesTag tag) content = none) :
    Turns wrapStep (opening ++ (content ++ endText tag)) (opening ++ (wrapContent content ++ endText tag)) := by
  intro rest
  have hstep : wrapStep ((opening ++ content) ++ (endText tag ++ rest)) =
      some (opening ++ wrapContent content, (opening ++ content).length) := by
    rw [wrapStep, List.append_assoc, hblock, textBefore?_content ht hc]
    simp
  have hsplit : opening ++ (content ++ endText tag) ++ rest = (opening ++ content) ++ (endText tag ++ rest) := by simp
  rw [hsplit, substitute_append_of_some (by simp [hne]) hstep, wraps_endText ht rest]
  simp

theorem wraps_block {tag : String} {a : Attributes} (ht : isName tag = true) (hn : isEndingTag tag = true)
    (ha : areWritableAttributes a = true) {content : List Char} (hc : isWritableContent tag content = true) :
    Turns wrapStep (startText tag a tagClose ++ (content ++ endText tag))
      (startText tag a tagClose ++ (cdataOpen ++ (content ++ cdataClose) ++ endText tag)) := by
  rw [← wrapContent_eq hc]
  exact wraps_content ht (by simp [startText]) (endingBlock?_of_content ht hn ha) (isWritableContent_iff.1 hc).2.2.1

mutual

theorem wraps_markup : ∀ n : Node, isWritable n = true → Turns wrapStep n.markup.toList (strict n)
  | .text content, h => by
    rw [isWritable, isWritableText_iff] at h
    rw [Node.markup, strict]
    exact wraps_plain h.2.1
  | .comment content, h => by
    rw [isWritable, isWritableComment_iff] at h
    have hsplit : (Node.markup (.comment content)).toList = '<' :: '!' :: ('-' :: '-' :: (content.toList ++ commentClose)) := by
      simp [Node.markup, commentClose]
    rw [hsplit]
    refine .cons (fun rest => wrapStep_of_head_ne (by decide) _) (wraps_plain ?_)
    simpa [commentClose] using h.1
  | .cdata _, h => by cases h
  | .element tag a [], h => by
    obtain ⟨ht, ha, -⟩ := isWritable_element h
    rw [toList_markup_nil, strict]
    exact wraps_startText ht ha (.inl rfl) (endingBlock?_of_empty ht ha)
  | .element tag a (n :: rest), h => by
    obtain ⟨ht, ha, ⟨hn, hblock⟩ | ⟨hn, hall⟩⟩ := isWritable_element h
    · rcases hblock with hnil | ⟨content, hc, hw⟩
      · cases hnil
      · obtain ⟨rfl, rfl⟩ := List.cons.inj hc
        rw [toList_markup_cons, strict]
        simpa [Node.markup, Node.markupAll, strict, strictAll] using wraps_block ht hn ha hw
    · rw [toList_markup_cons, strict]
      have hstart := wraps_startText ht ha (.inr rfl) (endingBlock?_of_not_ending ht hn a (.inr rfl))
      have hrest := areWritable_cons.1 hall
      exact hstart.append (((wraps_markup n hrest.1).append (wraps_markupAll rest hrest.2.1)).append (wraps_endText ht))

theorem wraps_markupAll : ∀ nodes : List Node, areWritable nodes = true →
    Turns wrapStep (Node.markupAll nodes).toList (strictAll nodes)
  | [], _ => .nil
  | n :: rest, h => by
    have h := areWritable_cons.1 h
    rw [Node.markupAll, String.toList_append, strictAll]
    exact (wraps_markup n h.1).append (wraps_markupAll rest h.2.1)

end

/-! ## Named characters -/

/-- One step of `replaceOutside`. -/
def outsideStep (s : List Char) : Option (List Char × Nat) :=
  ((verbatim? s).map fun v => (v, v.length)) <|> entity? s

theorem replaceOutside_eq (s : List Char) : replaceOutside s = substitute outsideStep s := rfl

theorem verbatim?_eq_none {s : List Char} (h : strip? cdataOpen s = none) : verbatim? s = none := by
  rw [verbatim?, h]
  rfl

theorem outsideStep_eq {s : List Char} (h : strip? cdataOpen s = none) : outsideStep s = entity? s := by
  rw [outsideStep, verbatim?_eq_none h]
  rfl

theorem entity?_of_ne {c : Char} (h : c ≠ '&') (s : List Char) : entity? (c :: s) = none := by
  unfold entity?
  split
  · rename_i heq
    exact absurd (List.cons.inj heq).1 h
  · rfl

theorem keeps_plain {s : List Char} (h : '<' ∉ s) (h' : '&' ∉ s) : Turns outsideStep s s := by
  refine .copy fun c hc rest => ?_
  have hlt : '<' ≠ c := fun he => h (he ▸ hc)
  have hamp : c ≠ '&' := fun he => h' (he ▸ hc)
  rw [outsideStep_eq (strip?_cons_of_ne hlt _ _), entity?_of_ne hamp]

/-- Nothing is taken at a `<` that does not open verbatim text. -/
theorem outsideStep_of_tag {s : List Char} (h : strip? cdataOpen ('<' :: s) = none) : outsideStep ('<' :: s) = none := by
  rw [outsideStep_eq h, entity?_of_ne (by decide)]

/-- A start tag does not begin like verbatim text. -/
theorem outsideStep_of_name {tag : String} (ht : isName tag = true) (s r : List Char) :
    outsideStep ('<' :: (tag.toList ++ s ++ r)) = none := by
  obtain ⟨c, t, hc, hstart, -⟩ := isName_iff.1 ht
  have hne : '!' ≠ c := by
    rintro rfl
    exact absurd hstart (by decide)
  refine outsideStep_of_tag ?_
  rw [hc]
  simp [cdataOpen, strip?, hne]

/-- What holds of every entry of the table holds of a name and the code point that it has there. -/
theorem entityCode?_forall {p : String → Nat → Bool}
    (hall : ((symbolNames ++ latinNames.zipIdx 160).all fun e => p e.1 e.2) = true) {name : String} {code : Nat}
    (h : entityCode? name = some code) : p name code = true := by
  refine List.all_eq_true.1 hall (name, code) (List.mem_append.2 ?_)
  unfold entityCode? at h
  split at h
  · rename_i code' hlookup
    obtain rfl := Option.some.inj h
    obtain ⟨before, after, heq, -⟩ := List.lookup_eq_some_iff.1 hlookup
    exact .inl (by simp [heq])
  · obtain ⟨i, hi, rfl⟩ := Option.map_eq_some_iff.1 h
    obtain ⟨hlt, heq, -⟩ := List.idxOf?_eq_some_iff.1 hi
    exact .inr (List.mem_zipIdx_iff_le_and_getElem?_sub.2 ⟨by omega, by simp [heq, hlt]⟩)

/-- No name of the table is so long that its reference is not found. -/
theorem namedCode?_eq (name : String) : namedCode? name = entityCode? name := by
  rw [namedCode?]
  split
  · rfl
  · rename_i hlong
    cases h : entityCode? name with
    | none => rfl
    | some code =>
      have hshort := entityCode?_forall (p := fun name _ => name.utf8ByteSize + 1 ≤ referenceSpan)
        (by decide +kernel) h
      exact absurd (by simpa using hshort) hlong

/-- The name of a reference reaches to its first semicolon. -/
theorem entity?_reference {name : List Char} (hend : ';' ∉ name) (rest : List Char) : entity? ('&' :: (name ++ ';' :: rest)) =
    (entityCode? (String.ofList name)).map fun code => (numericReference code, name.length + 2) := by
  rw [entity?, cut_char hend]
  cases h : entityCode? (String.ofList name) <;> simp [namedCode?_eq, h]

/-- A reference that is not in the table stays. -/
theorem keeps_reference (name : List Char) (hend : ';' ∉ name) (hlt : '<' ∉ name) (hamp : '&' ∉ name)
    (h : entityCode? (String.ofList name) = none) :
    Turns outsideStep ('&' :: (name ++ [';'])) ('&' :: (name ++ [';'])) := by
  refine .cons (fun rest => ?_) (keeps_plain (by simp [hlt]) (by simp [hamp]))
  rw [outsideStep_eq (strip?_cons_of_ne (by decide) _ _), List.append_assoc, List.singleton_append, entity?_reference hend, h]
  rfl

/-- The references of attribute values are not in the table. -/
theorem keeps_attributeChar (c : Char) : Turns outsideStep (attributeChar c) (attributeChar c) := by
  unfold attributeChar
  split
  · exact keeps_reference ['a', 'm', 'p'] (by decide) (by decide) (by decide) (by decide +kernel)
  · exact keeps_reference ['q', 'u', 'o', 't'] (by decide) (by decide) (by decide) (by decide +kernel)
  · exact keeps_reference ['#', '3', '9'] (by decide) (by decide) (by decide) (by decide +kernel)
  · exact keeps_reference ['l', 't'] (by decide) (by decide) (by decide) (by decide +kernel)
  · exact keeps_reference ['g', 't'] (by decide) (by decide) (by decide) (by decide +kernel)
  · rename_i hamp _ _ hlt _
    exact keeps_plain (by simpa using Ne.symm hlt) (by simpa using Ne.symm hamp)

theorem keeps_flatMap {α : Type} {f : α → List Char} : ∀ {l : List α}, (∀ x ∈ l, Turns outsideStep (f x) (f x)) →
    Turns outsideStep (l.flatMap f) (l.flatMap f)
  | [], _ => .nil
  | x :: l, h => by
    rw [List.flatMap_cons]
    exact (h x (by simp)).append (keeps_flatMap fun y hy => h y (by simp [hy]))

theorem keeps_attributeText {e : String × String} (h : isName e.1 = true) :
    Turns outsideStep (attributeText e) (attributeText e) := by
  have hsplit : attributeText e = (' ' :: (e.1.toList ++ ['=', '"'])) ++ (e.2.toList.flatMap attributeChar ++ ['"']) := by
    simp [attributeText]
  rw [hsplit]
  refine (keeps_plain ?_ ?_).append ((keeps_flatMap fun c _ => keeps_attributeChar c).append (keeps_plain (by decide) (by decide)))
  · simpa using fun hm => (mem_name h hm).1 rfl
  · simpa using fun hm => (mem_name h hm).2.2 rfl

theorem keeps_startText {tag : String} {a : Attributes} (ht : isName tag = true) (ha : areWritableAttributes a = true)
    {close : List Char} (hclose : close = emptyClose ∨ close = tagClose) :
    Turns outsideStep (startText tag a close) (startText tag a close) := by
  have hname : Turns outsideStep tag.toList tag.toList :=
    keeps_plain (fun hm => (mem_name ht hm).1 rfl) (fun hm => (mem_name ht hm).2.2 rfl)
  have hattributes := keeps_flatMap fun e he => keeps_attributeText ((attributes_iff.1 ha).2 e he).1
  have hend : Turns outsideStep close close := by
    rcases hclose with rfl | rfl <;> exact keeps_plain (by decide) (by decide)
  exact .cons (outsideStep_of_name ht _) (hname.append (hattributes.append hend))

theorem keeps_endText {tag : String} (ht : isName tag = true) : Turns outsideStep (endText tag) (endText tag) := by
  have hplain : Turns outsideStep ('/' :: (tag.toList ++ tagClose)) ('/' :: (tag.toList ++ tagClose)) := by
    refine keeps_plain ?_ ?_
    · simpa [tagClose] using fun hm => (mem_name ht hm).1 rfl
    · simpa [tagClose] using fun hm => (mem_name ht hm).2.2 rfl
  exact .cons (fun rest => outsideStep_of_tag rfl) hplain

theorem keeps_comment {content : List Char} (h : isWritableComment content = true) :
    Turns outsideStep (commentOpen ++ (content ++ commentClose)) (commentOpen ++ (content ++ commentClose)) := by
  obtain ⟨hlt, hamp, -⟩ := isWritableComment_iff.1 h
  have hplain : Turns outsideStep ('!' :: '-' :: '-' :: (content ++ commentClose)) ('!' :: '-' :: '-' :: (content ++ commentClose)) :=
    keeps_plain (by simpa [commentClose] using hlt) (by simpa [commentClose] using hamp)
  exact .cons (fun rest => outsideStep_of_tag rfl) hplain

/-- Verbatim text is passed over as a whole. -/
theorem keeps_cdata {content : List Char} (h : occurs cdataClose content = false) :
    Turns outsideStep (cdataOpen ++ (content ++ cdataClose)) (cdataOpen ++ (content ++ cdataClose)) := by
  refine .taken (by simp [cdataOpen]) fun rest => ?_
  have hcut : cut cdataClose (content ++ (cdataClose ++ rest)) = some (content, rest) := cut_mark (by decide) h rest
  have hverbatim : verbatim? (cdataOpen ++ (content ++ cdataClose) ++ rest) = some (cdataOpen ++ (content ++ cdataClose)) := by
    rw [verbatim?, List.append_assoc, strip?_append, List.append_assoc]
    simp [hcut]
  rw [outsideStep, hverbatim]
  rfl

mutual

theorem keeps_strict : ∀ n : Node, isWritable n = true → Turns outsideStep (strict n) (strict n)
  | .text content, h => by
    rw [isWritable, isWritableText_iff] at h
    rw [strict]
    exact keeps_plain h.2.1 h.2.2.1
  | .comment content, h => by
    rw [isWritable] at h
    rw [strict]
    exact keeps_comment h
  | .cdata _, h => by cases h
  | .element tag a [], h => by
    obtain ⟨ht, ha, -⟩ := isWritable_element h
    rw [strict]
    exact keeps_startText ht ha (.inl rfl)
  | .element tag a (n :: rest), h => by
    obtain ⟨ht, ha, ⟨-, hblock⟩ | ⟨-, hall⟩⟩ := isWritable_element h
    · rcases hblock with hnil | ⟨content, hc, hw⟩
      · cases hnil
      · obtain ⟨rfl, rfl⟩ := List.cons.inj hc
        rw [strict, strict, strictAll, List.append_nil]
        have hcdata := keeps_cdata (isWritableContent_iff.1 hw).2.1
        exact (keeps_startText ht ha (.inr rfl)).append (hcdata.append (keeps_endText ht))
    · have hrest := areWritable_cons.1 hall
      rw [strict]
      have hchildren := (keeps_strict n hrest.1).append (keeps_strictAll rest hrest.2.1)
      exact (keeps_startText ht ha (.inr rfl)).append (hchildren.append (keeps_endText ht))

theorem keeps_strictAll : ∀ nodes : List Node, areWritable nodes = true → Turns outsideStep (strictAll nodes) (strictAll nodes)
  | [], _ => .nil
  | n :: rest, h => by
    have h := areWritable_cons.1 h
    rw [strictAll]
    exact (keeps_strict n h.1).append (keeps_strictAll rest h.2.1)

end

/-- Protecting the markup of a writable node marks its verbatim text, and nothing else. -/
theorem protect_markup {n : Node} (h : isWritable n = true) : protect n.markup.toList = strict n := by
  rw [protect, wrapEnding_eq, (wraps_markup n h).substitute_eq, replaceOutside_eq, (keeps_strict n h).substitute_eq]

end EmailMarkup.Template
