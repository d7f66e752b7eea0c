import EmailMarkup.Proofs.Html.Scanner
/-!
# Where start tags stand

The places of start tags in HTML, counted in bytes: each is that of a text from `<` to `>`, they come in order and do not
overlap, and all offsets are character boundaries. A scanner that keeps byte offsets finds the same elements at the same
places, for every text, and never cuts out a text at an offset that is past the end or inside a character
(`Document.parse_spans`).
-/
namespace EmailMarkup.Html

open Document (byteLength)

/-! ## Bytes -/

/-- The byte of an ASCII character. -/
theorem getElem?_bytes {s pre post : List Char} {c : Char} {b : UInt8} (hc : bytes [c] = [b]) (h : s = pre ++ c :: post) :
    (bytes s)[byteLength pre]? = some b := by
  have hsplit : bytes s = bytes pre ++ (b :: bytes post) := by
    rw [h, bytes_append, ← List.singleton_append, bytes_append, hc, List.singleton_append]
  rw [hsplit, ← length_bytes, List.getElem?_append_right (Nat.le_refl _), Nat.sub_self]
  rfl

/-! ## Places in a start tag -/

namespace StartTag.IsRead

variable {t : StartTag} {name attributes : List Char} (h : t.IsRead name attributes)

include h

/-- New attributes go between the `<` and the `>`. -/
theorem insertionPoint_inside : ∃ front back, t.text = front ++ back ∧ t.insertionPoint = front.length ∧ front ≠ [] ∧
    back ≠ [] := by
  obtain ⟨pre, spaces, hsplit, -, -, hplace⟩ := h.insertionPoint_eq
  refine ⟨'<' :: (name ++ pre), spaces ++ (slash t.closed ++ ['>']), by simp [h.text_eq, hsplit], ?_, by simp, by simp⟩
  rw [hplace, List.length_cons, List.length_append]
  omega

/-- The `style` value stands behind a quote. -/
theorem style_inside {start length : Nat} (hstyle : t.style = some (start, length)) : ∃ front q value back,
    t.text = front ++ q :: (value ++ back) ∧ start = front.length + 1 ∧ length = value.length ∧ (q = '"' ∨ q = '\'') ∧
      q ∉ value ∧ back ≠ [] := by
  rcases h.style_cases with hnone | ⟨pre, q, value, hat, hplace⟩
  · rw [hstyle] at hnone
    cases hnone
  · obtain ⟨tail, hsplit, hquoted⟩ := hat.quoted
    obtain ⟨rfl, rfl⟩ := Prod.mk.inj (Option.some.inj (hstyle.symm.trans hplace))
    obtain ⟨rest, hrest⟩ : ∃ rest, tail = q :: (value ++ rest) := by
      rcases hquoted.eq with rfl | ⟨rest, rfl⟩
      · exact ⟨[], by simp⟩
      · exact ⟨q :: rest, rfl⟩
    refine ⟨'<' :: (name ++ pre), q, value, rest ++ (slash t.closed ++ ['>']), ?_, ?_, rfl, hquoted.isQuote, hquoted.not_mem,
      by simp⟩
    · simp [h.text_eq, hsplit, hrest]
    · rw [List.length_cons, List.length_append]
      omega

end StartTag.IsRead

/-- The start tags of HTML are read off their texts. -/
theorem Scans.isRead {s : List Char} {ps : List Piece} (h : Scans s ps) :
    ∀ t ∈ startTags ps, ∃ name attributes, t.IsRead name attributes := by
  induction h with
  | nil => simp [startTags]
  | text _ _ _ _ ih => exact ih
  | last _ => simp [startTags]
  | @plain p rest ps hp _ _ ih =>
    cases p with
    | start tag => cases hp
    | stop name text => exact ih
    | other text => exact ih
  | start htag _ _ ih => exact List.forall_mem_cons.2 ⟨⟨_, _, htag⟩, ih⟩
  | raw htag _ _ _ ih => exact List.forall_mem_cons.2 ⟨⟨_, _, htag⟩, ih⟩
  | unclosed htag _ _ _ ih => exact List.forall_mem_cons.2 ⟨⟨_, _, htag⟩, ih⟩

/-! ## Places in the text -/

theorem textOf_append (ps qs : List Piece) : textOf (ps ++ qs) = textOf ps ++ textOf qs := List.flatMap_append

namespace Document

theorem length_spansFrom (offset : Nat) (ps : List Piece) : (spansFrom offset ps).length = (startTags ps).length := by
  induction ps generalizing offset with
  | nil => rfl
  | cons p ps ih =>
    cases p with
    | start tag => exact congrArg (· + 1) (ih _)
    | stop name text => exact ih _
    | other text => exact ih _

/-- A start tag stands behind the texts of the pieces before it. -/
theorem spansFrom_split {ps : List Piece} {i : Nat} {t : StartTag} (h : (startTags ps)[i]? = some t) (offset : Nat) :
    ∃ before after, ps = before ++ .start t :: after ∧ (startTags before).length = i ∧
      (spansFrom offset ps)[i]? = some (spanAt (offset + byteLength (textOf before)) t) := by
  induction ps generalizing i offset with
  | nil => simp [startTags] at h
  | cons p ps ih =>
    have hnext (p : Piece) {j : Nat} (hj : (startTags ps)[j]? = some t) : ∃ before after,
        p :: ps = (p :: before) ++ .start t :: after ∧ (startTags before).length = j ∧
        (spansFrom (offset + byteLength p.text) ps)[j]? = some (spanAt (offset + byteLength (textOf (p :: before))) t) := by
      obtain ⟨before, after, rfl, hlength, hspan⟩ := ih hj (offset + byteLength p.text)
      refine ⟨before, after, rfl, hlength, ?_⟩
      rw [hspan, textOf_cons, byteLength_append, Nat.add_assoc]
    cases p with
    | start tag =>
      cases i with
      | zero =>
        obtain rfl : tag = t := Option.some.inj h
        exact ⟨[], ps, rfl, rfl, rfl⟩
      | succ i =>
        obtain ⟨before, after, hps, hlength, hspan⟩ := hnext (.start tag) h
        exact ⟨.start tag :: before, after, hps, congrArg (· + 1) hlength, hspan⟩
    | stop name text =>
      obtain ⟨before, after, hps, hlength, hspan⟩ := hnext (.stop name text) h
      exact ⟨.stop name text :: before, after, hps, hlength, hspan⟩
    | other text =>
      obtain ⟨before, after, hps, hlength, hspan⟩ := hnext (.other text) h
      exact ⟨.other text :: before, after, hps, hlength, hspan⟩

theorem le_start_of_mem_spansFrom {offset : Nat} {ps : List Piece} : ∀ s ∈ spansFrom offset ps, offset ≤ s.start := by
  induction ps generalizing offset with
  | nil => simp [spansFrom]
  | cons p ps ih =>
    have hrest : ∀ s ∈ spansFrom (offset + byteLength p.text) ps, offset ≤ s.start := fun s hs =>
      Nat.le_trans (Nat.le_add_right _ _) (ih s hs)
    cases p with
    | start tag => exact List.forall_mem_cons.2 ⟨Nat.le_refl _, hrest⟩
    | stop name text => exact hrest
    | other text => exact hrest

/-- Start tags do not overlap. -/
theorem pairwise_spansFrom (offset : Nat) (ps : List Piece) : (spansFrom offset ps).Pairwise fun a b => a.stop ≤ b.start := by
  induction ps generalizing offset with
  | nil => exact .nil
  | cons p ps ih =>
    cases p with
    | start tag => exact List.pairwise_cons.2 ⟨le_start_of_mem_spansFrom, ih _⟩
    | stop name text => exact ih _
    | other text => exact ih _

/-! ## The document -/

/-- Where the start tag of an element stands. -/
def spanOf? (d : Document) : Nat → Option Span
  | 0 => none
  | i + 1 => d.spans[i]?

/-- A span is the place of a start tag in HTML: from `<` to `>`, with the place for attributes inside, and the `style`
value inside and behind a quote. No offset splits a character. -/
structure Span.IsPlaceOf (s : Span) (html : String) (t : StartTag) : Prop where
  text : (bytes html.toList).extract s.start s.stop = bytes t.text
  opens : (bytes html.toList)[s.start]? = some '<'.toUInt8
  closes : s.start < s.stop ∧ (bytes html.toList)[s.stop - 1]? = some '>'.toUInt8
  insert : s.start < s.insert ∧ s.insert < s.stop
  boundaries : ∀ n ∈ [s.start, s.stop, s.insert], String.Pos.Raw.IsValid html ⟨n⟩
  style : ∀ a b, s.style = some (a, b) → s.start < a ∧ a ≤ b ∧ b < s.stop ∧
    (∃ q, (q = '"' ∨ q = '\'') ∧ (bytes html.toList)[a - 1]? = some q.toUInt8) ∧
    String.Pos.Raw.IsValid html ⟨a⟩ ∧ String.Pos.Raw.IsValid html ⟨b⟩

/-- The place for attributes, from the text of the tag. -/
theorem spanAt_insert {t : StartTag} {name attributes : List Char} (ht : t.IsRead name attributes) (offset : Nat) :
    ∃ front back, t.text = front ++ back ∧ t.insertionPoint = front.length ∧ front ≠ [] ∧ back ≠ [] ∧
      (spanAt offset t).insert = offset + byteLength front := by
  obtain ⟨front, back, htext, hplace, hfront, hback⟩ := ht.insertionPoint_inside
  refine ⟨front, back, htext, hplace, hfront, hback, ?_⟩
  rw [spanAt, hplace, htext, List.take_left]

/-- The place of the `style` value, from the text of the tag. -/
theorem spanAt_style {t : StartTag} {name attributes : List Char} (ht : t.IsRead name attributes) {offset a b : Nat}
    (hstyle : (spanAt offset t).style = some (a, b)) : ∃ front q value back,
    t.text = front ++ q :: (value ++ back) ∧ t.style = some (front.length + 1, value.length) ∧ (q = '"' ∨ q = '\'') ∧
      back ≠ [] ∧ a = offset + byteLength (front ++ [q]) ∧ b = offset + byteLength (front ++ q :: value) := by
  obtain ⟨⟨start, length⟩, hsome, hplace⟩ := Option.map_eq_some_iff.1 hstyle
  obtain ⟨front, q, value, back, htext, rfl, rfl, hq, -, hback⟩ := ht.style_inside hsome
  have htake_start : t.text.take (front.length + 1) = front ++ [q] := by
    rw [htext, List.take_length_add_append, List.take_succ_cons, List.take_zero]
  have htake_stop : t.text.take (front.length + 1 + value.length) = front ++ q :: value := by
    rw [htext, Nat.add_assoc, List.take_length_add_append, Nat.add_comm, List.take_succ_cons, List.take_left]
  obtain ⟨rfl, rfl⟩ := Prod.mk.inj hplace
  rw [htake_start, htake_stop]
  exact ⟨front, q, value, back, htext, hsome, hq, hback, rfl, rfl⟩

section SpanAt

variable {html : String} {pre post : List Char} {t : StartTag} (h : html.toList = pre ++ (t.text ++ post))

include h

theorem isValid_inside {front back : List Char} (htext : t.text = front ++ back) :
    String.Pos.Raw.IsValid html ⟨byteLength pre + byteLength front⟩ := by
  have hsplit : html.toList = (pre ++ front) ++ (back ++ post) := by simp [h, htext]
  rw [← byteLength_append]
  exact isValid_of_append hsplit

theorem getElem?_inside {front back : List Char} {c : Char} (hc : bytes [c] = [c.toUInt8])
    (htext : t.text = front ++ c :: back) : (bytes html.toList)[byteLength pre + byteLength front]? = some c.toUInt8 := by
  have hsplit : html.toList = (pre ++ front) ++ c :: (back ++ post) := by simp [h, htext]
  rw [← byteLength_append]
  exact getElem?_bytes hc hsplit

theorem text_inside : (bytes html.toList).extract (byteLength pre) (byteLength pre + byteLength t.text) = bytes t.text := by
  rw [← length_bytes, ← length_bytes]
  exact Text.extract_middle (by rw [h, bytes_append, bytes_append])

theorem spanAt_isPlaceOf {name attributes : List Char} (ht : t.IsRead name attributes) :
    (spanAt (byteLength pre) t).IsPlaceOf html t := by
  obtain ⟨front, back, htext, -, hfront, hback, hinsert⟩ := spanAt_insert ht (byteLength pre)
  have hstop : (spanAt (byteLength pre) t).stop = byteLength pre + byteLength ('<' :: t.inner) + 1 := by
    have hone : byteLength ['>'] = 1 := rfl
    rw [spanAt, ht.text_eq_inner, byteLength_append, hone, Nat.add_assoc]
  refine
    { text := text_inside h
      opens := ?_
      closes := ⟨?_, ?_⟩
      insert := ?_
      boundaries := ?_
      style := ?_ }
  · have hfirst : t.text = [] ++ '<' :: (t.inner ++ ['>']) := ht.text_eq_inner
    exact getElem?_inside h rfl hfirst
  · rw [hstop]
    exact Nat.lt_succ_of_le (Nat.le_add_right _ _)
  · rw [hstop, Nat.add_sub_cancel]
    exact getElem?_inside h rfl ht.text_eq_inner
  · have hlength : byteLength t.text = byteLength front + byteLength back := by rw [htext, byteLength_append]
    have hfront_pos := byteLength_pos hfront
    have hback_pos := byteLength_pos hback
    rw [hinsert]
    refine ⟨Nat.lt_add_of_pos_right hfront_pos, Nat.add_lt_add_left ?_ _⟩
    omega
  · have hstart : String.Pos.Raw.IsValid html ⟨byteLength pre⟩ := isValid_of_append h
    have hend : String.Pos.Raw.IsValid html ⟨byteLength pre + byteLength t.text⟩ :=
      isValid_inside h (List.append_nil t.text).symm
    have hmiddle := isValid_inside h htext
    rw [hinsert]
    exact List.forall_mem_cons.2 ⟨hstart, List.forall_mem_cons.2 ⟨hend, List.forall_mem_singleton.2 hmiddle⟩⟩
  · intro a b hstyle
    obtain ⟨front, q, value, back, htext, -, hq, hback, rfl, rfl⟩ := spanAt_style ht hstyle
    have hquote : bytes [q] = [q.toUInt8] := by
      rcases hq with rfl | rfl <;> rfl
    have hone : byteLength [q] = 1 := by
      rw [← length_bytes, hquote]
      rfl
    have hfront_length : byteLength (front ++ [q]) = byteLength front + 1 := by rw [byteLength_append, hone]
    have hvalue_length : byteLength (front ++ q :: value) = byteLength front + 1 + byteLength value := by
      rw [List.append_cons, byteLength_append, hfront_length]
    have hlength : byteLength t.text = byteLength front + 1 + byteLength value + byteLength back := by
      rw [htext, ← List.cons_append, ← List.append_assoc, byteLength_append, hvalue_length]
    have hback_pos := byteLength_pos hback
    have hbefore : t.text = (front ++ [q]) ++ (value ++ back) := by rw [htext, ← List.append_cons]
    have hbehind : t.text = (front ++ q :: value) ++ back := by rw [htext, List.append_assoc, List.cons_append]
    refine ⟨?_, ?_, ?_, ⟨q, hq, ?_⟩, isValid_inside h hbefore, isValid_inside h hbehind⟩
    · exact Nat.lt_add_of_pos_right (by omega)
    · exact Nat.add_le_add_left (by omega) _
    · exact Nat.add_lt_add_left (by omega) _
    · rw [hfront_length, ← Nat.add_assoc, Nat.add_sub_cancel]
      exact getElem?_inside h hquote htext

end SpanAt

/-- A span is that of a start tag, with text before and behind it. -/
theorem parse_spans_split (html : String) {i : Nat} (hi : i < (parse html).spans.length) :
    ∃ pre t post name attributes, html.toList = pre ++ (t.text ++ post) ∧ (startTags (parse html).pieces)[i]? = some t ∧
      t.IsRead name attributes ∧ (parse html).spans[i] = spanAt (byteLength pre) t := by
  have hscans : Scans html.toList (parse html).pieces := scans_piecesFrom (Nat.le_refl _)
  have htags : i < (startTags (parse html).pieces).length := length_spansFrom 0 (parse html).pieces ▸ hi
  obtain ⟨t, ht⟩ : ∃ t, (startTags (parse html).pieces)[i]? = some t := ⟨_, List.getElem?_eq_getElem htags⟩
  obtain ⟨before, after, hsplit, -, hspan⟩ := spansFrom_split ht 0
  obtain ⟨name, attributes, hread⟩ := hscans.isRead t (List.mem_of_getElem? ht)
  rw [Nat.zero_add] at hspan
  refine ⟨textOf before, t, textOf after, name, attributes, ?_, ht, hread, (List.getElem_eq_iff hi).2 hspan⟩
  rw [← hscans.textOf_eq, hsplit, textOf_append, textOf_cons]
  rfl

/-- Every span is the place of its start tag. -/
theorem parse_spans_getElem (html : String) {i : Nat} (hi : i < (parse html).spans.length) :
    ∃ t, (startTags (parse html).pieces)[i]? = some t ∧ (parse html).spans[i].IsPlaceOf html t := by
  obtain ⟨pre, t, post, name, attributes, htext, ht, hread, hspan⟩ := parse_spans_split html hi
  rw [hspan]
  exact ⟨t, ht, spanAt_isPlaceOf htext hread⟩

/-- Start tags come one behind the other. -/
theorem parse_spans_pairwise (html : String) :
    (parse html).spans.Pairwise fun a b => a.start < b.start ∧ a.stop ≤ b.start := by
  refine (pairwise_spansFrom 0 (parse html).pieces).imp_of_mem ?_
  intro a b ha _ hab
  obtain ⟨i, hi, rfl⟩ := List.getElem_of_mem ha
  obtain ⟨t, -, hplace⟩ := parse_spans_getElem html hi
  exact ⟨Nat.lt_of_lt_of_le hplace.closes.1 hab, hab⟩

/-- The scanner has a result for every text: the same elements at the same places. -/
theorem exists_scan?_eq (html : String) : ∃ p, Scanner.scan? html = some p ∧ p.building.forest = (parse html).forest ∧
    (∀ id, p.span? id = ((parse html).spanOf? id).map Span.tag) ∧
    ∀ s ∈ (parse html).spans, Scanner.insertionPoint? html s.tag = some s.insert := by
  have hfits : ({} : Scanner.Progress).Fits := Nat.zero_le _
  refine ⟨_, Scanner.scan?_eq_takeAll html, ?_, fun id => ?_, fun s hs => ?_⟩
  · rw [Scanner.Progress.building_takeAll]
    rfl
  · rw [Scanner.Progress.span?_takeAll hfits]
    cases id with
    | zero => rfl
    | succ i => rfl
  · obtain ⟨i, hi, rfl⟩ := List.getElem_of_mem hs
    obtain ⟨pre, t, post, name, attributes, hsplit, -, hread, hspan⟩ := parse_spans_split html hi
    rw [hspan]
    exact Scanner.insertionPoint?_eq hread ⟨pre, hsplit, rfl⟩

/-- The places of start tags are found for every text, and a scanner that keeps byte offsets finds the same elements at the
same places, without an offset that it cannot cut at and without running out of fuel. The pieces make up the text, and more
fuel finds no more of them. The elements are numbered in document order, as their start tags come. Start tags do not
overlap; each is the place of the text that its element is read from, and its parent is the document or an element that
starts before it. -/
theorem parse_spans (html : String) :
    (∃ p, Scanner.scan? html = some p ∧ p.building.forest = (parse html).forest ∧
      (∀ id, p.span? id = ((parse html).spanOf? id).map Span.tag) ∧
      ∀ s ∈ (parse html).spans, Scanner.insertionPoint? html s.tag = some s.insert) ∧
      textOf (parse html).pieces = html.toList ∧
      (∀ fuel, html.length ≤ fuel → piecesFrom fuel html.toList = (parse html).pieces) ∧
      (parse html).elements = List.range' 1 (parse html).spans.length ∧
      (parse html).spans.Pairwise (fun a b => a.start < b.start ∧ a.stop ≤ b.start) ∧
      ∀ id ∈ (parse html).elements, ∃ t s p, (parse html).spanOf? id = some s ∧ s.IsPlaceOf html t ∧
        (parse html).forest.element? id = some (t.name, t.attributes) ∧ t.attributes = .ofList t.written ∧
        (parse html).forest.parent? id = some p ∧
        (p = Forest.root ∨ p ∈ (parse html).elements ∧ ∃ s', (parse html).spanOf? p = some s' ∧ s'.start < s.start) := by
  have hscans : Scans html.toList (parse html).pieces := scans_piecesFrom (Nat.le_refl _)
  have hlength : (parse html).spans.length = (startTags (parse html).pieces).length := length_spansFrom 0 _
  have helements : (parse html).elements = List.range' 1 (parse html).spans.length := by
    rw [hlength]
    exact elements_eq html.toList
  refine ⟨exists_scan?_eq html, hscans.textOf_eq, fun fuel hfuel => hscans.piecesFrom_eq hfuel, helements, parse_spans_pairwise html, ?_⟩
  intro id hid
  rw [helements] at hid
  obtain ⟨i, hi, rfl⟩ := List.mem_range'.1 hid
  rw [Nat.one_mul, Nat.add_comm 1 i]
  obtain ⟨t, ht, hplace⟩ := parse_spans_getElem html hi
  obtain ⟨name, attributes, hread⟩ := hscans.isRead t (List.mem_of_getElem? ht)
  obtain ⟨p, hp, hparent⟩ := parent?_eq html.toList (hlength ▸ hi)
  refine ⟨t, _, p, List.getElem?_eq_getElem hi, hplace, element?_eq html.toList ht, hread.attributes_eq, hparent, ?_⟩
  cases p with
  | zero => exact .inl rfl
  | succ j =>
    have hj : j < (parse html).spans.length := Nat.lt_trans hp hi
    have hmem : j + 1 ∈ (parse html).elements := by
      rw [helements]
      exact List.mem_range'.2 ⟨j, hj, by omega⟩
    have hbefore := List.pairwise_iff_getElem.1 (parse_spans_pairwise html) j i hj hi hp
    exact .inr ⟨hmem, _, List.getElem?_eq_getElem hj, hbefore.1⟩

end Document

end EmailMarkup.Html
