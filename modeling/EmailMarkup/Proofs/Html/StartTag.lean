import EmailMarkup.Proofs.Html.Tag
/-!
# Start tags with another style

A start tag is put together from a name, the text of its attributes and perhaps a slash (`Composed`). If it can take a
style (`takesStyle`), the text that is written with this style reads as the same tag with the same other attributes
(`StartTag.IsRead.withStyle`).
-/
namespace EmailMarkup.Html

open EmailMarkup.Text

/-! ## Parts of a start tag -/

/-- The slash at the end of a tag that is closed at once. -/
def slash (closed : Bool) : List Char := if closed then ['/'] else []

/-- What stands between `<` and `>`: a name, the text of attributes and perhaps a slash. -/
structure Composed (inner name attributes : List Char) (closed : Bool) : Prop where
  eq : inner = name ++ (attributes ++ slash closed)
  name_ne_nil : name ≠ []
  name_not_blank : ∀ c ∈ name, isAsciiBlank c = false
  not_declaration : name.head? ≠ some '!'
  attributes_blank : ∀ c ∈ attributes.head?, isAsciiBlank c = true
  closed_eq : endsWith ['/'] inner = closed

/-- The name ends where the attributes begin. -/
theorem span_name {name attributes : List Char} (hname : ∀ c ∈ name, isAsciiBlank c = false)
    (hattributes : ∀ c ∈ attributes.head?, isAsciiBlank c = true) :
    (name ++ attributes).takeWhile (fun c => !isAsciiBlank c) = name ∧
      (name ++ attributes).dropWhile (fun c => !isAsciiBlank c) = attributes :=
  span_append (fun c hc => by simp [hname c hc]) fun c hc => by simp [hattributes c hc]

theorem eq_append_slash {inner : List Char} (h : endsWith ['/'] inner = true) : inner = inner.dropLast ++ ['/'] := by
  rcases List.eq_nil_or_concat inner with rfl | ⟨s, c, rfl⟩
  · cases h
  · rw [List.concat_eq_append, endsWith_concat, beq_iff_eq] at h
    simp [← h]

theorem Composed.content_eq {inner name attributes : List Char} {closed : Bool} (h : Composed inner name attributes closed) :
    (if closed then inner.dropLast else inner) = name ++ attributes := by
  cases closed <;> simp [h.eq, slash]

/-- The tag that a composed text reads as. -/
theorem Composed.startTag?_eq {inner name attributes : List Char} {closed : Bool} (h : Composed inner name attributes closed) :
    ∃ style, startTag? inner = some ⟨attributeKey name, Attributes.empty.addAll (Scan.run {} attributes).entries,
        '<' :: inner ++ ['>'], style, closed⟩ ∧
      (style = none ∨ ∃ pre q value, StyleAt attributes pre q value ∧
        style = some (1 + name.length + pre.length + 1, value.length)) := by
  have hspan := span_name h.name_not_blank h.attributes_blank
  have hfuel : attributes.length ≤ (name ++ attributes).length := by simp
  have hlength : attributes.length ≤ 1 + (name ++ attributes).length := Nat.le_add_left_of_le hfuel
  obtain ⟨hattributes, hstyle⟩ := readAttributes_spec hfuel hlength {}
  generalize hr : readAttributes (1 + (name ++ attributes).length) (name ++ attributes).length {} attributes = found at *
  refine ⟨found.style, ?_, ?_⟩
  · have hdrop : (name ++ attributes).drop name.length = attributes := List.drop_left
    rw [startTag?, h.closed_eq]
    simp only [h.content_eq, hspan.1, hdrop, hr]
    obtain ⟨c, name, rfl⟩ := List.exists_cons_of_ne_nil h.name_ne_nil
    have hdecl : c ≠ '!' := fun he => h.not_declaration (by simp [he])
    simp only [hdecl, if_false, hattributes]
    rfl
  · rcases hstyle with hstyle | ⟨pre, q, value, hat, hstyle⟩
    · exact .inl hstyle
    · refine .inr ⟨pre, q, value, hat, hstyle.trans ?_⟩
      have hplace : 1 + (name ++ attributes).length - attributes.length = 1 + name.length := by
        rw [List.length_append]
        omega
      rw [hplace]

theorem exists_composed {inner : List Char} {tag : StartTag} (h : startTag? inner = some tag) :
    ∃ name attributes, Composed inner name attributes tag.closed := by
  rw [startTag?] at h
  generalize hclosed : endsWith ['/'] inner = closed at h
  obtain ⟨name, attributes, hcontent, hname, hattributes⟩ :=
    exists_span (fun c => !isAsciiBlank c) (if closed then inner.dropLast else inner)
  have hspan := span_append hname hattributes
  simp only [hcontent, hspan.1] at h
  cases name with
  | nil => cases h
  | cons c name =>
    simp only at h
    split at h
    · cases h
    · rename_i hdecl
      obtain rfl := Option.some.inj h
      refine ⟨c :: name, attributes, ⟨?_, by simp, fun d hd => by simpa using hname d hd, by simpa using hdecl,
        fun d hd => by simpa using hattributes d hd, hclosed⟩⟩
      rw [← List.append_assoc, ← hcontent]
      cases closed with
      | true => exact eq_append_slash hclosed
      | false => simp [slash]

namespace StartTag

def inner (t : StartTag) : List Char := (t.text.drop 1).dropLast

/-- Where the reading of attributes stands at a place in the text. -/
def scanTo (t : StartTag) (place : Nat) : Scan :=
  Scan.run {} (((t.text.take place).drop 1).dropWhile fun c => !isAsciiBlank c)

/-- The attributes as they are written, also those that are written twice. -/
def written (t : StartTag) : List (String × String) := (t.scanTo (t.text.length - 1 - (slash t.closed).length)).entries

def styleCount (t : StartTag) : Nat := t.written.countP fun e => e.1 == "style"

/-- The tag is what its text reads as. -/
structure IsRead (t : StartTag) (name attributes : List Char) : Prop where
  composed : Composed t.inner name attributes t.closed
  read : startTag? t.inner = some t
  passes : Passes quotesOnly '>' {} t.inner {}
  head : name.head? ≠ some '/' ∧ name.head? ≠ some '?'

/-- A composed text in which no `>` stands outside quotes gives a tag. -/
theorem isRead_of_composed {inner name attributes : List Char} {closed : Bool} (h : Composed inner name attributes closed)
    (hpasses : Passes quotesOnly '>' {} inner {}) (hhead : name.head? ≠ some '/' ∧ name.head? ≠ some '?') :
    ∃ t : StartTag, t.IsRead name attributes ∧ t.text = '<' :: inner ++ ['>'] ∧ t.name = attributeKey name ∧
      t.closed = closed := by
  obtain ⟨style, hread, -⟩ := h.startTag?_eq
  have hinner : (('<' :: inner ++ ['>']).drop 1).dropLast = inner := by simp
  refine ⟨⟨attributeKey name, Attributes.empty.addAll (Scan.run {} attributes).entries, '<' :: inner ++ ['>'], style,
    closed⟩, ⟨?_, ?_, ?_, hhead⟩, rfl, rfl, rfl⟩
  · rw [StartTag.inner, hinner]
    exact h
  · rw [StartTag.inner, hinner, hread]
  · rw [StartTag.inner, hinner]
    exact hpasses

namespace IsRead

variable {t : StartTag} {name attributes : List Char} (h : t.IsRead name attributes)

include h

theorem text_eq_inner : t.text = '<' :: t.inner ++ ['>'] := by
  obtain ⟨style, hread, -⟩ := h.composed.startTag?_eq
  exact congrArg StartTag.text (Option.some.inj (h.read.symm.trans hread))

theorem text_eq : t.text = '<' :: (name ++ (attributes ++ (slash t.closed ++ ['>']))) := by
  rw [h.text_eq_inner, h.composed.eq]
  simp

theorem name_eq : t.name = attributeKey name := by
  obtain ⟨style, hread, -⟩ := h.composed.startTag?_eq
  exact congrArg StartTag.name (Option.some.inj (h.read.symm.trans hread))

theorem style_cases : t.style = none ∨ ∃ pre q value, StyleAt attributes pre q value ∧
    t.style = some (1 + name.length + pre.length + 1, value.length) := by
  obtain ⟨style, hread, hstyle⟩ := h.composed.startTag?_eq
  rwa [congrArg StartTag.style (Option.some.inj (h.read.symm.trans hread))]

/-- The text at a place among the attributes. -/
theorem split_at {pre rest : List Char} (hpre : attributes = pre ++ rest) :
    t.text.take (1 + name.length + pre.length) = '<' :: (name ++ pre) ∧
      t.text.drop (1 + name.length + pre.length) = rest ++ (slash t.closed ++ ['>']) := by
  have hlength : 1 + name.length + pre.length = ('<' :: (name ++ pre)).length := by
    simp only [List.length_cons, List.length_append]
    omega
  have hsplit : t.text = '<' :: (name ++ pre) ++ (rest ++ (slash t.closed ++ ['>'])) := by
    simp [h.text_eq, hpre]
  rw [hlength, hsplit]
  exact ⟨List.take_left, List.drop_left⟩

theorem scanTo_eq {pre rest : List Char} (hpre : attributes = pre ++ rest) :
    t.scanTo (1 + name.length + pre.length) = Scan.run {} pre := by
  have hblank : ∀ c ∈ pre.head?, isAsciiBlank c = true := fun c hc =>
    h.composed.attributes_blank c (by rw [hpre, List.head?_append, Option.mem_def.1 hc]; rfl)
  rw [scanTo, (h.split_at hpre).1, List.drop_one, List.tail_cons, (span_name h.composed.name_not_blank hblank).2]

theorem written_eq : t.written = (Scan.run {} attributes).entries := by
  have hplace : t.text.length - 1 - (slash t.closed).length = 1 + name.length + attributes.length := by
    rw [h.text_eq]
    simp
    omega
  rw [written, hplace, h.scanTo_eq (List.append_nil _).symm]

theorem attributes_eq : t.attributes = .ofList t.written := by
  obtain ⟨style, hread, -⟩ := h.composed.startTag?_eq
  rw [h.written_eq]
  exact congrArg StartTag.attributes (Option.some.inj (h.read.symm.trans hread))

end IsRead

/-! ## Another style -/

/-- Whether the tag, written with a new `style` value, is the same tag with this style. A new attribute needs a place
where no value is still to come, in a tag that has no `style` yet. A value in the place of another one must not have the
quote that closes it, and this quote must not close one that stands before. -/
def takesStyle (t : StartTag) (value : List Char) : Bool :=
  match t.style with
  | none => t.styleCount == 0 && !(t.scanTo t.insertionPoint).mode.isPending
  | some (start, length) =>
    match t.text.drop (start - 1) with
    | [] => false
    | q :: rest =>
      startsWith [q] (rest.drop length) && !value.contains q &&
        (((t.text.take (start - 1)).drop 1).foldl (Nesting.step quotesOnly) {}).isOutside

/-- `t'` is `t` with another `style` value. -/
structure Restyled (t t' : StartTag) (value : List Char) : Prop where
  text_eq : t'.text = t.withStyle value
  name_eq : t'.name = t.name
  closed_eq : t'.closed = t.closed
  others : t'.attributes.without ["style"] = t.attributes.without ["style"]
  style : t'.attributes.get? "style" = some (String.ofList value)
  styleCount_le : t'.styleCount ≤ 1

end StartTag

theorem stripEnd?_concat (q : Char) (s : List Char) : stripEnd? [q] (s ++ [q]) = some s := by
  simp [stripEnd?, strip?]

theorem stripEnd?_eq_none {q : Char} {s : List Char} (h : endsWith [q] s = false) : stripEnd? [q] s = none := by
  simpa [endsWith] using h

theorem endsWith_append {q : Char} {t : List Char} (ht : t ≠ []) (s : List Char) : endsWith [q] (s ++ t) = endsWith [q] t := by
  obtain ⟨u, c, rfl⟩ := (List.eq_nil_or_concat t).resolve_left ht
  rw [List.concat_eq_append, ← List.append_assoc, endsWith_concat, endsWith_concat]

namespace StartTag

variable {t : StartTag} {name attributes value : List Char}

/-- New attributes go behind all attributes but for spaces. -/
theorem IsRead.insertionPoint_eq (h : t.IsRead name attributes) : ∃ pre spaces, attributes = pre ++ spaces ∧
    (∀ c ∈ spaces, c = ' ') ∧ (t.closed = false → spaces = []) ∧ t.insertionPoint = 1 + name.length + pre.length := by
  have htext : t.text.dropLast = '<' :: t.inner := by rw [h.text_eq_inner, List.dropLast_concat]
  rw [insertionPoint, htext]
  cases hclosed : t.closed with
  | false =>
    have hinner : t.inner = name ++ attributes := by simp [h.composed.eq, hclosed, slash]
    have hends : endsWith ['/'] (['<'] ++ t.inner) = false := by
      rw [endsWith_append (by simp [hinner, h.composed.name_ne_nil]), h.composed.closed_eq, hclosed]
    refine ⟨attributes, [], by simp, by simp, fun _ => rfl, ?_⟩
    rw [List.singleton_append] at hends
    rw [stripEnd?_eq_none hends, hinner]
    simp only [List.length_cons, List.length_append]
    omega
  | true =>
    obtain ⟨spaces, pre, hsplit, hspaces, hpre⟩ := exists_span (· == ' ') attributes.reverse
    have hattributes : attributes = pre.reverse ++ spaces.reverse := by
      rw [← List.reverse_append, ← hsplit, List.reverse_reverse]
    have hinner : '<' :: t.inner = '<' :: (name ++ pre.reverse) ++ spaces.reverse ++ ['/'] := by
      simp [h.composed.eq, hclosed, slash, hattributes]
    have hlast : ∀ c ∈ ('<' :: (name ++ pre.reverse)).reverse.head?, (c == ' ') = false := by
      have hreverse : ('<' :: (name ++ pre.reverse)).reverse = pre ++ (name.reverse ++ ['<']) := by simp
      rw [hreverse]
      intro c hc
      cases pre with
      | cons d pre => exact hpre c hc
      | nil =>
        obtain ⟨d, u, hd⟩ := List.exists_cons_of_ne_nil (List.reverse_ne_nil_iff.2 h.composed.name_ne_nil)
        rw [hd] at hc
        obtain rfl := Option.some.inj hc
        have hblank : isAsciiBlank d = false := h.composed.name_not_blank d (List.mem_reverse.1 (by simp [hd]))
        simp_all [isAsciiBlank]
    refine ⟨pre.reverse, spaces.reverse, hattributes, by simpa using hspaces, by simp, ?_⟩
    rw [hinner, stripEnd?_concat]
    simp only
    rw [trimEnd_append (by simpa using hspaces) hlast]
    simp only [List.length_cons, List.length_append]
    omega

def styleName : List Char := ['s', 't', 'y', 'l', 'e']

def styleAttribute (value : List Char) : List Char := ' ' :: (styleName ++ '=' :: ('"' :: value ++ ['"']))

theorem attributeKey_styleName : attributeKey styleName = "style" := by decide

theorem withStyle_eq_withText (h : t.style = none) (value : List Char) :
    t.withStyle value = t.withText (styleAttribute value) := by
  have hliteral : " style=\"".toList = ' ' :: (styleName ++ ['=', '"']) := by decide
  rw [withStyle, h, hliteral]
  simp [styleAttribute]

theorem entries_styleAttribute {m : Mode} (hm : m.isPending = false) (hvalue : '"' ∉ value) {spaces : List Char}
    (hspaces : ∀ c ∈ spaces, isAsciiBlank c = true) (l : List (String × String)) :
    (Scan.run ⟨m, l⟩ (styleAttribute value ++ spaces)).entries = l ++ m.entry ++ [("style", String.ofList value)] := by
  have hequals (l : List (String × String)) : Scan.run ⟨.between, l⟩ (styleName ++ ['=']) = ⟨.equals styleName, l⟩ := by
    have hname : ∀ c ∈ styleName, isNameChar c = true := by simp [styleName, isNameChar, isAsciiBlank]
    simpa using @Scan.run_equals [] styleName [] (by simp) (by decide) hname (by simp) [] (by simp) l
  have hsplit : styleAttribute value ++ spaces =
      ' ' :: 's' :: (['t', 'y', 'l', 'e', '='] ++ (('"' :: value ++ ['"']) ++ spaces)) := by
    simp [styleAttribute, styleName]
  rw [hsplit, Scan.run_space hm (by decide)]
  have hjoin : 's' :: (['t', 'y', 'l', 'e', '='] ++ (('"' :: value ++ ['"']) ++ spaces)) =
      (styleName ++ ['=']) ++ (('"' :: value ++ ['"']) ++ spaces) := by simp [styleName]
  rw [hjoin, Scan.run_append, hequals, Scan.run_append, Scan.run_value (.inl rfl) hvalue, Scan.entries_blanks rfl hspaces,
    Mode.entry, attributeKey_styleName]

/-- The text of a tag with other attributes in the place of those it has. -/
structure Rewrites (t : StartTag) (name attributes text : List Char) : Prop where
  composed : Composed (name ++ (attributes ++ slash t.closed)) name attributes t.closed
  passes : Passes quotesOnly '>' {} (name ++ (attributes ++ slash t.closed)) {}
  text_eq : '<' :: (name ++ (attributes ++ slash t.closed)) ++ ['>'] = text

/-- A new attribute at a place where no value is still to come. -/
theorem IsRead.insertStyle (h : t.IsRead name attributes)
    (hpending : (t.scanTo t.insertionPoint).mode.isPending = false) (hvalue : '"' ∉ value) :
    ∃ attributes', Rewrites t name attributes' (t.withText (styleAttribute value)) ∧
      (Scan.run {} attributes').entries = t.written ++ [("style", String.ofList value)] := by
  obtain ⟨pre, spaces, hsplit, hspaces, hopen, hplace⟩ := h.insertionPoint_eq
  have hscan : t.scanTo t.insertionPoint = Scan.run {} pre := by rw [hplace, h.scanTo_eq hsplit]
  rw [hscan] at hpending
  have hblank : ∀ c ∈ spaces, isAsciiBlank c = true := fun c hc => by rw [hspaces c hc]; rfl
  have htail : ∀ c ∈ spaces ++ slash t.closed, c ≠ '"' ∧ c ≠ '\'' ∧ c ≠ '>' := by
    intro c hc
    have hchar : c = ' ' ∨ c = '/' := by
      rcases List.mem_append.1 hc with hc | hc
      · exact .inl (hspaces c hc)
      · cases hclosed : t.closed <;> simp_all [slash]
    rcases hchar with rfl | rfl <;> decide
  refine ⟨pre ++ (styleAttribute value ++ spaces), ⟨?_, ?_, ?_⟩, ?_⟩
  · refine ⟨rfl, h.composed.name_ne_nil, h.composed.name_not_blank, h.composed.not_declaration, fun c hc => ?_, ?_⟩
    · cases pre with
      | nil =>
        obtain rfl := Option.some.inj hc
        rfl
      | cons d pre => exact h.composed.attributes_blank c (by rw [hsplit]; exact hc)
    · cases hclosed : t.closed with
      | true => simpa [slash] using endsWith_concat '/' '/' (name ++ (pre ++ (styleAttribute value ++ spaces)))
      | false =>
        obtain rfl := hopen hclosed
        simpa [slash, styleAttribute] using
          endsWith_concat '/' '"' (name ++ (pre ++ ' ' :: (styleName ++ '=' :: '"' :: value)))
  · have hinner : t.inner = (name ++ pre) ++ (spaces ++ slash t.closed) := by simp [h.composed.eq, hsplit]
    have hpre : Passes quotesOnly '>' {} (name ++ pre) {} := (hinner ▸ h.passes).eq_of_plain
      ⟨fun hc => (htail _ hc).1 rfl, fun hc => (htail _ hc).2.1 rfl⟩
    have hnew : Passes quotesOnly '>' {} (' ' :: (styleName ++ ['=']) ++ ('"' :: value ++ ['"'])) {} :=
      (Passes.plain (by simp [styleName])).append (Passes.quoted (.inl rfl) (by decide) hvalue)
    simpa [styleAttribute] using hpre.append (hnew.append (Passes.plain htail))
  · obtain ⟨htake, hdrop⟩ := h.split_at hsplit
    rw [withText, hplace, htake, hdrop]
    simp
  · have hwritten : t.written = (Scan.run {} pre).entries := by
      rw [h.written_eq, hsplit, Scan.run_append]
      exact Scan.entries_blanks hpending hblank _
    rw [Scan.run_append, hwritten]
    exact entries_styleAttribute hpending hvalue hblank _

/-- A tag that takes a value in the place of a quoted one has the closing quote, which does not close another value. -/
theorem IsRead.closes_of_takesStyle (h : t.IsRead name attributes) {pre old : List Char} {q : Char}
    (hat : StyleAt attributes pre q old) (hstyle : t.style = some (1 + name.length + pre.length + 1, old.length))
    (htakes : t.takesStyle value = true) : ∃ post, attributes = pre ++ q :: (old ++ q :: post) ∧ q ∉ value ∧
      Passes quotesOnly '>' {} (name ++ pre) {} := by
  obtain ⟨tail, hsplit, hquoted⟩ := hat.quoted
  obtain ⟨htake, hdrop⟩ := h.split_at hsplit
  have hpasses : Passes quotesOnly '>' {} ((name ++ pre) ++ (tail ++ slash t.closed)) {} := by
    simpa [h.composed.eq, hsplit] using h.passes
  obtain ⟨n, hpre, -⟩ := Passes.append_iff.1 hpasses
  rw [takesStyle, hstyle] at htakes
  simp only [Nat.add_sub_cancel, htake, hdrop, List.drop_one, List.tail_cons, hpre.foldl_eq] at htakes
  rcases hquoted.eq with rfl | ⟨post, rfl⟩
  · -- without a closing quote the tag ends behind the value
    cases hclosed : t.closed <;> rcases hquoted.isQuote with rfl | rfl <;>
      simp [hclosed, slash, startsWith, strip?] at htakes
  · simp only [List.cons_append, List.append_assoc, List.drop_left, Bool.and_eq_true, Bool.not_eq_true',
      List.contains_eq_mem, decide_eq_false_iff_not] at htakes
    exact ⟨post, hsplit, htakes.1.2, hpre.eq_outside htakes.2 ▸ hpre⟩

/-- Another value between two quotes. -/
theorem IsRead.replaceQuoted (h : t.IsRead name attributes) {pre old post : List Char} {q : Char}
    (hsplit : attributes = pre ++ q :: (old ++ q :: post)) (hne : pre ≠ []) (hq : q = '"' ∨ q = '\'') (hold : q ∉ old)
    (hvalue : q ∉ value) (hpre : Passes quotesOnly '>' {} (name ++ pre) {})
    (hstyle : t.style = some (1 + name.length + pre.length + 1, old.length)) :
    Rewrites t name (pre ++ q :: (value ++ q :: post)) (t.withStyle value) := by
  have hinner : t.inner = name ++ (pre ++ q :: (old ++ q :: post) ++ slash t.closed) := by rw [h.composed.eq, hsplit]
  have hends (v : List Char) : endsWith ['/'] (name ++ (pre ++ q :: (v ++ q :: post) ++ slash t.closed)) =
      endsWith ['/'] (q :: (post ++ slash t.closed)) := by
    simpa using endsWith_append (q := '/') (t := q :: (post ++ slash t.closed)) (by simp) (name ++ (pre ++ q :: v))
  constructor
  · refine ⟨rfl, h.composed.name_ne_nil, h.composed.name_not_blank, h.composed.not_declaration, fun c hc => ?_, ?_⟩
    · obtain ⟨d, pre, rfl⟩ := List.exists_cons_of_ne_nil hne
      exact h.composed.attributes_blank c (by rw [hsplit]; exact hc)
    · rw [hends, ← hends old, ← hinner, h.composed.closed_eq]
  · have hpasses : Passes quotesOnly '>' {} ((name ++ pre) ++ ((q :: old ++ [q]) ++ (post ++ slash t.closed))) {} := by
      simpa [hinner] using h.passes
    have hseparator : q ≠ '>' := by rcases hq with rfl | rfl <;> decide
    obtain ⟨n₁, hn₁, hpasses⟩ := Passes.append_iff.1 hpasses
    obtain rfl := hn₁.unique hpre
    obtain ⟨n₂, hn₂, hpost⟩ := Passes.append_iff.1 hpasses
    obtain rfl := hn₂.unique (Passes.quoted hq hseparator hold)
    simpa using hpre.append ((Passes.quoted hq hseparator hvalue).append hpost)
  · have hsplit₁ : attributes = (pre ++ [q]) ++ (old ++ q :: post) := by simpa using hsplit
    have hsplit₂ : attributes = (pre ++ q :: old) ++ q :: post := by simpa using hsplit
    have hplace₁ : 1 + name.length + pre.length + 1 = 1 + name.length + (pre ++ [q]).length := by
      simp only [List.length_append, List.length_singleton]
      omega
    have hplace₂ : 1 + name.length + pre.length + 1 + old.length = 1 + name.length + (pre ++ q :: old).length := by
      simp only [List.length_append, List.length_cons]
      omega
    rw [StartTag.withStyle, hstyle]
    simp only
    rw [hplace₂, hplace₁, (h.split_at hsplit₁).1, (h.split_at hsplit₂).2]
    simp

/-- A value in the place of a quoted style. -/
theorem IsRead.replaceStyle (h : t.IsRead name attributes) {pre old : List Char} {q : Char} (hat : StyleAt attributes pre q old)
    (hstyle : t.style = some (1 + name.length + pre.length + 1, old.length)) (htakes : t.takesStyle value = true) :
    ∃ attributes' l w, Rewrites t name attributes' (t.withStyle value) ∧
      t.written = l ++ ("style", String.ofList old) :: w ∧
      (Scan.run {} attributes').entries = l ++ ("style", String.ofList value) :: w := by
  obtain ⟨post, hsplit, hvalue, hpre⟩ := h.closes_of_takesStyle hat hstyle htakes
  obtain ⟨_, _, hquoted⟩ := hat.quoted
  obtain ⟨n, l, hrun, hkey⟩ := hat.mode
  have hq := hquoted.isQuote
  have hne : pre ≠ [] := by
    rintro rfl
    cases hrun
  have hentries {v : List Char} (hv : q ∉ v) : (Scan.run {} (pre ++ q :: (v ++ q :: post))).entries =
      l ++ ("style", String.ofList v) :: (Scan.run {} post).entries := by
    have hjoin : pre ++ q :: (v ++ q :: post) = pre ++ ((q :: v ++ [q]) ++ post) := by simp
    rw [hjoin, Scan.run_append, hrun, Scan.run_append, Scan.run_value hq hv, Scan.entries_run_of_stops fun _ _ => rfl,
      Scan.entries_run, Mode.entry, hkey]
    simp
  refine ⟨pre ++ q :: (value ++ q :: post), l, (Scan.run {} post).entries,
    h.replaceQuoted hsplit hne hq hquoted.not_mem hvalue hpre hstyle, ?_, hentries hvalue⟩
  rw [h.written_eq, hsplit, hentries hquoted.not_mem]

/-- Where only `x` names the style, `value` in its place is the style, and other attributes stay. -/
theorem addAll_style {l x w : List (String × String)} (hx : ∀ e ∈ x, e.1 = "style") (hl : ∀ e ∈ l ++ w, e.1 ≠ "style")
    (value : String) : (Attributes.ofList (l ++ ("style", value) :: w)).without ["style"] =
        (Attributes.ofList (l ++ (x ++ w))).without ["style"] ∧
      (Attributes.ofList (l ++ ("style", value) :: w)).get? "style" = some value := by
  obtain ⟨hl, hw⟩ := List.forall_mem_append.1 hl
  constructor
  · have hfilter : x.filter (fun e => e.1 != "style") = [] := by simpa using hx
    rw [Attributes.ofList, Attributes.ofList, ← Attributes.addAll, ← Attributes.addAll, Attributes.without_addAll,
      Attributes.without_addAll]
    simp [hfilter]
  · have hsplit : Attributes.ofList (l ++ ("style", value) :: w) = ((Attributes.ofList l).insert "style" value).addAll w := by
      simp [Attributes.ofList, Attributes.addAll]
    rw [hsplit, Attributes.get?_addAll hw, Attributes.get?_insert_self]

/-- A tag that can take a style is the same tag with this style when it is read again. -/
theorem IsRead.withStyle (h : t.IsRead name attributes) (hcount : t.styleCount ≤ 1) (hvalue : '"' ∉ value)
    (htakes : t.takesStyle value = true) : ∃ t' attributes', IsRead t' name attributes' ∧ Restyled t t' value := by
  -- in both cases one entry for the style is put in
  have hnew : ∃ attributes' l x w, Rewrites t name attributes' (t.withStyle value) ∧ t.written = l ++ (x ++ w) ∧
      (∀ e ∈ x, e.1 = "style") ∧ (∀ e ∈ l ++ w, e.1 ≠ "style") ∧
      (Scan.run {} attributes').entries = l ++ ("style", String.ofList value) :: w := by
    rcases h.style_cases with hstyle | ⟨pre, q, old, hat, hstyle⟩
    · rw [takesStyle, hstyle, Bool.and_eq_true, beq_iff_eq, Bool.not_eq_true'] at htakes
      obtain ⟨attributes', hrewrites, hentries⟩ := h.insertStyle htakes.2 hvalue
      have hnone : ∀ e ∈ t.written, e.1 ≠ "style" := by simpa [styleCount, List.countP_eq_zero] using htakes.1
      rw [withStyle_eq_withText hstyle]
      exact ⟨attributes', t.written, [], [], hrewrites, by simp, by simp, by simpa using hnone, hentries⟩
    · obtain ⟨attributes', l, w, hrewrites, hwritten, hentries⟩ := h.replaceStyle hat hstyle htakes
      have hnone : ∀ e ∈ l ++ w, e.1 ≠ "style" := by
        rw [styleCount, hwritten, List.countP_append, List.countP_cons_of_pos (by simp)] at hcount
        have hl : l.countP (fun e => e.1 == "style") = 0 := by omega
        have hw : w.countP (fun e => e.1 == "style") = 0 := by omega
        simp only [List.countP_eq_zero, beq_iff_eq] at hl hw
        exact List.forall_mem_append.2 ⟨hl, hw⟩
      exact ⟨attributes', l, [("style", String.ofList old)], w, hrewrites, by simpa using hwritten, by simp, hnone, hentries⟩
  obtain ⟨attributes', l, x, w, hrewrites, hwritten, hx, hnone, hentries⟩ := hnew
  obtain ⟨t', ht', htext, hname, hclosed⟩ := isRead_of_composed hrewrites.composed hrewrites.passes h.head
  have hwritten' : t'.written = l ++ ("style", String.ofList value) :: w := by rw [ht'.written_eq, hentries]
  obtain ⟨hothers, hstyle⟩ := addAll_style hx hnone (String.ofList value)
  refine ⟨t', attributes', ht', htext.trans hrewrites.text_eq, by rw [hname, h.name_eq], hclosed, ?_, ?_, ?_⟩
  · rw [ht'.attributes_eq, h.attributes_eq, hwritten', hwritten, hothers]
  · rw [ht'.attributes_eq, hwritten', hstyle]
  · obtain ⟨hl, hw⟩ := List.forall_mem_append.1 hnone
    have hl : l.countP (fun e => e.1 == "style") = 0 := by simpa [List.countP_eq_zero] using hl
    have hw : w.countP (fun e => e.1 == "style") = 0 := by simpa [List.countP_eq_zero] using hw
    have hone : t'.styleCount = 1 := by
      rw [styleCount, hwritten', List.countP_append, List.countP_cons_of_pos (by simp), hl, hw]
    exact Nat.le_of_eq hone

end StartTag

end EmailMarkup.Html
