import EmailMarkup.Proofs.Html.SameTags
import EmailMarkup.Proofs.Number.Text
import EmailMarkup.Render.Outline
import EmailMarkup.Render.Outlook
import EmailMarkup.Render.Style
/-!
# Start tags as they are written

A start tag is read as such, whatever the values of its attributes are, if they have no double quote
(`sameTags_startTag`). Escaped values have none, nor have numbers; a style has none if its values have none.
-/
namespace EmailMarkup.Render

open EmailMarkup.Html
open EmailMarkup.Text

/-! ## Values in quotes -/

/-- A text that can stand in double quotes. -/
def Quotable (s : String) : Prop := '"' ∉ s.toList

instance : DecidablePred Quotable := fun s => inferInstanceAs (Decidable ('"' ∉ s.toList))

@[simp] theorem quotable_append {s t : String} : Quotable (s ++ t) ↔ Quotable s ∧ Quotable t := by
  rw [Quotable, String.toList_append, List.mem_append, not_or]
  rfl

theorem Quotable.join {l : List String} (h : ∀ s ∈ l, Quotable s) : Quotable (String.join l) := by
  rw [Quotable, String.toList_join, List.mem_flatMap]
  rintro ⟨s, hs, hmem⟩
  exact h s hs hmem

/-- Escaped values hold no marks of markup. -/
theorem mem_escape {ctx : Context} (h : ctx.sanitize = true) {value : String} {d : Char} (hd : d ∈ (ctx.escape value).toList) :
    d ≠ '>' ∧ d ≠ '"' := by
  rw [Context.escape, if_pos h, escapeAttribute, String.toList_ofList] at hd
  obtain ⟨c, -, hc⟩ := List.mem_flatMap.1 hd
  exact (mem_attributeChar hc).2

theorem quotable_escape {ctx : Context} (h : ctx.sanitize = true) (value : String) : Quotable (ctx.escape value) :=
  fun hd => (mem_escape h hd).2 rfl

theorem quotable_link {ctx : Context} (h : ctx.sanitize = true) (address : String) : Quotable (ctx.link address) := by
  rw [Context.link]
  split
  · decide
  · exact quotable_escape h address

theorem mem_wholeText {x : Float} {d : Char} (hd : d ∈ (wholeText x).toList) : d ≠ '>' ∧ d ≠ '"' := by
  have hnumber : Number.IsNumberChar d := Number.mem_toString hd
  constructor <;> rintro rfl <;> exact absurd hnumber (by decide)

theorem quotable_wholeText (x : Float) : Quotable (wholeText x) := fun hd => (mem_wholeText hd).2 rfl

theorem quotable_styleText {l : List (String × String)} (h : ∀ e ∈ l, Quotable e.1 ∧ Quotable e.2) : Quotable (styleText l) := by
  refine Quotable.join fun s hs => ?_
  obtain ⟨e, he, rfl⟩ := List.mem_map.1 hs
  obtain ⟨hname, hvalue⟩ := h e (List.mem_filter.1 he).1
  simp +decide [hname, hvalue]

/-! ## Start tags -/

def isPlainChar (c : Char) : Bool := c.isAlphanum || c == '-'

def isPlainName (s : String) : Bool := !s.isEmpty && s.toList.all isPlainChar

theorem not_mem_plainName {s : String} (h : isPlainName s = true) {d : Char} (hd : isPlainChar d = false) : d ∉ s.toList := by
  rw [isPlainName, Bool.and_eq_true, List.all_eq_true] at h
  exact fun hmem => absurd (h.2 d hmem) (by simp [hd])

theorem plainName_ne_nil {s : String} (h : isPlainName s = true) : s.toList ≠ [] := by
  rw [isPlainName, Bool.and_eq_true] at h
  simpa using h.1

/-- A name ends neither a tag nor what stands before it. -/
theorem mem_plainName {s : String} (h : isPlainName s = true) {c : Char} (hc : c ∈ s.toList) :
    isAsciiBlank c = false ∧ c ≠ '"' ∧ c ≠ '\'' ∧ c ≠ '>' := by
  have hne {d : Char} (hd : isPlainChar d = false) : c ≠ d := ne_of_mem_of_not_mem hc (not_mem_plainName h hd)
  refine ⟨?_, hne (by decide), hne (by decide), hne (by decide)⟩
  simp only [isAsciiBlank, Bool.or_eq_false_iff, beq_eq_false_iff_ne]
  exact ⟨⟨⟨⟨hne (by decide), hne (by decide)⟩, hne (by decide)⟩, hne (by decide)⟩, hne (by decide)⟩

/-- Attributes that can be written in a start tag. -/
def Writable (l : List (String × String)) : Prop := ∀ e ∈ l, isPlainName e.1 = true ∧ Quotable e.2

namespace Writable

theorem nil : Writable [] := by simp [Writable]

theorem cons {name value : String} {l : List (String × String)} (hname : isPlainName name = true) (hvalue : Quotable value)
    (h : Writable l) : Writable ((name, value) :: l) :=
  List.forall_mem_cons.2 ⟨⟨hname, hvalue⟩, h⟩

theorem append {l m : List (String × String)} (hl : Writable l) (hm : Writable m) : Writable (l ++ m) :=
  List.forall_mem_append.2 ⟨hl, hm⟩

theorem optional {name : String} (hname : isPlainName name = true) {value : Option String}
    (hvalue : ∀ v, value = some v → Quotable v) : Writable (Render.optional name value) := by
  cases value with
  | none => exact nil
  | some v => exact nil.cons hname (hvalue v rfl)

end Writable

def attributeChars (e : String × String) : List Char := ' ' :: (e.1.toList ++ ['=']) ++ ('"' :: e.2.toList ++ ['"'])

theorem toList_attributeText (l : List (String × String)) : (attributeText l).toList = l.flatMap attributeChars := by
  rw [attributeText, String.toList_join, List.flatMap_map]
  congr 1
  funext e
  simp [attributeChars, String.toList_append]

theorem passes_attributeText {l : List (String × String)} (h : Writable l) :
    Passes quotesOnly '>' {} (attributeText l).toList {} := by
  rw [toList_attributeText]
  induction l with
  | nil => exact .nil
  | cons e l ih =>
    obtain ⟨⟨hname, hvalue⟩, hl⟩ := List.forall_mem_cons.1 h
    refine .append (.append (.plain fun c hc => ?_) (.quoted (.inl rfl) (by decide) hvalue)) (ih hl)
    simp only [List.mem_cons, List.mem_append, List.not_mem_nil, or_false] at hc
    rcases hc with rfl | hc | rfl
    · decide
    · exact (mem_plainName hname hc).2
    · decide

theorem endsWith_slash_startTag {tag : String} (htag : isPlainName tag = true) (l : List (String × String)) :
    endsWith ['/'] (tag.toList ++ (attributeText l).toList) = false := by
  rw [toList_attributeText]
  rcases List.eq_nil_or_concat l with rfl | ⟨l, e, rfl⟩
  · obtain ⟨s, c, hs⟩ := (List.eq_nil_or_concat tag.toList).resolve_left (plainName_ne_nil htag)
    have hc : c ≠ '/' := ne_of_mem_of_not_mem (by simp [hs]) (not_mem_plainName htag (by decide))
    simpa [hs, endsWith_concat] using hc.symm
  · rw [List.concat_eq_append, List.flatMap_append, ← List.append_assoc]
    simpa [attributeChars] using
      endsWith_concat '/' '"' (tag.toList ++ l.flatMap attributeChars ++ ' ' :: (e.1.toList ++ '=' :: '"' :: e.2.toList))

theorem exists_startTag {tag : String} (htag : isPlainName tag = true) {l : List (String × String)} (hl : Writable l) :
    ∃ t : StartTag, t.IsRead tag.toList (attributeText l).toList ∧ (startTag tag l).toList = t.text ∧
      t.name = attributeKey tag.toList ∧ t.closed = false := by
  have hhead {d : Char} (hd : isPlainChar d = false) : tag.toList.head? ≠ some d := fun h =>
    not_mem_plainName htag hd (List.mem_of_mem_head? h)
  have hcomposed : Composed (tag.toList ++ (attributeText l).toList) tag.toList (attributeText l).toList false := {
    eq := by simp [slash]
    name_ne_nil := plainName_ne_nil htag
    name_not_blank := fun c hc => (mem_plainName htag hc).1
    not_declaration := hhead (by decide)
    attributes_blank := by
      rw [toList_attributeText]
      cases l <;> simp [attributeChars, isAsciiBlank]
    closed_eq := endsWith_slash_startTag htag l }
  have hpasses : Passes quotesOnly '>' {} (tag.toList ++ (attributeText l).toList) {} :=
    .append (.plain fun c hc => (mem_plainName htag hc).2) (passes_attributeText hl)
  obtain ⟨t, hread, htext, hname, hclosed⟩ :=
    StartTag.isRead_of_composed hcomposed hpasses ⟨hhead (by decide), hhead (by decide)⟩
  refine ⟨t, hread, ?_, hname, hclosed⟩
  rw [htext, startTag]
  simp [String.toList_append]

/-- A tag that can be written, of an element whose content is markup. -/
def isPlainTag (tag : String) : Bool := isPlainName tag && !rawElements.contains (attributeKey tag.toList)

/-- Start tags of the same name with other values. -/
theorem sameTags_startTag {tag : String} (htag : isPlainTag tag = true) {l l' : List (String × String)} (hl : Writable l)
    (hl' : Writable l') {r r' : String} (h : SameTags r r') : SameTags (startTag tag l ++ r) (startTag tag l' ++ r') := by
  rw [isPlainTag, Bool.and_eq_true, Bool.not_eq_true'] at htag
  obtain ⟨t, hread, htext, hname, hclosed⟩ := exists_startTag htag.1 hl
  obtain ⟨t', hread', htext', -, hclosed'⟩ := exists_startTag htag.1 hl'
  have hraw : t.isRaw = false := by rw [StartTag.isRaw, hname, htag.2, Bool.and_false]
  exact .start hread hread' (hclosed'.trans hclosed.symm) hraw htext htext' h

/-- The same with a text before the tags. -/
theorem sameTags_text_startTag {u : String} (hu : '<' ∉ u.toList) {tag : String} (htag : isPlainTag tag = true)
    {l l' : List (String × String)} (hl : Writable l) (hl' : Writable l') {r r' : String} (h : SameTags r r') :
    SameTags (u ++ (startTag tag l ++ r)) (u ++ (startTag tag l' ++ r')) := by
  have hhead (l : List (String × String)) (r : String) : (startTag tag l ++ r).toList.head? = some '<' := by
    simp [startTag, String.toList_append]
  exact .text hu (hhead l r) (hhead l' r') (sameTags_startTag htag hl hl' h)

theorem angle_not_mem_spaces (n : Nat) : '<' ∉ (spaces n).toList := by
  simp [spaces]

def newline (indent : Nat) : String := "\n" ++ spaces indent

theorem angle_not_mem_newline (n : Nat) : '<' ∉ (newline n).toList := by
  simp [newline, spaces, String.toList_append]

/-! ## Comments -/

def commentEnd : List Char := ['-', '-', '>']

/-- A text that can stand in a comment. -/
def Commentable (s : String) : Prop := occurs commentEnd s.toList = false

instance : DecidablePred Commentable := fun s => inferInstanceAs (Decidable (occurs commentEnd s.toList = false))

theorem commentable_of_not_mem {s : String} (h : '>' ∉ s.toList) : Commentable s :=
  occurs_of_not_mem (c := '>') (by decide) h

/-- A text that can stand in a comment whatever follows. -/
structure Sealed (s : String) : Prop where
  commentable : Commentable s
  getLast?_ne : s.toList.getLast? ≠ some '-'

instance : DecidablePred Sealed := fun s =>
  decidable_of_iff (Commentable s ∧ s.toList.getLast? ≠ some '-')
    ⟨fun h => ⟨h.1, h.2⟩, fun h => ⟨h.commentable, h.getLast?_ne⟩⟩

namespace Sealed

variable {s t : String}

theorem commentable_append (hs : Sealed s) (ht : Commentable t) : Commentable (s ++ t) := by
  rw [Commentable, String.toList_append]
  exact occurs_mark_append hs.commentable ht (.inl hs.getLast?_ne)

theorem append (hs : Sealed s) (ht : Sealed t) : Sealed (s ++ t) where
  commentable := hs.commentable_append ht.commentable
  getLast?_ne hc := by
    rw [String.toList_append, List.getLast?_append, Option.or_eq_some_iff] at hc
    rcases hc with hc | ⟨-, hc⟩
    · exact ht.getLast?_ne hc
    · exact hs.getLast?_ne hc

/-- A text that is followed by something that goes on with no comment end. -/
theorem ended (hs : Commentable s) (ht : Sealed t) (hne : t.toList ≠ [])
    (hhead : t.toList.head? ≠ some '-' ∧ t.toList.head? ≠ some '>') : Sealed (s ++ t) where
  commentable := by
    rw [Commentable, String.toList_append]
    exact occurs_mark_append hs ht.commentable (.inr hhead)
  getLast?_ne hc := by
    rw [String.toList_append, List.getLast?_append, Option.or_eq_some_iff] at hc
    rcases hc with hc | ⟨hnone, -⟩
    · exact ht.getLast?_ne hc
    · exact absurd (List.getLast?_eq_none_iff.1 hnone) hne

theorem join {l : List String} (h : ∀ s ∈ l, Sealed s) : Sealed (String.join l) := by
  induction l with
  | nil => exact ⟨rfl, by simp⟩
  | cons s l ih =>
    obtain ⟨hs, hl⟩ := List.forall_mem_cons.1 h
    rw [String.join_cons]
    exact hs.append (ih hl)

end Sealed

theorem Commentable.spaced {s t : String} (hs : Commentable s) (ht : Commentable t) : Commentable (s ++ (" " ++ t)) := by
  rw [← String.append_assoc]
  exact (Sealed.ended hs (by decide) (by decide) (by decide)).commentable_append ht

theorem sealed_styleText {l : List (String × String)} (h : ∀ e ∈ l, Commentable e.1 ∧ Commentable e.2) :
    Sealed (styleText l) := by
  refine Sealed.join fun s hs => ?_
  obtain ⟨e, he, rfl⟩ := List.mem_map.1 hs
  obtain ⟨hname, hvalue⟩ := h e (List.mem_filter.1 he).1
  have hproperty : Sealed (e.1 ++ ":") := .ended hname (by decide) (by decide) (by decide)
  exact .ended (hproperty.commentable_append hvalue) (by decide) (by decide) (by decide)

theorem sealed_attributeText {l : List (String × String)} (h : ∀ e ∈ l, Commentable e.1 ∧ Commentable e.2) :
    Sealed (attributeText l) := by
  refine Sealed.join fun s hs => ?_
  obtain ⟨e, he, rfl⟩ := List.mem_map.1 hs
  obtain ⟨hname, hvalue⟩ := h e he
  have hspace : Sealed " " := by decide
  have hequals : Sealed (" " ++ e.1 ++ "=\"") := .ended (hspace.commentable_append hname) (by decide) (by decide) (by decide)
  exact .ended (hequals.commentable_append hvalue) (by decide) (by decide) (by decide)

end EmailMarkup.Render
