import EmailMarkup.Page.HtmlAttributes
import EmailMarkup.Proofs.Html.Restyle
import EmailMarkup.Proofs.Html.Spans
/-!
# Edits as splices

Attributes and styles are put into HTML by splices, at most one for an element, at the places of the start tags: nothing
else changes (`edits_spliced`).
-/
namespace EmailMarkup.Html

open Document (byteLength Span spanAt spansFrom editFrom)
open Text (Splice Spliced Patched)

/-! ## Splices of start tags -/

/-- The splices that elements get at the places of their start tags. -/
def Document.splices (d : Document) (splice? : Nat → Span → Option (Splice UInt8)) : List (Splice UInt8) :=
  (d.elements.zip d.spans).filterMap fun (id, s) => splice? id s

/-- A text differs from that of a tag at `offset` by one splice, which ends before the `>`. -/
def StartTag.IsSplicedAt (t : StartTag) (offset : Nat) (e : Splice UInt8) (text : List Char) : Prop :=
  ∃ front old new back, t.text = front ++ (old ++ back) ∧ text = front ++ (new ++ back) ∧ back ≠ [] ∧
    e = ⟨offset + byteLength front, offset + byteLength front + byteLength old, bytes new⟩

/-- Start tags are written with the splices that they get. -/
structure Splices (write : Nat → StartTag → List Char) (splice? : Nat → Span → Option (Splice UInt8)) : Prop where
  same : ∀ {id offset t}, splice? id (spanAt offset t) = none → write id t = t.text
  spliced : ∀ {id offset t e name attributes}, t.IsRead name attributes → splice? id (spanAt offset t) = some e →
    t.IsSplicedAt offset e (write id t)

theorem StartTag.IsSplicedAt.patched {t : StartTag} {offset : Nat} {e : Splice UInt8} {text : List Char}
    (h : t.IsSplicedAt offset e text) {es : List (Splice UInt8)} {s out : List UInt8}
    (hrest : Patched (offset + byteLength t.text) es s out) :
    Patched offset (e :: es) (bytes t.text ++ s) (bytes text ++ out) := by
  obtain ⟨front, old, new, back, htext, rfl, hback, rfl⟩ := h
  have hne : bytes back ≠ [] := by
    rw [← List.length_pos_iff, length_bytes]
    exact byteLength_pos hback
  obtain ⟨c, rest, hcons⟩ := List.exists_cons_of_ne_nil hne
  have hlength : offset + byteLength t.text =
      offset + (bytes front).length + (bytes old).length + 1 + rest.length := by
    rw [htext, byteLength_append, byteLength_append, ← length_bytes back, hcons, length_bytes, length_bytes, List.length_cons]
    omega
  rw [hlength] at hrest
  have hpatched := ((hrest.keep rest).splice (bytes old) (bytes new) c).keep (bytes front)
  simpa [htext, hcons, length_bytes] using hpatched

/-- The splices of pieces that begin at `offset`, with elements numbered from `id`. -/
def splicesFrom (splice? : Nat → Span → Option (Splice UInt8)) (id offset : Nat) (ps : List Piece) : List (Splice UInt8) :=
  ((List.range' id (startTags ps).length).zip (spansFrom offset ps)).filterMap fun (id, s) => splice? id s

theorem splicesFrom_start (splice? : Nat → Span → Option (Splice UInt8)) (id offset : Nat) (t : StartTag) (ps : List Piece) :
    splicesFrom splice? id offset (.start t :: ps) =
      (splice? id (spanAt offset t)).toList ++ splicesFrom splice? (id + 1) (offset + byteLength t.text) ps := by
  have hzip : (List.range' id (startTags (.start t :: ps)).length).zip (spansFrom offset (.start t :: ps)) =
      (id, spanAt offset t) ::
        (List.range' (id + 1) (startTags ps).length).zip (spansFrom (offset + byteLength t.text) ps) := rfl
  cases hsplice : splice? id (spanAt offset t) <;> simp [splicesFrom, hzip, hsplice]

/-- Pieces as they are written, with their splices. -/
theorem Splices.patched {write : Nat → StartTag → List Char} {splice? : Nat → Span → Option (Splice UInt8)}
    (h : Splices write splice?) {ps : List Piece} (hread : ∀ t ∈ startTags ps, ∃ name attributes, t.IsRead name attributes)
    (id offset : Nat) :
    Patched offset (splicesFrom splice? id offset ps) (bytes (textOf ps)) (bytes (editFrom write id ps)) := by
  induction ps generalizing id offset with
  | nil => exact .done offset []
  | cons p ps ih =>
    have hkeep (hps : ∀ t ∈ startTags ps, ∃ name attributes, t.IsRead name attributes) (id : Nat) (text : List Char) :
        Patched offset (splicesFrom splice? id (offset + byteLength text) ps) (bytes (text ++ textOf ps))
          (bytes (text ++ editFrom write id ps)) := by
      rw [bytes_append, bytes_append, ← length_bytes]
      exact .keep _ (length_bytes text ▸ ih hps id _)
    cases p with
    | start tag =>
      obtain ⟨⟨name, attributes, htag⟩, hps⟩ := List.forall_mem_cons.1 hread
      rw [splicesFrom_start]
      cases hsplice : splice? id (spanAt offset tag) with
      | none =>
        have hwritten : editFrom write id (.start tag :: ps) = tag.text ++ editFrom write (id + 1) ps := by
          rw [← h.same hsplice]
          rfl
        rw [hwritten]
        exact hkeep hps (id + 1) tag.text
      | some e =>
        have hwritten : editFrom write id (.start tag :: ps) = write id tag ++ editFrom write (id + 1) ps := rfl
        rw [hwritten, textOf_cons, bytes_append, bytes_append]
        exact (h.spliced htag hsplice).patched (ih hps _ _)
    | stop name text => exact hkeep hread id text
    | other text => exact hkeep hread id text

/-- An edit of start tags is given by their splices. -/
theorem Splices.spliced_edit {write : Nat → StartTag → List Char} {splice? : Nat → Span → Option (Splice UInt8)}
    (h : Splices write splice?) (html : List Char) :
    Spliced ((Document.ofChars html).splices splice?) (bytes html) (bytes ((Document.ofChars html).edit write)) := by
  have hscans : Scans html (Document.ofChars html).pieces := scans_piecesFrom (Nat.le_refl _)
  have hsplices : (Document.ofChars html).splices splice? = splicesFrom splice? 1 0 (Document.ofChars html).pieces := by
    rw [Document.splices, Document.elements_eq]
    rfl
  have hpatched := (h.patched hscans.isRead 1 0).spliced
  rwa [hscans.textOf_eq, ← hsplices] at hpatched

/-! ## Texts at the places of a start tag -/

/-- The splice that writes a text at the place for attributes. -/
def Document.Span.insertion (s : Span) (text : List Char) : Splice UInt8 := ⟨s.insert, s.insert, bytes text⟩

/-- The splice that writes a `style` value: in the place of the quoted one if there is one, else as a new attribute. -/
def Document.Span.restyling (s : Span) (value : List Char) : Splice UInt8 :=
  match s.style with
  | some (start, stop) => ⟨start, stop, bytes value⟩
  | none => s.insertion (" style=\"".toList ++ value ++ ['"'])

namespace StartTag.IsRead

variable {t : StartTag} {name attributes : List Char} (h : t.IsRead name attributes) (offset : Nat)

include h

theorem isSplicedAt_withText (text : List Char) : t.IsSplicedAt offset ((spanAt offset t).insertion text) (t.withText text) := by
  obtain ⟨front, back, htext, hplace, -, hback, hinsert⟩ := Document.spanAt_insert h offset
  refine ⟨front, [], text, back, htext, ?_, hback, ?_⟩
  · rw [withText, hplace, htext, List.take_left, List.drop_left, List.append_assoc]
  · rw [Document.Span.insertion, hinsert]
    rfl

theorem isSplicedAt_withStyle (value : List Char) :
    t.IsSplicedAt offset ((spanAt offset t).restyling value) (t.withStyle value) := by
  rw [Document.Span.restyling]
  split
  · rename_i start stop hstyle
    obtain ⟨front, q, old, back, htext, hsome, -, hback, rfl, rfl⟩ := Document.spanAt_style h hstyle
    refine ⟨front ++ [q], old, value, back, by simp [htext], ?_, hback, ?_⟩
    · have hlength : front.length + 1 = (front ++ [q]).length := by simp
      have hsplit : t.text = (front ++ [q]) ++ (old ++ back) := by simp [htext]
      rw [StartTag.withStyle, hsome]
      simp only
      rw [hlength, hsplit, List.take_left, List.drop_length_add_append, List.drop_left, List.append_assoc]
    · rw [Nat.add_assoc, ← byteLength_append, ← List.append_cons]
  · rename_i hnone
    have hstyle : t.style = none := Option.map_eq_none_iff.1 hnone
    rw [StartTag.withStyle, hstyle]
    exact h.isSplicedAt_withText offset _

end StartTag.IsRead

end EmailMarkup.Html

namespace EmailMarkup.Page

open EmailMarkup.Html
open Text (Splice Spliced)

/-! ## The edits -/

/-- Whether a selector list can be read and one of its selectors describes an element. -/
def describes (selector : String) (f : Forest) (id : Nat) : Bool :=
  (Selector.parseList? selector).any fun l => l.any fun s => s.holds f id

/-- The rules of a table that describe an element, in the order of the table. -/
def rulesFor (table : Head.AttributeTable) (f : Forest) (id : Nat) : Head.AttributeTable :=
  table.filter fun r => describes r.1 f id

theorem addedText_eq (table : Head.AttributeTable) (f : Forest) (id : Nat) :
    addedText (readRules table) f id = (rulesFor table f id).flatMap fun r => ruleText r.2 := by
  induction table with
  | nil => rfl
  | cons r table ih =>
    obtain ⟨selector, a⟩ := r
    have hrest : addedText (readRules table) f id = (table.filter fun r => describes r.1 f id).flatMap fun r => ruleText r.2 := ih
    cases hread : Selector.parseList? selector with
    | none =>
      have hdescribes : describes selector f id = false := by rw [describes, hread, Option.any_none]
      have hrules : readRules ((selector, a) :: table) = readRules table := by simp [readRules, hread]
      rw [hrules, rulesFor, List.filter_cons_of_neg (by simp [hdescribes]), hrest]
    | some l =>
      have hrules : readRules ((selector, a) :: table) = (l, ruleText a) :: readRules table := by simp [readRules, hread]
      have hdescribes : describes selector f id = l.any fun s => s.holds f id := by rw [describes, hread, Option.any_some]
      rw [hrules, rulesFor, List.filter_cons, hdescribes, addedText, List.filter_cons]
      split
      · rw [List.flatMap_cons, List.flatMap_cons, ← hrest, addedText]
      · rw [← hrest, addedText]

/-- The splice that writes the attributes of the rules that describe an element. -/
def attributeSplice? (table : Head.AttributeTable) (f : Forest) (id : Nat) (s : Document.Span) : Option (Splice UInt8) :=
  if (rulesFor table f id).isEmpty then none
  else some (s.insertion ((rulesFor table f id).flatMap fun r => ruleText r.2))

/-- The splice that writes the new style of an element. -/
def styleSplice? (styles : List (Nat × String)) (id : Nat) (s : Document.Span) : Option (Splice UInt8) :=
  (styles.lookup id).map fun style => s.restyling (styleValue style)

theorem splices_addAttributes (table : Head.AttributeTable) (f : Forest) :
    Splices (fun id t => t.withText (addedText (readRules table) f id)) (attributeSplice? table f) where
  same := by
    intro id offset t hnone
    have hempty : rulesFor table f id = [] := by simpa [attributeSplice?] using hnone
    rw [addedText_eq, hempty, List.flatMap_nil, StartTag.withText, List.append_nil, List.take_append_drop]
  spliced := by
    intro id offset t e name attributes ht hsome
    obtain ⟨-, he⟩ := Option.ite_none_left_eq_some.1 hsome
    obtain rfl := Option.some.inj he
    rw [addedText_eq]
    exact ht.isSplicedAt_withText offset _

theorem splices_writeStyled {styles : List (Nat × String)}
    (hstyles : ∀ id style, styles.lookup id = some style → style.isEmpty = false) :
    Splices (writeStyled styles) (styleSplice? styles) where
  same := by
    intro id offset t hnone
    rw [writeStyled, Option.map_eq_none_iff.1 hnone]
  spliced := by
    intro id offset t e name attributes ht hsome
    obtain ⟨style, hstyle, rfl⟩ := Option.map_eq_some_iff.1 hsome
    have hwritten : writeStyled styles id t = t.withStyle (styleValue style) := by
      simp [writeStyled, hstyle, hstyles id style hstyle]
    rw [hwritten]
    exact ht.isSplicedAt_withStyle offset _

/-- Attributes and styles are put into HTML by splices at the places of start tags. An element that rules of a table
describe gets their attributes, in the order of the table, at its place for attributes. An element with a new style gets it
in the place of the quoted value that it has, or as a new attribute. No two splices touch, and what they replace can be put
back. -/
theorem edits_spliced (table : Head.AttributeTable) (css : String) (html : List Char) :
    Spliced ((Document.ofChars html).splices (attributeSplice? table (Document.ofChars html).forest))
        (bytes html) (bytes (addAttributes table html)) ∧
      Spliced ((Document.ofChars html).splices (styleSplice? ((Document.ofChars html).stylesFrom css)))
        (bytes html) (bytes (applyRules (inlineRules css) html)) := by
  have hattributes := (splices_addAttributes table (Document.ofChars html).forest).spliced_edit html
  refine ⟨?_, (splices_writeStyled fun id style => isEmpty_of_lookup_newStyles (inlineRules_declare css)).spliced_edit html⟩
  rw [addAttributes]
  split
  · rename_i hempty
    obtain rfl := List.isEmpty_iff.1 hempty
    have hnone : (Document.ofChars html).splices (attributeSplice? [] (Document.ofChars html).forest) = [] :=
      List.filterMap_eq_nil_iff.2 fun _ _ => rfl
    have heq := hattributes.eq
    rw [hnone] at heq
    rwa [heq] at hattributes
  · exact hattributes

end EmailMarkup.Page
