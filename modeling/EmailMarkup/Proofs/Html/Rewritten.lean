import EmailMarkup.Proofs.Forest.Alike
import EmailMarkup.Proofs.Html.Pieces
/-!
# Pieces with other start tags

If the pieces of two texts differ only in texts and in the attributes of start tags (`Rewritten`), the elements form
the same forest but for attributes (`Rewritten.alike`). Editing a document gives such pieces if each start tag that is
written is read as the same element again (`Scans.edit`).
-/
namespace EmailMarkup.Html

open EmailMarkup.Text

def startTags (ps : List Piece) : List StartTag :=
  ps.filterMap fun
    | .start tag => some tag
    | _ => none

/-- The same pieces with other texts, and with start tags related by `R`, which is given their numbers. -/
inductive Rewritten (R : Nat → StartTag → StartTag → Prop) : Nat → List Piece → List Piece → Prop
  | nil {n : Nat} : Rewritten R n [] []
  | start {n : Nat} {t t' : StartTag} {ps ps' : List Piece} (hname : t'.name = t.name) (hclosed : t'.closed = t.closed)
    (ht : R n t t') (h : Rewritten R (n + 1) ps ps') : Rewritten R n (.start t :: ps) (.start t' :: ps')
  | stop {n : Nat} {name : String} {text text' : List Char} {ps ps' : List Piece} (h : Rewritten R n ps ps') :
    Rewritten R n (.stop name text :: ps) (.stop name text' :: ps')
  | other {n : Nat} {text text' : List Char} {ps ps' : List Piece} (h : Rewritten R n ps ps') :
    Rewritten R n (.other text :: ps) (.other text' :: ps')

/-! ## Elements -/

/-- Elements read so far that differ in attributes, related by `S`. -/
structure Building.Alike (S : Nat → Attributes → Attributes → Prop) (b b' : Building) : Prop where
  forest : Forest.Alike S b.forest b'.forest
  opened : b.opened = b'.opened

namespace Building

variable {S : Nat → Attributes → Attributes → Prop} {b b' : Building}

theorem Alike.start (h : b.Alike S b') {t t' : StartTag} (hname : t'.name = t.name) (hclosed : t'.closed = t.closed)
    (ha : S b.forest.size t.attributes t'.attributes) : (b.start t).Alike S (b'.start t') := by
  have hopen : t'.isOpen = t.isOpen := by rw [StartTag.isOpen, StartTag.isOpen, hname, hclosed]
  constructor
  · simp only [Building.start, Building.add, Forest.alloc_snd, hname, ← h.opened, ← h.forest.size_eq]
    exact (h.forest.alloc t.name ha).append _ _
  · simp only [Building.start, Building.add, Forest.alloc_snd, hopen, h.opened, h.forest.size_eq]

theorem Alike.stop (h : b.Alike S b') (name : String) : (b.stop name).Alike S (b'.stop name) := by
  have htag : (fun id => b'.forest.tag? id != some name) = fun id => b.forest.tag? id != some name :=
    funext fun id => by rw [h.forest.tag?_eq]
  simp only [Building.stop, ← h.opened, htag]
  split
  · exact h
  · exact ⟨h.forest, rfl⟩

theorem size_start (b : Building) (t : StartTag) : (b.start t).forest.size = b.forest.size + 1 := by
  simp [Building.start, Building.add]

theorem forest_stop (b : Building) (name : String) : (b.stop name).forest = b.forest := by
  rw [Building.stop]
  split <;> rfl

end Building

theorem Rewritten.foldl_alike {R : Nat → StartTag → StartTag → Prop} {S : Nat → Attributes → Attributes → Prop}
    (hRS : ∀ n t t', R n t t' → S n t.attributes t'.attributes) {n : Nat} {ps ps' : List Piece} (h : Rewritten R n ps ps')
    {b b' : Building} (hb : b.Alike S b') (hn : b.forest.size = n) :
    (ps.foldl Building.step b).Alike S (ps'.foldl Building.step b') := by
  induction h generalizing b b' with
  | nil => exact hb
  | start hname hclosed ht _ ih =>
    exact ih (hb.start hname hclosed (hn ▸ hRS _ _ _ ht)) (by rw [Building.step, Building.size_start, hn])
  | stop _ ih => exact ih (hb.stop _) (by rw [Building.step, Building.forest_stop, hn])
  | other _ ih => exact ih hb hn

/-- Documents with rewritten start tags have the same elements, but for attributes. -/
theorem Rewritten.alike {R : Nat → StartTag → StartTag → Prop} {S : Nat → Attributes → Attributes → Prop}
    (hRS : ∀ n t t', R n t t' → S n t.attributes t'.attributes) {s s' : List Char}
    (h : Rewritten R 1 (Document.ofChars s).pieces (Document.ofChars s').pieces) :
    Forest.Alike S (Document.ofChars s).forest (Document.ofChars s').forest :=
  (h.foldl_alike hRS ⟨.empty S, rfl⟩ rfl).forest

theorem Rewritten.startTags_cases {R : Nat → StartTag → StartTag → Prop} {n : Nat} {ps ps' : List Piece}
    (h : Rewritten R n ps ps') : ∀ t' ∈ startTags ps', ∃ i t, R i t t' := by
  induction h with
  | nil => simp [startTags]
  | start hname hclosed ht _ ih => exact List.forall_mem_cons.2 ⟨⟨_, _, ht⟩, ih⟩
  | stop _ ih => exact ih
  | other _ ih => exact ih

/-! ## Edits -/

/-- Whether the next piece is the content of a raw element with its end tag. -/
def closesRaw (tag : StartTag) : List Piece → Bool
  | .stop _ text :: _ => (rawContent? tag.name text).isSome
  | _ => false

/-- Whether raw elements without an end tag have none in the edited text either: the content of a raw element is not
markup. -/
def keepsRaw (write : Nat → StartTag → List Char) : Nat → List Piece → Bool
  | _, [] => true
  | n, .start tag :: rest =>
    (!tag.isRaw || closesRaw tag rest || (rawContent? tag.name (Document.editFrom write (n + 1) rest)).isNone) &&
      keepsRaw write (n + 1) rest
  | n, _ :: rest => keepsRaw write n rest

theorem textOf_cons (p : Piece) (ps : List Piece) : textOf (p :: ps) = p.text ++ textOf ps := rfl

/-- Joined again, the pieces give the text back. -/
theorem Scans.textOf_eq {s : List Char} {ps : List Piece} (h : Scans s ps) : textOf ps = s := by
  induction h with
  | nil => rfl
  | last ht => simp [textOf, Piece.text]
  | text hc ht hrest h ih => rw [textOf_cons, ih, Piece.text]
  | plain hp hw h ih => rw [textOf_cons, ih]
  | start htag hraw h ih => rw [textOf_cons, ih, Piece.text]
  | raw htag hraw hcontent h ih => rw [textOf_cons, textOf_cons, ih, Piece.text, Piece.text]
  | unclosed htag hraw hnone h ih => rw [textOf_cons, ih, Piece.text]

theorem closesRaw_eq_false {tag : StartTag} {rest : List Char} {ps : List Piece} (hraw : tag.isRaw = true)
    (hnone : rawContent? tag.name rest = none) (h : Scans rest ps) : closesRaw tag ps = false := by
  cases ps with
  | nil => rfl
  | cons p ps =>
    cases p with
    | start _ => rfl
    | other _ => rfl
    | stop name text =>
      cases hcontent : rawContent? tag.name text with
      | none => simp [closesRaw, hcontent]
      | some p =>
        obtain ⟨content, r⟩ := p
        obtain ⟨rfl, hr⟩ := rawContent?_append (rawElements_chars hraw) hcontent
        rw [← h.textOf_eq, textOf_cons, Piece.text, List.append_assoc, hr] at hnone
        cases hnone

theorem StartTag.isRaw_congr {t t' : StartTag} (hname : t'.name = t.name) (hclosed : t'.closed = t.closed) :
    t'.isRaw = t.isRaw := by
  rw [isRaw, isRaw, isOpen, isOpen, hname, hclosed]

theorem StartTag.IsRead.head_eq {t : StartTag} {name attributes : List Char} (h : t.IsRead name attributes) (r : List Char) :
    ∀ c ∈ (t.text ++ r).head?, c = '<' := by
  obtain ⟨u, hu⟩ := h.opens
  simp [hu]

/-- The start tag, as it is written, is read as one with the same name. -/
def Rereads (R : Nat → StartTag → StartTag → Prop) (write : Nat → StartTag → List Char) (n : Nat) (t : StartTag) : Prop :=
  ∀ name attributes, t.IsRead name attributes → ∃ t' attributes', StartTag.IsRead t' name attributes' ∧
    t'.text = write n t ∧ t'.closed = t.closed ∧ R n t t'

theorem Rereads.tag {R : Nat → StartTag → StartTag → Prop} {write : Nat → StartTag → List Char} {n : Nat} {t : StartTag}
    (h : Rereads R write n t) {name attributes : List Char} (ht : t.IsRead name attributes) :
    ∃ t' attributes', StartTag.IsRead t' name attributes' ∧ t'.text = write n t ∧ t'.name = t.name ∧ t'.closed = t.closed ∧
      t'.isRaw = t.isRaw ∧ R n t t' := by
  obtain ⟨t', attributes', ht', htext, hclosed, hR⟩ := h name attributes ht
  have hname : t'.name = t.name := by rw [ht'.name_eq, ht.name_eq]
  exact ⟨t', attributes', ht', htext, hname, hclosed, StartTag.isRaw_congr hname hclosed, hR⟩

/-- The pieces of an edited text. -/
theorem Scans.edit {R : Nat → StartTag → StartTag → Prop} {write : Nat → StartTag → List Char} {s : List Char}
    {ps : List Piece} (h : Scans s ps) {n : Nat} (hkeeps : keepsRaw write n ps = true)
    (hwrite : ∀ p ∈ (startTags ps).zipIdx n, Rereads R write p.2 p.1) :
    ∃ ps', Scans (Document.editFrom write n ps) ps' ∧ Rewritten R n ps ps' ∧
      ((∀ c ∈ s.head?, c = '<') → ∀ c ∈ (Document.editFrom write n ps).head?, c = '<') := by
  induction h generalizing n with
  | nil => exact ⟨[], .nil, .nil, fun _ => by simp [Document.editFrom]⟩
  | @text c t rest ps hc ht hrest h ih =>
    obtain ⟨ps', hscans, hrewritten, hhead⟩ := ih hkeeps hwrite
    exact ⟨.other (c :: t) :: ps', .text hc ht (hhead hrest) hscans, .other hrewritten, fun h => absurd (h c rfl) hc⟩
  | @last t ht =>
    refine ⟨[.other ('<' :: t)], ?_, .other .nil, fun h => h⟩
    simpa [Document.editFrom, Piece.text] using Scans.last ht
  | @plain p rest ps hp hw h ih =>
    obtain ⟨u, hu⟩ := hw.opens
    have hhead {r : List Char} : ∀ c ∈ (p.text ++ r).head?, c = '<' := by simp [hu]
    cases p with
    | start tag => cases hp
    | stop name text =>
      obtain ⟨ps', hscans, hrewritten, -⟩ := ih hkeeps hwrite
      exact ⟨_, .plain hp hw hscans, .stop hrewritten, fun _ => hhead⟩
    | other text =>
      obtain ⟨ps', hscans, hrewritten, -⟩ := ih hkeeps hwrite
      exact ⟨_, .plain hp hw hscans, .other hrewritten, fun _ => hhead⟩
  | @start tag name attributes rest ps htag hraw h ih =>
    obtain ⟨hfirst, hrest⟩ := List.forall_mem_cons.1 hwrite
    obtain ⟨t', attributes', ht', htext, hname, hclosed, hraw', hR⟩ := hfirst.tag htag
    rw [keepsRaw, Bool.and_eq_true] at hkeeps
    obtain ⟨ps', hscans, hrewritten, -⟩ := ih hkeeps.2 hrest
    rw [Document.editFrom, ← htext]
    exact ⟨_, .start ht' (hraw'.trans hraw) hscans, .start hname hclosed hR hrewritten, fun _ => ht'.head_eq _⟩
  | @raw tag name attributes content rest ps htag hraw hcontent h ih =>
    obtain ⟨hfirst, hrest⟩ := List.forall_mem_cons.1 hwrite
    obtain ⟨t', attributes', ht', htext, hname, hclosed, hraw', hR⟩ := hfirst.tag htag
    rw [keepsRaw, Bool.and_eq_true] at hkeeps
    obtain ⟨ps', hscans, hrewritten, -⟩ := ih hkeeps.2 hrest
    rw [Document.editFrom, ← htext]
    refine ⟨.start t' :: .stop t'.name content :: ps', .raw ht' (hraw'.trans hraw) (by rwa [hname]) hscans, ?_,
      fun _ => ht'.head_eq _⟩
    rw [hname]
    exact .start hname hclosed hR (.stop hrewritten)
  | @unclosed tag name attributes rest ps htag hraw hnone h ih =>
    obtain ⟨hfirst, hrest⟩ := List.forall_mem_cons.1 hwrite
    obtain ⟨t', attributes', ht', htext, hname, hclosed, hraw', hR⟩ := hfirst.tag htag
    rw [keepsRaw, hraw, closesRaw_eq_false hraw hnone h, Bool.and_eq_true] at hkeeps
    obtain ⟨ps', hscans, hrewritten, -⟩ := ih hkeeps.2 hrest
    rw [Document.editFrom, ← htext]
    refine ⟨_, .unclosed ht' (hraw'.trans hraw) ?_ hscans, .start hname hclosed hR hrewritten, fun _ => ht'.head_eq _⟩
    rw [hname]
    simpa using hkeeps.1

end EmailMarkup.Html
