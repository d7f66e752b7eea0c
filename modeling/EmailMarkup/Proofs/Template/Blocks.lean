import EmailMarkup.Proofs.Template.Settled
/-!
# The blocks of a template

`blocks` lists the ending tags that `wrapEnding` finds, each with its start tag and content. Wrapping their content moves
none of them: no end tag appears that was not there (`noEnd_wrapEnding`), the first `>` of a text stays the first
(`exists_of_wrapEnding_eq`), and so the blocks of the result are those of the text, with their content wrapped
(`blocks_wrapEnding`). Where all content is wrapped already, nothing changes (`wrapEnding_eq_self`).
-/
namespace EmailMarkup.Template

open EmailMarkup.Text

/-! ## Texts without an end tag -/

/-- No end tag of `tag` stands in the text. -/
def NoEnd (tag : String) (s : List Char) : Prop := textBefore? (closesTag tag) s = none

section

variable {tag : String} {c d : Char} {s t : List Char}

theorem noEnd_iff : NoEnd tag s ↔ ∀ t, t <:+ s → closesTag tag t = false := by
  rw [NoEnd, textBefore?, Option.map_eq_none_iff, cutBy_eq_none_iff]
  simp

@[simp] theorem noEnd_nil : NoEnd tag [] := rfl

theorem noEnd_cons : NoEnd tag (c :: s) ↔ closesTag tag (c :: s) = false ∧ NoEnd tag s := by
  rw [noEnd_iff, noEnd_iff]
  constructor
  · intro h
    exact ⟨h _ (List.suffix_refl _), fun t ht => h t (ht.trans (List.suffix_cons c s))⟩
  · rintro ⟨hhead, htail⟩ t ht
    rcases List.suffix_cons_iff.1 ht with rfl | ht
    · exact hhead
    · exact htail t ht

/-- An end tag begins with `</`. -/
theorem closesTag_of_ne (h : c ≠ '<') : closesTag tag (c :: s) = false := by
  simp [closesTag, endTagOpen, strip?_cons_of_ne (Ne.symm h)]

theorem closesTag_lt_of_ne (h : c ≠ '/') : closesTag tag ('<' :: c :: s) = false := by
  simp [closesTag, endTagOpen, strip?, Ne.symm h]

@[simp] theorem noEnd_cons_of_ne (h : c ≠ '<') : NoEnd tag (c :: s) ↔ NoEnd tag s := by
  simp [noEnd_cons, closesTag_of_ne h]

@[simp] theorem noEnd_lt_cons_of_ne (h : c ≠ '/') : NoEnd tag ('<' :: c :: s) ↔ NoEnd tag (c :: s) := by
  rw [noEnd_cons, closesTag_lt_of_ne h]
  simp

theorem noEnd_of_not_mem (h : '<' ∉ s) : NoEnd tag s := by
  induction s with
  | nil => exact noEnd_nil
  | cons c s ih =>
    rw [List.mem_cons, not_or] at h
    exact (noEnd_cons_of_ne (Ne.symm h.1)).2 (ih h.2)

theorem NoEnd.right (h : NoEnd tag (s ++ t)) : NoEnd tag t :=
  noEnd_iff.2 fun u hu => noEnd_iff.1 h u (hu.trans (List.suffix_append s t))

theorem NoEnd.left (h : NoEnd tag (s ++ t)) : NoEnd tag s := by
  refine noEnd_iff.2 ?_
  rintro u ⟨before, rfl⟩
  have hnot := noEnd_iff.1 h (u ++ t) ⟨before, by simp⟩
  rw [Bool.eq_false_iff] at hnot ⊢
  exact fun hcloses => hnot (closesTag_mono hcloses t)

/-- No end tag stands across a place where `<` or `]` follows. -/
theorem noEnd_append (ht : isName tag = true) (hd : d = '<' ∨ d = ']') (hs : NoEnd tag s) (hrest : NoEnd tag (d :: t)) :
    NoEnd tag (s ++ d :: t) := by
  induction s with
  | nil => exact hrest
  | cons c s ih =>
    rw [noEnd_cons] at hs
    exact noEnd_cons.2 ⟨closesTag_append ht hd hs.1 t, ih hs.2⟩

end

/-! ## Passes that make no end tag -/

section

variable {tag : String}

/-- A pass makes no end tag if what it puts in begins with `<` or `]` and makes none with what follows. -/
theorem noEnd_substitute {step : List Char → Option (List Char × Nat)} {d : Char} (ht : isName tag = true)
    (hd : d = '<' ∨ d = ']') (htakes : TakesPiece step)
    (hout : ∀ piece rest out, step (piece ++ rest) = some (out, piece.length) → out.head? = some d)
    (htake : ∀ piece rest out, step (piece ++ rest) = some (out, piece.length) → NoEnd tag (piece ++ rest) →
      NoEnd tag (substitute step rest) → NoEnd tag (out ++ substitute step rest)) {s : List Char} (h : NoEnd tag s) :
    NoEnd tag (substitute step s) := by
  refine substitute_induction (motive := fun s t => NoEnd tag s → NoEnd tag t) htakes id (fun c s _ ih h => ?_)
    (fun piece rest out _ hsome ih h => htake piece rest out hsome h (ih h.right)) s h
  rw [noEnd_cons] at h ⊢
  refine ⟨?_, ih h.2⟩
  rw [Bool.eq_false_iff] at h ⊢
  -- an end tag holds no character that something put in begins with
  intro hcloses
  obtain ⟨blanks, after, heq, hb⟩ := closesTag_iff.1 hcloses
  have heq : c :: substitute step s = '<' :: ('/' :: (tag.toList ++ (blanks ++ ['>'])) ++ after) := by
    simpa [endTagOpen] using heq
  obtain ⟨rfl, hrest⟩ := List.cons.inj heq
  obtain ⟨s', rfl, -⟩ := substitute_eq_append htakes hout (not_mem_endTag ht hd hb) hrest
  exact h.1 (closesTag_iff.2 ⟨blanks, s', by simp [endTagOpen], hb⟩)

theorem noEnd_replaceAll (ht : isName tag = true) {s : List Char} (h : NoEnd tag s) :
    NoEnd tag (replaceAll cdataClose cdataSplit s) := by
  refine noEnd_substitute ht (.inr rfl) (takesPiece_replaceAll (by decide) _) ?_ ?_ h
  · intro piece rest out hsome
    rw [(replaceStep_eq_some hsome).2]
    rfl
  · intro piece rest out hsome _ hrest
    rw [(replaceStep_eq_some hsome).2]
    simpa [cdataSplit, cdataClose, cdataOpen] using hrest

/-- Content is left as it is, or begins as verbatim text. -/
theorem wrapContent_cases (content : List Char) : wrapContent content = content ∨ wrapContent content =
    cdataOpen ++ (replaceAll cdataClose cdataSplit content ++ cdataClose) := by
  unfold wrapContent
  split
  · exact .inl rfl
  · exact .inr (List.append_assoc _ _ _)

theorem noEnd_wrapContent (ht : isName tag = true) {content : List Char} (h : NoEnd tag content) :
    NoEnd tag (wrapContent content) := by
  rcases wrapContent_cases content with heq | heq
  · rwa [heq]
  · have hwrapped : NoEnd tag (replaceAll cdataClose cdataSplit content ++ cdataClose) :=
      noEnd_append ht (.inr rfl) (noEnd_replaceAll ht h) (by simp)
    rw [heq]
    simpa [cdataOpen] using hwrapped

/-- Wrapping content makes no end tag with the start tag before it. -/
theorem noEnd_append_wrapContent (ht : isName tag = true) {opening content : List Char} (h : NoEnd tag (opening ++ content)) :
    NoEnd tag (opening ++ wrapContent content) := by
  have hcontent := noEnd_wrapContent ht h.right
  rcases wrapContent_cases content with heq | heq
  · rwa [heq]
  · rw [heq] at hcontent ⊢
    exact noEnd_append ht (.inl rfl) h.left hcontent

/-- End tags are left as they are. -/
theorem closesTag_wrapEnding (ht : isName tag = true) {s : List Char} (h : closesTag tag s = true) :
    closesTag tag (wrapEnding s) = true := by
  obtain ⟨blanks, after, rfl, hb⟩ := closesTag_iff.1 h
  have hstay : Turns wrapStep ('<' :: '/' :: (tag.toList ++ (blanks ++ ['>'])))
      ('<' :: '/' :: (tag.toList ++ (blanks ++ ['>']))) :=
    .cons (fun rest => wrapStep_of_head_ne (by decide) _) (wraps_plain (not_mem_endTag ht (.inl rfl) hb))
  have heq := hstay after
  rw [← wrapEnding_eq, ← wrapEnding_eq] at heq
  exact closesTag_iff.2 ⟨blanks, wrapEnding after, by simpa [endTagOpen] using heq, hb⟩

theorem exists_of_closesTag {s : List Char} (h : closesTag tag s = true) : ∃ r, s = '<' :: r := by
  obtain ⟨blanks, after, rfl, -⟩ := closesTag_iff.1 h
  exact ⟨_, rfl⟩

/-- Wrapping a block makes no end tag. -/
theorem noEnd_wrap_block {ending : String} {head content rest : List Char} (ht : isName tag = true)
    (hblock : IsBlock ending head content rest) (front : List Char) (hfront : NoEnd tag (front ++ content))
    (hrest : NoEnd tag (wrapEnding rest)) : NoEnd tag (front ++ (wrapContent content ++ wrapEnding rest)) := by
  obtain ⟨r, hr⟩ := exists_of_closesTag (closesTag_wrapEnding hblock.isName hblock.ends)
  rw [hr] at hrest ⊢
  rw [← List.append_assoc]
  exact noEnd_append ht (.inl rfl) (noEnd_append_wrapContent ht hfront) hrest

/-- Wrapping makes no end tag. -/
theorem noEnd_wrapEnding (ht : isName tag = true) {s : List Char} (h : NoEnd tag s) : NoEnd tag (wrapEnding s) := by
  refine noEnd_substitute ht (.inl rfl) takesPiece_wrapStep ?_ ?_ h
  · intro piece rest out hsome
    obtain ⟨ending, head, content, -, -, rfl⟩ := wrapStep_eq_some hsome
    rfl
  · intro piece rest out hsome hpiece hrest
    obtain ⟨ending, head, content, hblock, rfl, rfl⟩ := wrapStep_eq_some hsome
    have hfront : NoEnd tag ('<' :: (head ++ ['>']) ++ content) := by simpa using hpiece.left
    simpa [wrapEnding_eq] using noEnd_wrap_block ht hblock _ hfront hrest

end

/-! ## Blocks -/

/-- The blocks of a text. The counter is how many of the characters of a block are still to be passed over. -/
def blocksFrom : Nat → List Char → List Block
  | _, [] => []
  | k + 1, _ :: s => blocksFrom k s
  | 0, c :: s =>
    match endingBlock? (c :: s) with
    | some b => b :: blocksFrom (b.opening.length + b.content.length - 1) s
    | none => blocksFrom 0 s

def blocks (s : List Char) : List Block := blocksFrom 0 s

theorem blocksFrom_eq (k : Nat) (s : List Char) : blocksFrom k s = blocks (s.drop k) := by
  induction k generalizing s with
  | zero => rfl
  | succ k ih =>
    cases s with
    | nil => rfl
    | cons c s => exact ih s

theorem blocks_cons_of_none {c : Char} {s : List Char} (h : endingBlock? (c :: s) = none) : blocks (c :: s) = blocks s := by
  rw [blocks, blocksFrom, h]
  rfl

theorem blocks_of_isBlock {tag : String} {head content rest : List Char} (h : IsBlock tag head content rest) :
    blocks ('<' :: (head ++ '>' :: (content ++ rest))) = ⟨'<' :: (head ++ ['>']), content⟩ :: blocks rest := by
  rw [blocks, blocksFrom, endingBlock?_of_isBlock h]
  have htext : head ++ '>' :: (content ++ rest) = (head ++ '>' :: content) ++ rest := by simp
  have hlength : ('<' :: (head ++ ['>'])).length + content.length - 1 = (head ++ '>' :: content).length := by
    simp only [List.length_cons, List.length_append, List.length_nil]
    omega
  simp only [blocksFrom_eq, hlength, htext, List.drop_left]

/-! ## Wrapping moves no block -/

/-- Induction along the pass, which copies a character or wraps a block. -/
theorem wrapEnding_induction {motive : List Char → List Char → Prop} (nil : motive [] [])
    (copy : ∀ c s, endingBlock? (c :: s) = none → motive s (wrapEnding s) → motive (c :: s) (c :: wrapEnding s))
    (block : ∀ tag head content rest, IsBlock tag head content rest → motive rest (wrapEnding rest) →
      motive ('<' :: (head ++ '>' :: (content ++ rest))) ('<' :: (head ++ '>' :: (wrapContent content ++ wrapEnding rest))))
    (s : List Char) : motive s (wrapEnding s) := by
  refine substitute_induction takesPiece_wrapStep nil (fun c s hnone ih => ?_) (fun piece rest out _ hsome ih => ?_) s
  · exact copy c s (by simpa [wrapStep] using hnone) ih
  · obtain ⟨tag, head, content, hblock, rfl, rfl⟩ := wrapStep_eq_some hsome
    simpa [wrapEnding_eq] using block tag head content rest hblock ih

/-- The first `>` stays the first, and no end tag is made behind it. -/
theorem exists_of_wrapEnding_eq {s head after : List Char} (hclose : '>' ∉ head) (h : wrapEnding s = head ++ '>' :: after) :
    ∃ r, s = head ++ '>' :: r ∧ ∀ tag, isName tag = true → NoEnd tag r → NoEnd tag after := by
  refine wrapEnding_induction (motive := fun s t => ∀ head after, '>' ∉ head → t = head ++ '>' :: after →
    ∃ r, s = head ++ '>' :: r ∧ ∀ tag, isName tag = true → NoEnd tag r → NoEnd tag after) ?_ ?_ ?_ s head after hclose h
  · intro head after _ h
    simp at h
  · intro c s _ ih head after hclose h
    cases head with
    | nil =>
      obtain ⟨rfl, rfl⟩ := List.cons.inj h
      exact ⟨s, rfl, fun tag ht => noEnd_wrapEnding ht⟩
    | cons d head =>
      obtain ⟨rfl, hrest⟩ := List.cons.inj h
      rw [List.mem_cons, not_or] at hclose
      obtain ⟨r, rfl, hr⟩ := ih head after hclose.2 hrest
      exact ⟨r, rfl, hr⟩
  · intro ending head content rest hblock _ head' after hclose h
    have hopening : '>' ∉ '<' :: head := by simpa using hblock.no_close
    have hcut := cut_char hopening (wrapContent content ++ wrapEnding rest)
    rw [List.cons_append, h, cut_char hclose] at hcut
    obtain ⟨rfl, rfl⟩ := Prod.mk.inj (Option.some.inj hcut)
    refine ⟨content ++ rest, rfl, fun tag ht hr => ?_⟩
    exact noEnd_wrap_block ht hblock [] hr.left (noEnd_wrapEnding ht hr.right)

/-- No block is found where none was found before. -/
theorem endingBlock?_wrapEnding {c : Char} {s : List Char} (h : endingBlock? (c :: s) = none) :
    endingBlock? (c :: wrapEnding s) = none := by
  rw [Option.eq_none_iff_forall_ne_some] at h ⊢
  intro b hb
  obtain ⟨tag, head, rest, hblock, -, heq⟩ := exists_isBlock hb
  obtain ⟨rfl, hrest⟩ := List.cons.inj heq
  obtain ⟨r, rfl, hr⟩ := exists_of_wrapEnding_eq hblock.no_close hrest
  cases hcontent : textBefore? (closesTag tag) r with
  | none =>
    have hnone := hr tag hblock.isName hcontent
    rw [NoEnd, (textBefore?_eq_some_iff hblock.isName).2 ⟨rest, rfl, hblock.no_end, hblock.ends⟩] at hnone
    cases hnone
  | some content =>
    obtain ⟨rest', rfl, hnone, hends⟩ := (textBefore?_eq_some_iff hblock.isName).1 hcontent
    exact h _ (endingBlock?_of_isBlock ⟨hblock.named, hblock.no_close, hblock.no_slash, hnone, hends⟩)

/-- A block stays a block when its content is wrapped, and all that follows. -/
theorem IsBlock.wrap {tag : String} {head content rest : List Char} (h : IsBlock tag head content rest) :
    IsBlock tag head (wrapContent content) (wrapEnding rest) where
  named := h.named
  no_close := h.no_close
  no_slash := h.no_slash
  no_end := noEnd_wrapContent h.isName h.no_end
  ends := closesTag_wrapEnding h.isName h.ends

/-- The blocks of the wrapped text are those of the text, with their content wrapped. -/
theorem blocks_wrapEnding (s : List Char) :
    blocks (wrapEnding s) = (blocks s).map fun b => ⟨b.opening, wrapContent b.content⟩ := by
  refine wrapEnding_induction (motive := fun s t => blocks t = (blocks s).map fun b => ⟨b.opening, wrapContent b.content⟩)
    rfl ?_ ?_ s
  · intro c s hnone ih
    rw [blocks_cons_of_none hnone, blocks_cons_of_none (endingBlock?_wrapEnding hnone), ih]
  · intro tag head content rest hblock ih
    rw [blocks_of_isBlock hblock, blocks_of_isBlock hblock.wrap, ih, List.map_cons]

/-- Where all content is wrapped already, nothing changes. -/
theorem wrapEnding_eq_self {s : List Char} (h : ∀ b ∈ blocks s, wrapContent b.content = b.content) : wrapEnding s = s := by
  refine wrapEnding_induction (motive := fun s t => (∀ b ∈ blocks s, wrapContent b.content = b.content) → t = s)
    (fun _ => rfl) ?_ ?_ s h
  · intro c s hnone ih h
    rw [blocks_cons_of_none hnone] at h
    rw [ih h]
  · intro tag head content rest hblock ih h
    rw [blocks_of_isBlock hblock, List.forall_mem_cons] at h
    rw [h.1, ih h.2]

end EmailMarkup.Template
