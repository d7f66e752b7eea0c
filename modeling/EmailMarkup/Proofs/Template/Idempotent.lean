import EmailMarkup.Proofs.Template.Blocks
import EmailMarkup.Proofs.Template.Respelled
import EmailMarkup.Proofs.Text.Blank
import Mathlib.Data.List.Forall2
/-!
# Protecting twice

A protected template has the blocks of the template, with their content wrapped: the first pass moves no block, and the
second only respells references, which are no part of the marks of a block (`blocks_respelled`). Wrapped content stays
wrapped, so both passes leave a protected template as it is (`protect_protect`).
-/
namespace EmailMarkup

namespace Text

/-- Trimming the end takes nothing of a text that does not end with what is trimmed. -/
theorem exists_trimEnd_append {p : Char → Bool} {s : List Char} (hs : ∀ c ∈ s.getLast?, p c = false) (t : List Char) :
    ∃ r, trimEnd p (s ++ t) = s ++ r := by
  have hkeep : s.reverse.dropWhile p = s.reverse := (@span_append p [] s.reverse (by simp) (by simpa using hs)).2
  rw [trimEnd, List.reverse_append, List.dropWhile_append]
  split
  · exact ⟨[], by rw [hkeep, List.reverse_reverse, List.append_nil]⟩
  · exact ⟨_, by rw [List.reverse_append, List.reverse_reverse]⟩

end Text

namespace Template

open EmailMarkup.Text

/-! ## Wrapped content -/

/-- Empty content, and content that begins as verbatim text behind blanks. -/
def IsWrapped (content : List Char) : Prop :=
  content = [] ∨ ∃ blanks r, content = blanks ++ (cdataOpen ++ r) ∧ ∀ c ∈ blanks, isBlank c = true

theorem isWrapped_wrapContent (content : List Char) : IsWrapped (wrapContent content) := by
  unfold wrapContent
  split
  · rename_i h
    rw [Bool.or_eq_true, List.isEmpty_iff, startsWith_eq_true_iff] at h
    rcases h with rfl | ⟨r, hr⟩
    · exact .inl rfl
    · obtain ⟨pre, post, hcontent, hpre, -⟩ := trimBoth_spec isBlank content
      exact .inr ⟨pre, r ++ post, by rw [hcontent, ← hr, List.append_assoc], hpre⟩
  · exact .inr ⟨[], _, List.append_assoc _ _ _, by simp⟩

theorem IsWrapped.wrapContent_eq {content : List Char} (h : IsWrapped content) : wrapContent content = content := by
  have hcond : (content.isEmpty || startsWith cdataOpen (trimBoth isBlank content)) = true := by
    rw [Bool.or_eq_true, List.isEmpty_iff, startsWith_eq_true_iff]
    refine h.imp_right ?_
    rintro ⟨blanks, r, rfl, hblanks⟩
    have hfirst : ∀ c ∈ (cdataOpen ++ r).head?, isBlank c = false := by
      rintro c ⟨⟩
      rfl
    have hlast : ∀ c ∈ cdataOpen.getLast?, isBlank c = false := by
      rintro c ⟨⟩
      rfl
    obtain ⟨r', hr'⟩ := exists_trimEnd_append hlast r
    rw [trimBoth, trimStart, (span_append hblanks hfirst).2, hr']
    exact List.prefix_append _ _
  rw [wrapContent, if_pos hcond]

theorem IsWrapped.respelled {s t : List Char} (h : IsWrapped s) (hst : Respelled s t) : IsWrapped t := by
  rcases h with rfl | ⟨blanks, r, rfl, hblanks⟩
  · exact .inl hst.eq_nil
  · have hplain : '&' ∉ blanks ++ cdataOpen := by
      rw [List.mem_append, not_or]
      exact ⟨fun hm => absurd (hblanks _ hm) (by decide), by decide⟩
    rw [← List.append_assoc] at hst
    obtain ⟨r', rfl, -⟩ := hst.front hplain
    exact .inr ⟨blanks, r', List.append_assoc _ _ _, hblanks⟩

/-! ## Blocks of respelled texts -/

section

variable {tag : String} {s t : List Char}

theorem namesTag_respelled (ht : isName tag = true) (hst : Respelled s t) (h : namesTag tag s = true) :
    namesTag tag t = true := by
  unfold namesTag at h
  split at h
  · rename_i c r hstrip
    have hplain : '&' ∉ tag.toList ++ [c] := by
      rw [List.mem_append, not_or]
      refine ⟨fun hm => (mem_name ht hm).2.2 rfl, fun hm => ?_⟩
      rw [← List.mem_singleton.1 hm] at h
      exact absurd h (by decide)
    rw [strip?_eq_some_iff.1 hstrip, ← List.singleton_append, ← List.append_assoc] at hst
    obtain ⟨r', rfl, -⟩ := hst.front hplain
    rw [namesTag, List.append_assoc, strip?_append]
    exact h
  · cases h

theorem find?_respelled (hst : Respelled s t) :
    (endingTags.find? fun tag => namesTag tag s) = endingTags.find? fun tag => namesTag tag t := by
  refine List.find?_congr fun tag ht => Bool.eq_iff_iff.2 ⟨?_, ?_⟩
  · exact namesTag_respelled (endingTags_isName ht) hst
  · exact namesTag_respelled (endingTags_isName ht) hst.symm

theorem closesTag_respelled (ht : isName tag = true) (hst : Respelled s t) (h : closesTag tag s = true) :
    closesTag tag t = true := by
  obtain ⟨blanks, r, rfl, hb⟩ := closesTag_iff.1 h
  have hplain : '&' ∉ endTagOpen ++ tag.toList ++ blanks ++ ['>'] := by
    simp only [List.mem_append, not_or]
    exact ⟨⟨⟨by decide, fun hm => (mem_name ht hm).2.2 rfl⟩, fun hm => absurd (hb _ hm) (by decide)⟩, by decide⟩
  obtain ⟨r', rfl, -⟩ := hst.front hplain
  exact closesTag_iff.2 ⟨blanks, r', rfl, hb⟩

theorem noEnd_respelled (ht : isName tag = true) (hst : Respelled s t) (h : NoEnd tag s) : NoEnd tag t := by
  rw [noEnd_iff] at h ⊢
  rintro u ⟨before, rfl⟩
  rw [Bool.eq_false_iff]
  intro hcloses
  obtain ⟨r, rfl⟩ := exists_of_closesTag hcloses
  obtain ⟨before', r', rfl, -, hr⟩ := hst.symm.split (by decide) (by decide)
  have hnot := h ('<' :: r') ⟨before', rfl⟩
  rw [closesTag_respelled ht (.keep '<' hr) hcloses] at hnot
  cases hnot

theorem not_mem_respelled {c : Char} (hc : c.isAlphanum = false) (hmark : c ∉ ['&', '#', ';']) (hst : Respelled s t)
    (h : c ∉ s) : c ∉ t := by
  intro hm
  obtain ⟨before, after, rfl⟩ := List.append_of_mem hm
  obtain ⟨u, u', rfl, -⟩ := hst.symm.split hc hmark
  exact h (by simp)

theorem endsWith_respelled (hst : Respelled s t) (h : endsWith ['/'] s = false) : endsWith ['/'] t = false := by
  rcases List.eq_nil_or_concat t with rfl | ⟨t, c, rfl⟩
  · rfl
  · rw [List.concat_eq_append, endsWith_concat, beq_eq_false_iff_ne]
    rintro rfl
    rw [List.concat_eq_append] at hst
    obtain ⟨u, u', rfl, -, hu⟩ := hst.symm.split (by decide) (by decide)
    rw [hu.eq_nil, endsWith_concat] at h
    exact absurd h (by decide)

end

theorem IsBlock.respelled {tag : String} {head content rest head' content' rest' : List Char}
    (h : IsBlock tag head content rest) (hhead : Respelled head head') (hcontent : Respelled content content')
    (hrest : Respelled rest rest') : IsBlock tag head' content' rest' where
  named := by rw [← find?_respelled (hhead.append (.refl _)), h.named]
  no_close := not_mem_respelled (by decide) (by decide) hhead h.no_close
  no_slash := endsWith_respelled hhead h.no_slash
  no_end := noEnd_respelled h.isName hcontent h.no_end
  ends := closesTag_respelled h.isName hrest h.ends

/-- Respelling takes a block to a block. -/
theorem IsBlock.exists_respelled {tag : String} {head content rest t : List Char} (h : IsBlock tag head content rest)
    (hst : Respelled ('<' :: (head ++ '>' :: (content ++ rest))) t) : ∃ head' content' rest',
      t = '<' :: (head' ++ '>' :: (content' ++ rest')) ∧ IsBlock tag head' content' rest' ∧
        Respelled head head' ∧ Respelled content content' ∧ Respelled rest rest' := by
  obtain ⟨r, rfl⟩ := exists_of_closesTag h.ends
  obtain ⟨tail, rfl, htail⟩ := hst.front (u := ['<']) (by decide)
  obtain ⟨head', after, rfl, hhead, hafter⟩ := htail.split (c := '>') (by decide) (by decide)
  obtain ⟨content', r', rfl, hcontent, hrest⟩ := hafter.split (c := '<') (by decide) (by decide)
  exact ⟨head', content', '<' :: r', rfl, h.respelled hhead hcontent (.keep _ hrest), hhead, hcontent, .keep _ hrest⟩

theorem endingBlock?_of_ne {c : Char} (h : c ≠ '<') (s : List Char) : endingBlock? (c :: s) = none := by
  have hnone := wrapStep_of_ne h s
  simpa [wrapStep] using hnone

theorem blocks_append {plain : List Char} (h : '<' ∉ plain) (s : List Char) : blocks (plain ++ s) = blocks s := by
  induction plain with
  | nil => rfl
  | cons c plain ih =>
    rw [List.mem_cons, not_or] at h
    rw [List.cons_append, blocks_cons_of_none (endingBlock?_of_ne (Ne.symm h.1) _), ih h.2]

/-- Where no block begins, none begins in the respelled text. -/
theorem endingBlock?_respelled {s t : List Char} (hst : Respelled s t) (h : endingBlock? s = none) :
    endingBlock? t = none := by
  rw [Option.eq_none_iff_forall_ne_some] at h ⊢
  intro b hb
  obtain ⟨tag, head, rest, hblock, -, rfl⟩ := exists_isBlock hb
  obtain ⟨head', content', rest', rfl, hblock', -⟩ := hblock.exists_respelled hst.symm
  exact h _ (endingBlock?_of_isBlock hblock')

/-- The blocks of a respelled text are those of the text, respelled. -/
theorem blocks_respelled {s t : List Char} (hst : Respelled s t) :
    List.Forall₂ (fun b b' => Respelled b.opening b'.opening ∧ Respelled b.content b'.content) (blocks s) (blocks t) := by
  induction hn : s.length using Nat.strongRecOn generalizing s t with
  | ind n ih =>
    cases hst with
    | nil => exact .nil
    | @keep s t c hst =>
      cases hblock : endingBlock? (c :: s) with
      | none =>
        rw [blocks_cons_of_none hblock, blocks_cons_of_none (endingBlock?_respelled (.keep c hst) hblock)]
        exact ih s.length (by simp [← hn]) hst rfl
      | some b =>
        obtain ⟨tag, head, rest, hb, hopening, heq⟩ := exists_isBlock hblock
        have hst' := Respelled.keep c hst
        rw [heq] at hst' ⊢ hn
        obtain ⟨head', content', rest', heq', hb', hhead, hcontent, hrest⟩ := hb.exists_respelled hst'
        rw [heq', blocks_of_isBlock hb, blocks_of_isBlock hb']
        refine .cons ⟨.keep _ (hhead.append (.refl _)), hcontent⟩ (ih rest.length ?_ hrest rfl)
        rw [← hn]
        simp only [List.length_cons, List.length_append]
        omega
    | @swap s t old new code hold hnew hst =>
      have hplain {u : List Char} (hu : RefersTo code u) : '<' ∉ u := hu.isReference.not_mem (by decide) (by decide)
      rw [blocks_append (hplain hold), blocks_append (hplain hnew)]
      refine ih s.length ?_ hst rfl
      obtain ⟨name, rfl, -⟩ := hold.isReference
      rw [← hn]
      simp only [List.length_cons, List.length_append]
      omega

/-! ## Protecting -/

/-- The block that a block becomes in the protected text: its content is wrapped, and not once more. -/
structure Protected (b b' : Block) : Prop where
  opening : Respelled b.opening b'.opening
  content : Respelled (wrapContent b.content) b'.content
  wrapped : wrapContent b'.content = b'.content

theorem blocks_protect (s : List Char) : List.Forall₂ Protected (blocks s) (blocks (protect s)) := by
  have hblocks := blocks_respelled (respelled_replaceOutside (wrapEnding s))
  rw [blocks_wrapEnding, List.forall₂_map_left_iff] at hblocks
  refine hblocks.imp fun b b' h => ⟨h.1, h.2, ?_⟩
  exact ((isWrapped_wrapContent b.content).respelled h.2).wrapContent_eq

/-- Protecting a protected template changes nothing. Its blocks are those of the template. -/
theorem protect_protect (s : List Char) :
    protect (protect s) = protect s ∧ List.Forall₂ Protected (blocks s) (blocks (protect s)) := by
  have hblocks := blocks_protect s
  refine ⟨?_, hblocks⟩
  have hwrapped : ∀ b' ∈ blocks (protect s), wrapContent b'.content = b'.content := by
    have hflip : List.Forall₂ (fun b' b => wrapContent b'.content = b'.content ∧ Protected b b')
        (blocks (protect s)) (blocks s) := (hblocks.imp fun _ _ h => ⟨h.wrapped, h⟩).flip
    exact ((List.forall₂_and_left _ _).1 hflip).1
  rw [protect, wrapEnding_eq_self hwrapped]
  exact replaceOutside_replaceOutside _

end Template

end EmailMarkup
