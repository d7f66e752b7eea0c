import EmailMarkup.Proofs.Text.Search
import EmailMarkup.Text.Blank
/-!
# Trimmed text, and text in pieces

What trimming leaves begins and ends with a character that is no blank; small letters do not change this. The pieces of
a text are cut at every character of a set, so a text is cut as its parts are (`pieces_append_cons`), and the pieces are
its stretches from one such character to the next (`mem_pieces_iff`).
-/
namespace EmailMarkup.Text

/-- The ends of a text are not in `p`. -/
structure Trimmed (p : Char → Bool) (s : List Char) : Prop where
  head : ∀ c ∈ s.head?, p c = false
  last : ∀ c ∈ s.getLast?, p c = false

theorem Trimmed.trimBoth_eq {p : Char → Bool} {s : List Char} (h : Trimmed p s) : trimBoth p s = s :=
  @trimBoth_append p s [] (by simp) h.head h.last

/-- Trimming gives back a text that was put between blanks. -/
theorem trimBoth_between {p : Char → Bool} {pre s post : List Char} (hpre : ∀ c ∈ pre, p c = true)
    (hpost : ∀ c ∈ post, p c = true) (hne : s ≠ []) (h : Trimmed p s) : trimBoth p (pre ++ (s ++ post)) = s := by
  have hhead : ∀ c ∈ (s ++ post).head?, p c = false := by
    obtain ⟨c, t, rfl⟩ := List.exists_cons_of_ne_nil hne
    exact h.head
  have hlast : ∀ c ∈ s.reverse.head?, p c = false := by
    rw [List.head?_reverse]
    exact h.last
  rw [trimBoth, trimStart, (span_append hpre hhead).2, trimEnd_append (fun c hc => hpost c (List.mem_reverse.1 hc)) hlast]

/-- What is cut off at the end, and what is left. -/
theorem trimEnd_spec (p : Char → Bool) (s : List Char) : ∃ post, s = trimEnd p s ++ post ∧ (∀ c ∈ post, p c = true) ∧
    ∀ c ∈ (trimEnd p s).getLast?, p c = false := by
  obtain ⟨xs, r, hsplit, hxs, hr⟩ := exists_span p s.reverse
  have htrim : trimEnd p s = r.reverse := by rw [trimEnd, hsplit, (span_append hxs hr).2]
  refine ⟨xs.reverse, ?_, fun c hc => hxs c (List.mem_reverse.1 hc), ?_⟩
  · rw [htrim, ← List.reverse_append, ← hsplit, List.reverse_reverse]
  · rw [htrim, List.getLast?_reverse]
    exact hr

/-- What is cut off at the ends, and what is left. -/
theorem trimBoth_spec (p : Char → Bool) (s : List Char) : ∃ pre post, s = pre ++ (trimBoth p s ++ post) ∧
    (∀ c ∈ pre, p c = true) ∧ (∀ c ∈ post, p c = true) ∧ Trimmed p (trimBoth p s) := by
  obtain ⟨pre, r, rfl, hpre, hr⟩ := exists_span p s
  obtain ⟨post, hsplit, hpost, hlast⟩ := trimEnd_spec p r
  have htrim : trimBoth p (pre ++ r) = trimEnd p r := by rw [trimBoth, trimStart, (span_append hpre hr).2]
  rw [htrim]
  refine ⟨pre, post, by rw [← hsplit], hpre, hpost, fun c hc => hr c ?_, hlast⟩
  rw [hsplit, List.head?_append, Option.mem_def.1 hc]
  rfl

theorem trimmed_iff {p : Char → Bool} {s : List Char} : Trimmed p s ↔ trimBoth p s = s := by
  refine ⟨Trimmed.trimBoth_eq, fun h => ?_⟩
  obtain ⟨-, -, -, -, -, htrimmed⟩ := trimBoth_spec p s
  rwa [h] at htrimmed

instance {p : Char → Bool} {s : List Char} : Decidable (Trimmed p s) := decidable_of_iff _ trimmed_iff.symm

theorem mem_trimBoth {p : Char → Bool} {s : List Char} {c : Char} (hc : c ∈ s) (hp : p c = false) : c ∈ trimBoth p s := by
  obtain ⟨pre, post, hsplit, hpre, hpost, -⟩ := trimBoth_spec p s
  rw [hsplit, List.mem_append, List.mem_append] at hc
  rcases hc with hmem | hmem | hmem
  · exact absurd (hpre c hmem) (by simp [hp])
  · exact hmem
  · exact absurd (hpost c hmem) (by simp [hp])

theorem length_trimBoth_le (p : Char → Bool) (s : List Char) : (trimBoth p s).length ≤ s.length := by
  obtain ⟨pre, post, hsplit, -, -, -⟩ := trimBoth_spec p s
  have hlength := congrArg List.length hsplit
  simp only [List.length_append] at hlength
  omega

/-! ## Pieces -/

theorem pieces_ne_nil (p : Char → Bool) (s : List Char) : pieces p s ≠ [] := by
  cases s with
  | nil => simp [pieces]
  | cons c s =>
    rw [pieces]
    split
    · simp
    · split <;> simp

theorem pieces_append_cons {p : Char → Bool} {c : Char} (hc : p c = true) (s t : List Char) :
    pieces p (s ++ c :: t) = pieces p s ++ pieces p t := by
  induction s with
  | nil => simp [pieces, hc]
  | cons d s ih =>
    rw [List.cons_append, pieces, pieces, ih]
    by_cases hd : p d = true
    · simp [hd]
    · obtain ⟨first, rest, heq⟩ := List.exists_cons_of_ne_nil (pieces_ne_nil p s)
      simp [hd, heq]

theorem pieces_of_none {p : Char → Bool} {s : List Char} (h : ∀ c ∈ s, p c = false) : pieces p s = [s] := by
  induction s with
  | nil => rfl
  | cons c s ih =>
    obtain ⟨hc, hs⟩ := List.forall_mem_cons.1 h
    rw [pieces, ih hs]
    simp [hc]

/-- The characters of the pieces are those that the text is not cut at. -/
theorem exists_mem_pieces_iff {p : Char → Bool} {c : Char} {s : List Char} :
    (∃ piece ∈ pieces p s, c ∈ piece) ↔ c ∈ s ∧ p c = false := by
  induction s with
  | nil => simp [pieces]
  | cons d s ih =>
    rw [pieces]
    by_cases hd : p d = true
    · have hne : p c = false → c ≠ d := by
        rintro hc rfl
        simp [hd] at hc
      simp only [hd, if_true, List.mem_cons, exists_eq_or_imp, List.not_mem_nil, false_or, ih]
      grind
    · obtain ⟨first, rest, heq⟩ := List.exists_cons_of_ne_nil (pieces_ne_nil p s)
      rw [heq] at ih ⊢
      simp only [hd, List.mem_cons, exists_eq_or_imp] at ih ⊢
      grind

/-- `w` is a stretch of `s` that goes from an end or a character in `p` to the next one. -/
def IsStretch (p : Char → Bool) (w s : List Char) : Prop :=
  ∃ before after, s = before ++ (w ++ after) ∧ (∀ c ∈ before.getLast?, p c = true) ∧ ∀ c ∈ after.head?, p c = true

/-- The pieces are the stretches without a character that the text is cut at. -/
theorem mem_pieces_iff {p : Char → Bool} {w s : List Char} :
    w ∈ pieces p s ↔ (∀ c ∈ w, p c = false) ∧ IsStretch p w s := by
  constructor
  · -- the first piece goes up to the first character in `p`, and the others are pieces of what follows it
    induction hn : s.length using Nat.strongRecOn generalizing s with
    | ind n ih =>
      obtain ⟨first, rest, rfl, hfirst, hrest⟩ := exists_span (!p ·) s
      have hnone : ∀ c ∈ first, p c = false := fun c hc => by simpa using hfirst c hc
      cases rest with
      | nil =>
        rw [List.append_nil, pieces_of_none hnone, List.mem_singleton]
        rintro rfl
        exact ⟨hnone, [], [], by simp⟩
      | cons c rest =>
        have hc : p c = true := by simpa using hrest c rfl
        rw [pieces_append_cons hc, pieces_of_none hnone, List.singleton_append, List.mem_cons]
        rintro (rfl | hw)
        · exact ⟨hnone, [], c :: rest, by simp, by simp, by simpa using hc⟩
        · obtain ⟨hplain, before, after, rfl, hbefore, hafter⟩ := ih rest.length (by simp at hn; omega) rfl hw
          refine ⟨hplain, first ++ c :: before, after, by simp, ?_, hafter⟩
          cases before with
          | nil => simpa using hc
          | cons d before => simpa using hbefore
  · rintro ⟨hplain, before, after, rfl, hbefore, hafter⟩
    have hhead : w ∈ pieces p (w ++ after) := by
      cases after with
      | nil => simp [pieces_of_none hplain]
      | cons c after => simp [pieces_append_cons (hafter c rfl), pieces_of_none hplain]
    rcases List.eq_nil_or_concat before with rfl | ⟨before, c, rfl⟩
    · exact hhead
    · rw [List.concat_eq_append, List.append_assoc, List.singleton_append, pieces_append_cons (hbefore c (by simp))]
      exact List.mem_append_right _ hhead

theorem mem_wordsBy_iff {p : Char → Bool} {w s : List Char} :
    w ∈ wordsBy p s ↔ w ≠ [] ∧ (∀ c ∈ w, p c = false) ∧ IsStretch p w s := by
  rw [wordsBy, List.mem_filter, mem_pieces_iff, and_comm]
  simp

/-! ## Small letters -/

theorem toLower_cases (c : Char) : c.toLower = c ∨ 65 ≤ c.toNat ∧ c.toNat ≤ 90 ∧ c.toLower.toNat = c.toNat + 32 := by
  by_cases h : c.val ≥ 'A'.val ∧ c.val ≤ 'Z'.val
  · have hlower : c.toLower = _ := dif_pos h
    have hcode : c.toLower.val = c.val + 32 := congrArg Char.val hlower
    have hlow : 65 ≤ c.toNat := h.1
    have hhigh : c.toNat ≤ 90 := h.2
    have hsum : c.toLower.toNat = (c.toNat + 32) % 4294967296 := congrArg UInt32.toNat hcode
    exact .inr ⟨hlow, hhigh, by omega⟩
  · exact .inl (dif_neg h)

theorem toLower_eq_self {c : Char} (h : ¬(65 ≤ c.toNat ∧ c.toNat ≤ 90)) : c.toLower = c := by
  rcases toLower_cases c with heq | hupper
  · exact heq
  · exact absurd ⟨hupper.1, hupper.2.1⟩ h

theorem toLower_toLower (c : Char) : c.toLower.toLower = c.toLower := by
  rcases toLower_cases c with heq | hupper
  · rw [heq, heq]
  · exact toLower_eq_self (by omega)

/-- Only a letter becomes a small letter. -/
theorem toLower_eq_iff {c d : Char} (hd : ¬(65 ≤ d.toNat ∧ d.toNat ≤ 90)) (hd' : ¬(97 ≤ d.toNat ∧ d.toNat ≤ 122)) :
    c.toLower = d ↔ c = d := by
  rcases toLower_cases c with heq | hupper
  · rw [heq]
  · constructor
    · rintro rfl
      omega
    · rintro rfl
      omega

theorem isBlank_toLower (c : Char) : isBlank c.toLower = isBlank c := by
  rcases toLower_cases c with heq | hupper
  · rw [heq]
  · rw [Bool.eq_iff_iff]
    simp only [isBlank, Bool.or_eq_true, Bool.and_eq_true, decide_eq_true_eq, beq_iff_eq]
    omega

end EmailMarkup.Text
