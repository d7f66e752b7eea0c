import EmailMarkup.Page.Conditional
import EmailMarkup.Proofs.Text.Search
/-!
# What joining conditional comments keeps

Joining takes out the marks of conditional comments and the blanks between two of them, and nothing else: any other
character is there as often as before (`count_joinConditionals`).
-/
namespace EmailMarkup.Page

open EmailMarkup.Text

/-- The next row follows blanks and the mark, and opens a table. -/
theorem nextRow?_eq_some_iff {s next : List Char} : nextRow? s = some next ↔
    ∃ blanks, (∀ c ∈ blanks, isAsciiBlank c = true) ∧ s = blanks ++ (conditionalOpen ++ next) ∧
      startsWith tableOpen next = true := by
  rw [nextRow?, Option.filter_eq_some_iff, strip?_eq_some_iff]
  constructor
  · rintro ⟨hstrip, htable⟩
    refine ⟨s.takeWhile isAsciiBlank, fun c hc => List.all_eq_true.1 List.all_takeWhile c hc, ?_, htable⟩
    rw [← hstrip]
    exact List.takeWhile_append_dropWhile.symm
  · rintro ⟨blanks, hblanks, rfl, htable⟩
    refine ⟨(span_append hblanks ?_).2, htable⟩
    intro c hc
    obtain rfl : c = '<' := by simpa [conditionalOpen] using hc.symm
    rfl

variable {q : Char} (hblank : isAsciiBlank q = false) (hopen : q ∉ conditionalOpen)

include hblank hopen

theorem count_nextRow? {s next : List Char} (h : nextRow? s = some next) : next.count q = s.count q := by
  obtain ⟨blanks, hblanks, rfl, -⟩ := nextRow?_eq_some_iff.1 h
  have hnone : q ∉ blanks := by
    intro hq
    rw [hblanks q hq] at hblank
    cases hblank
  rw [List.count_append, List.count_append, List.count_eq_zero.2 hnone, List.count_eq_zero.2 hopen, Nat.zero_add,
    Nat.zero_add]

theorem count_joinFrom (hclose : q ∉ conditionalClose) (fuel : Nat) (s : List Char) :
    (joinFrom fuel s).count q = s.count q := by
  induction fuel generalizing s with
  | zero => rfl
  | succ fuel ih =>
    rw [joinFrom]
    cases hcut : cut conditionalClose s with
    | none => rfl
    | some p =>
      obtain ⟨before, after⟩ := p
      have hs : s.count q = before.count q + after.count q := by
        rw [cut_eq_append hcut, List.count_append, List.count_append, List.count_eq_zero.2 hclose, Nat.add_zero]
      simp only
      split
      · rename_i next hnext
        split
        · rw [List.count_append, ih, count_nextRow? hblank hopen hnext, hs]
        · rw [List.count_append, List.count_append, List.count_eq_zero.2 hclose, ih, hs, Nat.add_zero]
      · rw [List.count_append, List.count_append, List.count_eq_zero.2 hclose, ih, hs, Nat.add_zero]

/-- Joining keeps every character that is no blank and in no mark. -/
theorem count_joinConditionals (hclose : q ∉ conditionalClose) (s : List Char) :
    (joinConditionals s).count q = s.count q :=
  count_joinFrom hblank hopen hclose s.length s

end EmailMarkup.Page
