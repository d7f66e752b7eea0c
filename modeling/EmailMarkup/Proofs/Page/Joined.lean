import EmailMarkup.Proofs.Html.Comments
import EmailMarkup.Proofs.Page.Conditional
import Mathlib.Data.List.Find
import Mathlib.Logic.Relation
/-!
# What joining conditional comments hides

Joining is rewriting: a step takes out what stands between the end of a row and the start of the next (`Joins`). The
result is reached by such steps (`joins_joinConditionals`), and none is left in it (`not_joins_joinConditionals`), so
joining again changes nothing. And what one step does not change for a reader, joining does not change
(`sameTo_joinConditionals`).

There are two readers. One leaves out every comment (`withoutComments`); Outlook takes the conditional comments for
markup, and leaves out their marks only (`withoutMarks`). Up to blanks, both see the same before and after.
-/
namespace EmailMarkup.Page

open EmailMarkup.Text EmailMarkup.Html

/-! ## One step -/

/-- What can close the table of a row. -/
def rowCloses : List (List Char) := [rowClose, rectangleClose ++ rowClose]

theorem endsRow_iff {s : List Char} : endsRow s = true ↔ ∃ row ∈ rowCloses, conditionalOpen ++ row <:+ s := by
  simp [endsRow, rowCloses, endsWith_eq_true_iff]

theorem endsRow_append {s : List Char} (h : endsRow s = true) (front : List Char) : endsRow (front ++ s) = true := by
  obtain ⟨row, hrow, hsuffix⟩ := endsRow_iff.1 h
  exact endsRow_iff.2 ⟨row, hrow, hsuffix.trans (List.suffix_append front s)⟩

theorem getLast?_rowCloses {row : List Char} (h : row ∈ rowCloses) : row.getLast? = some '>' := by
  revert h row
  decide

theorem getLast?_of_endsRow {s : List Char} (h : endsRow s = true) : s.getLast? = some '>' := by
  obtain ⟨row, hrow, front, rfl⟩ := endsRow_iff.1 h
  rw [List.getLast?_append, List.getLast?_append, getLast?_rowCloses hrow, Option.some_or, Option.some_or]

theorem slash_mem_of_endsRow {s : List Char} (h : endsRow s = true) : '/' ∈ s := by
  obtain ⟨row, hrow, hsuffix⟩ := endsRow_iff.1 h
  have hslash : ∀ row ∈ rowCloses, '/' ∈ row := by decide
  exact hsuffix.subset (List.mem_append_right _ (hslash row hrow))

theorem nextRow?_length {s next : List Char} (h : nextRow? s = some next) : next.length ≤ s.length := by
  obtain ⟨blanks, -, rfl, -⟩ := nextRow?_eq_some_iff.1 h
  simp only [List.length_append]
  omega

/-- Between two rows, the marks are taken out with the blanks between them. -/
inductive Joins : List Char → List Char → Prop
  | step {before after next : List Char} (hbefore : endsRow before = true) (hnext : nextRow? after = some next) :
      Joins (before ++ (conditionalClose ++ after)) (before ++ next)

theorem Joins.append {s t : List Char} (h : Joins s t) (front : List Char) : Joins (front ++ s) (front ++ t) := by
  obtain ⟨hbefore, hnext⟩ := h
  rw [← List.append_assoc, ← List.append_assoc front]
  exact .step (endsRow_append hbefore front) hnext

/-! ## All steps -/

/-- With the length of the text as fuel, or more, the fuel never runs out. -/
theorem joinFrom_eq {m n : Nat} {s : List Char} (hm : s.length ≤ m) (hn : s.length ≤ n) : joinFrom m s = joinFrom n s := by
  induction m generalizing n s with
  | zero =>
    obtain rfl := List.eq_nil_of_length_eq_zero (Nat.le_zero.1 hm)
    cases n <;> rfl
  | succ m ih =>
    cases n with
    | zero =>
      obtain rfl := List.eq_nil_of_length_eq_zero (Nat.le_zero.1 hn)
      rfl
    | succ n =>
      rw [joinFrom, joinFrom]
      cases hcut : cut conditionalClose s with
      | none => rfl
      | some p =>
        have hlength := cut_length hcut
        have hclose : conditionalClose.length = 12 := rfl
        have hafter : joinFrom m p.2 = joinFrom n p.2 := ih (by omega) (by omega)
        simp only [hafter]
        cases hnext : nextRow? p.2 with
        | none => rfl
        | some next =>
          have hle := nextRow?_length hnext
          have hrest : joinFrom m next = joinFrom n next := ih (by omega) (by omega)
          simp only [hrest]

section

variable {s before after : List Char} (h : cut conditionalClose s = some (before, after))

include h

theorem joinConditionals_eq_joined {next : List Char} (hends : endsRow before = true) (hnext : nextRow? after = some next) :
    joinConditionals s = before ++ joinConditionals next := by
  have hlength := cut_length h
  have hclose : conditionalClose.length = 12 := rfl
  have hle := nextRow?_length hnext
  obtain ⟨n, hn⟩ : ∃ n, s.length = n + 1 := ⟨s.length - 1, by omega⟩
  have hrest : joinFrom n next = joinConditionals next := joinFrom_eq (by omega) (Nat.le_refl _)
  rw [joinConditionals, hn]
  simp only [joinFrom, h, hnext, hends, if_true, hrest]

theorem joinConditionals_eq_kept (hkept : endsRow before = true → nextRow? after = none) :
    joinConditionals s = before ++ (conditionalClose ++ joinConditionals after) := by
  have hlength := cut_length h
  have hclose : conditionalClose.length = 12 := rfl
  obtain ⟨n, hn⟩ : ∃ n, s.length = n + 1 := ⟨s.length - 1, by omega⟩
  have hafter : joinFrom n after = joinConditionals after := joinFrom_eq (by omega) (Nat.le_refl _)
  rw [joinConditionals, hn]
  simp only [joinFrom, h, hafter]
  cases hends : endsRow before with
  | true => simp [hkept hends]
  | false => cases nextRow? after <;> simp

end

/-- Induction along joining: no mark closes a comment, or the first such mark is taken out, or it stays. -/
theorem joinConditionals_induction {motive : List Char → List Char → Prop}
    (whole : ∀ s, occurs conditionalClose s = false → motive s s)
    (joined : ∀ before after next, occurs conditionalClose before = false → endsRow before = true →
      nextRow? after = some next → motive next (joinConditionals next) →
      motive (before ++ (conditionalClose ++ after)) (before ++ joinConditionals next))
    (kept : ∀ before after, occurs conditionalClose before = false → (endsRow before = true → nextRow? after = none) →
      motive after (joinConditionals after) →
      motive (before ++ (conditionalClose ++ after)) (before ++ (conditionalClose ++ joinConditionals after)))
    (s : List Char) : motive s (joinConditionals s) := by
  induction hn : s.length using Nat.strongRecOn generalizing s with
  | ind n ih =>
    cases hcut : cut conditionalClose s with
    | none =>
      have hself : joinConditionals s = s := by
        cases s with
        | nil => rfl
        | cons c s => simp [joinConditionals, joinFrom, hcut]
      rw [hself]
      exact whole s (by simp [occurs, hcut])
    | some p =>
      obtain ⟨before, after⟩ := p
      have hs := cut_eq_append hcut
      rw [List.append_assoc] at hs
      have hfirst : occurs conditionalClose before = false := occurs_before_cut (by decide) hcut
      have hlength := cut_length hcut
      have hclose : conditionalClose.length = 12 := rfl
      by_cases hkept : endsRow before = true → nextRow? after = none
      · rw [joinConditionals_eq_kept hcut hkept, hs]
        exact kept before after hfirst hkept (ih after.length (by omega) after rfl)
      · obtain ⟨hends, hnext⟩ := Classical.not_imp.1 hkept
        obtain ⟨next, hnext⟩ := Option.ne_none_iff_exists'.1 hnext
        have hle := nextRow?_length hnext
        rw [joinConditionals_eq_joined hcut hends hnext, hs]
        exact joined before after next hfirst hends hnext (ih next.length (by omega) next rfl)

/-- The result of joining is reached by joining step by step. -/
theorem joins_joinConditionals (s : List Char) : Relation.ReflTransGen Joins s (joinConditionals s) := by
  have hlift {s t : List Char} (front : List Char) (h : Relation.ReflTransGen Joins s t) :
      Relation.ReflTransGen Joins (front ++ s) (front ++ t) := h.lift (front ++ ·) fun _ _ hstep => hstep.append front
  induction s using joinConditionals_induction with
  | whole s => exact .refl
  | joined before after next _ hends hnext ih => exact .head (.step hends hnext) (hlift before ih)
  | kept before after _ _ ih => exact hlift before (hlift conditionalClose ih)

/-! ## No step is left -/

/-- A text begins after joining as before, up to the marks. -/
theorem startsWith_joinConditionals {pat : List Char} (hn : 'n' ∉ pat) (hslash : '/' ∉ pat) (s : List Char) :
    startsWith pat (joinConditionals s) = startsWith pat s := by
  induction s using joinConditionals_induction with
  | whole s => rfl
  | joined before after next _ hends _ _ =>
    have hmem := slash_mem_of_endsRow hends
    rw [startsWith_append_of_mem hmem hslash, startsWith_append_of_mem hmem hslash]
  | kept before after _ _ _ =>
    have hmem : 'n' ∈ before ++ conditionalClose := List.mem_append_right before (by decide)
    rw [← List.append_assoc, ← List.append_assoc, startsWith_append_of_mem hmem hn, startsWith_append_of_mem hmem hn]

theorem nextRow?_ne_none_iff {s : List Char} : nextRow? s ≠ none ↔
    ∃ blanks, (∀ c ∈ blanks, isAsciiBlank c = true) ∧ startsWith (blanks ++ (conditionalOpen ++ tableOpen)) s = true := by
  rw [Option.ne_none_iff_exists']
  constructor
  · rintro ⟨next, hnext⟩
    obtain ⟨blanks, hblanks, rfl, htable⟩ := nextRow?_eq_some_iff.1 hnext
    obtain ⟨rest, rfl⟩ := startsWith_eq_true_iff.1 htable
    exact ⟨blanks, hblanks, startsWith_eq_true_iff.2 ⟨rest, by simp⟩⟩
  · rintro ⟨blanks, hblanks, hstart⟩
    obtain ⟨rest, rfl⟩ := startsWith_eq_true_iff.1 hstart
    exact ⟨tableOpen ++ rest, nextRow?_eq_some_iff.2
      ⟨blanks, hblanks, by simp, startsWith_eq_true_iff.2 (List.prefix_append _ _)⟩⟩

theorem nextRow?_joinConditionals {s : List Char} (h : nextRow? s = none) : nextRow? (joinConditionals s) = none := by
  refine Classical.byContradiction fun hnext => ?_
  obtain ⟨blanks, hblanks, hstart⟩ := nextRow?_ne_none_iff.1 hnext
  have hnot {q : Char} (hq : isAsciiBlank q = false) (hmark : q ∉ conditionalOpen ++ tableOpen) :
      q ∉ blanks ++ (conditionalOpen ++ tableOpen) := by
    rw [List.mem_append, not_or]
    exact ⟨fun hmem => by simp [hblanks q hmem] at hq, hmark⟩
  rw [startsWith_joinConditionals (hnot rfl (by decide)) (hnot rfl (by decide))] at hstart
  exact nextRow?_ne_none_iff.2 ⟨blanks, hblanks, hstart⟩ h

/-- A mark with a bracket only in front of it does not go on in what begins with a bracket. -/
theorem prefix_of_append {pat s t : List Char} (hpat : '<' ∉ pat.tail) (ht : t.head? = some '<') (hs : s ≠ [])
    (h : pat <+: s ++ t) : pat <+: s := by
  have hapart : Apart pat s t := .of_tail ht hpat
  rwa [← startsWith_eq_true_iff, hapart s hs (List.suffix_refl s), startsWith_eq_true_iff] at h

/-- No row end goes on in the table that follows it. -/
theorem endsRow_of_append_table {before s : List Char} (hs : tableOpen <+: s)
    (h : endsRow (before ++ s) = true) : endsRow s = true := by
  obtain ⟨row, hrow, hsuffix⟩ := endsRow_iff.1 h
  rcases List.suffix_or_suffix_of_suffix hsuffix (List.suffix_append before s) with hsuffix | hin
  · exact endsRow_iff.2 ⟨row, hrow, hsuffix⟩
  · have hnone : ∀ row ∈ rowCloses, occurs tableOpen (conditionalOpen ++ row) = false := by decide
    rw [← startsWith_eq_true_iff, startsWith, strip?_eq_none_of_occurs (hnone row hrow) hin] at hs
    cases hs

/-- No row end goes on behind the end of a conditional comment. -/
theorem endsRow_of_append_close {before s : List Char} (h : endsRow (before ++ conditionalClose ++ s) = true) :
    endsRow s = true := by
  obtain ⟨row, hrow, front, hfront⟩ := endsRow_iff.1 h
  rcases List.append_eq_append_iff.1 hfront with ⟨u, hu, hsplit⟩ | ⟨u, -, hs⟩
  · -- The part `u` of the row end in front of `s` would be an end of the mark, and there is none that begins as it does.
    have hn : ∀ row ∈ rowCloses, 'n' ∉ conditionalOpen ++ row := by decide
    have hnot : ¬conditionalClose <:+ u := fun hin =>
      hn row hrow (hsplit ▸ List.mem_append_left s (hin.subset (by decide)))
    have hsuffix : u <:+ conditionalClose :=
      (List.suffix_or_suffix_of_suffix ⟨front, hu.symm⟩ (List.suffix_append before conditionalClose)).resolve_right hnot
    cases u with
    | nil => exact endsRow_iff.2 ⟨row, hrow, [], hsplit⟩
    | cons d u =>
      obtain rfl : '<' = d := (List.cons.inj hsplit).1
      rcases List.suffix_cons_iff.1 hsuffix with heq | htail
      · exact absurd (heq ▸ List.suffix_refl _) hnot
      · exact absurd (htail.subset List.mem_cons_self) (by decide)
  · exact endsRow_iff.2 ⟨row, hrow, u, hs.symm⟩

/-- Joining leaves nothing to be joined. -/
theorem not_joins_joinConditionals (s : List Char) : ∀ t, ¬Joins (joinConditionals s) t := by
  suffices h : ∀ before after, joinConditionals s = before ++ (conditionalClose ++ after) → endsRow before = true →
      nextRow? after = none by
    rintro t hstep
    generalize hs : joinConditionals s = u at hstep
    obtain ⟨hends, hnext⟩ := hstep
    rw [h _ _ hs hends] at hnext
    cases hnext
  induction s using joinConditionals_induction with
  | whole s hnone =>
    intro before after heq _
    have hstrip := strip?_eq_none_of_occurs hnone ⟨before, heq.symm⟩
    rw [strip?_append] at hstrip
    cases hstrip
  | joined first rest next hnone hends hnext ih =>
    intro before after heq hbefore
    -- What is joined begins with a table, so the row end is behind it.
    obtain ⟨blanks, -, -, htable⟩ := nextRow?_eq_some_iff.1 hnext
    have hapart : Apart conditionalClose first (joinConditionals next) :=
      .of_getLast? (getLast?_of_endsRow hends) (by decide)
    obtain ⟨u, rfl, hu⟩ := hapart.eq_append_of_eq hnone heq
    have hstart : tableOpen <+: u ++ (conditionalClose ++ after) := by
      rwa [← hu, ← startsWith_eq_true_iff, startsWith_joinConditionals (by decide) (by decide)]
    have hne : u ≠ [] := by
      rintro rfl
      rw [List.nil_append, ← startsWith_eq_true_iff] at hstart
      cases hstart
    exact ih u after hu (endsRow_of_append_table (prefix_of_append (by decide) rfl hne hstart) hbefore)
  | kept first rest hnone hkept ih =>
    intro before after heq hbefore
    have hapart : Apart conditionalClose first (conditionalClose ++ joinConditionals rest) :=
      .of_tail (q := '<') rfl (by decide)
    obtain ⟨u, rfl, hu⟩ := hapart.eq_append_of_eq hnone heq
    cases u with
    | nil =>
      obtain rfl : joinConditionals rest = after := List.append_cancel_left hu
      rw [List.append_nil] at hbefore
      exact nextRow?_joinConditionals (hkept hbefore)
    | cons d u =>
      have htail : Apart conditionalClose conditionalClose.tail (joinConditionals rest) := .of_not_mem (by decide)
      obtain ⟨rfl, hrest⟩ := List.cons.inj hu
      obtain ⟨v, rfl, hv⟩ := htail.eq_append_of_eq (by decide) hrest
      have hends : endsRow (first ++ conditionalClose ++ v) = true := by rwa [List.append_assoc]
      exact ih v after hv (endsRow_of_append_close hends)

theorem joinConditionals_of_not_joins {s : List Char} (h : ∀ t, ¬Joins s t) : joinConditionals s = s := by
  rcases (joins_joinConditionals s).cases_head with heq | ⟨t, hstep, -⟩
  · exact heq.symm
  · exact absurd hstep (h t)

/-! ## Readers -/

/-- Whether two texts are the same for a reader, up to blanks. -/
def SameTo (reader : List Char → List Char) (s t : List Char) : Prop :=
  (reader s).filter (!isAsciiBlank ·) = (reader t).filter (!isAsciiBlank ·)

theorem filter_blanks {blanks : List Char} (h : ∀ c ∈ blanks, isAsciiBlank c = true) :
    blanks.filter (!isAsciiBlank ·) = [] := by
  rw [List.filter_eq_nil_iff]
  intro c hc
  simp [h c hc]

/-- What no step changes, joining does not change. -/
theorem sameTo_joinConditionals {reader : List Char → List Char} (h : ∀ s t, Joins s t → SameTo reader s t)
    (s : List Char) : SameTo reader s (joinConditionals s) := by
  have hjoins := joins_joinConditionals s
  generalize joinConditionals s = t at hjoins
  induction hjoins with
  | refl => exact rfl
  | tail _ hstep ih => exact ih.trans (h _ _ hstep)

/-! ### Comments left out -/

/-- A text without its comments. The flag is whether it begins inside one; one that is not closed goes to the end. -/
def withoutCommentsFrom : Bool → List Char → List Char
  | false, '<' :: '!' :: '-' :: '-' :: s => withoutCommentsFrom true s
  | false, c :: s => c :: withoutCommentsFrom false s
  | true, '-' :: '-' :: '>' :: s => withoutCommentsFrom false s
  | true, _ :: s => withoutCommentsFrom true s
  | _, [] => []

def withoutComments (s : List Char) : List Char := withoutCommentsFrom false s

/-- A text in front of a bracket does not depend on what follows, and leaves off inside a comment or outside of one. -/
theorem withoutCommentsFrom_append (inside : Bool) (s : List Char) : ∃ inside', ∀ t, t.head? = some '<' →
    withoutCommentsFrom inside (s ++ t) = withoutCommentsFrom inside s ++ withoutCommentsFrom inside' t := by
  fun_induction withoutCommentsFrom inside s with
  | case1 s ih =>
    obtain ⟨inside', h⟩ := ih
    exact ⟨inside', fun t ht => h t ht⟩
  | case2 c s hc ih =>
    obtain ⟨inside', h⟩ := ih
    refine ⟨inside', fun t ht => ?_⟩
    rw [List.cons_append, withoutCommentsFrom, h t ht, List.cons_append]
    rintro r rfl hr
    have hopen : commentOpen <+: '<' :: s :=
      prefix_of_append (by decide) ht (List.cons_ne_nil _ s) ⟨r, congrArg ('<' :: ·) hr.symm⟩
    obtain ⟨r', hr'⟩ := hopen
    exact hc r' rfl (List.cons.inj hr').2.symm
  | case3 s ih =>
    obtain ⟨inside', h⟩ := ih
    exact ⟨inside', fun t ht => h t ht⟩
  | case4 c s hc ih =>
    obtain ⟨inside', h⟩ := ih
    refine ⟨inside', fun t ht => ?_⟩
    rw [List.cons_append, withoutCommentsFrom, h t ht]
    rintro r rfl hr
    have hclose : commentClose <+: '-' :: s :=
      prefix_of_append (by decide) ht (List.cons_ne_nil _ s) ⟨r, congrArg ('-' :: ·) hr.symm⟩
    obtain ⟨r', hr'⟩ := hclose
    exact hc r' rfl (List.cons.inj hr').2.symm
  | case5 inside => exact ⟨inside, fun t _ => by cases inside <;> rfl⟩

theorem withoutCommentsFrom_row {row : List Char} (h : row ∈ rowCloses) (inside : Bool) (t : List Char) :
    withoutCommentsFrom inside (conditionalOpen ++ row ++ t) = withoutCommentsFrom true t := by
  simp only [rowCloses, List.mem_cons, List.not_mem_nil, or_false] at h
  rcases h with rfl | rfl <;> cases inside <;> rfl

theorem withoutCommentsFrom_blanks {blanks : List Char} (h : ∀ c ∈ blanks, isAsciiBlank c = true) (t : List Char) :
    withoutCommentsFrom false (blanks ++ t) = blanks ++ withoutCommentsFrom false t := by
  induction blanks with
  | nil => rfl
  | cons c blanks ih =>
    rw [List.forall_mem_cons] at h
    rw [List.cons_append, withoutCommentsFrom, ih h.2, List.cons_append]
    rintro r rfl -
    cases h.1

theorem Joins.sameTo_withoutComments {s t : List Char} (h : Joins s t) : SameTo withoutComments s t := by
  obtain ⟨hends, hnext⟩ := h
  obtain ⟨row, hrow, front, rfl⟩ := endsRow_iff.1 hends
  obtain ⟨blanks, hblanks, rfl, -⟩ := nextRow?_eq_some_iff.1 hnext
  obtain ⟨inside, hfront⟩ := withoutCommentsFrom_append false front
  have hclose (r : List Char) : withoutCommentsFrom true (conditionalClose ++ r) = withoutCommentsFrom false r := rfl
  have hopen (r : List Char) : withoutCommentsFrom false (conditionalOpen ++ r) = withoutCommentsFrom true r := rfl
  rw [SameTo, withoutComments, withoutComments, List.append_assoc front, List.append_assoc front, hfront _ rfl,
    hfront _ rfl, withoutCommentsFrom_row hrow, withoutCommentsFrom_row hrow, hclose, withoutCommentsFrom_blanks hblanks,
    hopen]
  simp only [List.filter_append, filter_blanks hblanks, List.nil_append]

/-! ### Marks left out -/

/-- A text without the given marks. -/
def withoutMarks (marks : List (List Char)) (s : List Char) : List Char :=
  substitute (fun s => (marks.find? (startsWith · s)).map fun mark => ([], mark.length)) s

section

variable {marks : List (List Char)} (hmarks : ∀ mark ∈ marks, mark ∈ [conditionalOpen, conditionalClose])

include hmarks

theorem takesPiece_withoutMarks :
    TakesPiece fun s => (marks.find? (startsWith · s)).map fun mark => (([] : List Char), mark.length) := by
  intro t p hp
  obtain ⟨mark, hmark, rfl⟩ := Option.map_eq_some_iff.1 hp
  have hstart : startsWith mark t = true := by simpa using List.find?_some hmark
  obtain ⟨rest, rfl⟩ := startsWith_eq_true_iff.1 hstart
  have hne : ∀ mark ∈ [conditionalOpen, conditionalClose], mark ≠ [] := by decide
  exact ⟨mark, rest, rfl, hne mark (hmarks mark (List.mem_of_find?_eq_some hmark)), rfl⟩

theorem withoutMarks_append {s t : List Char} (h : ∀ mark ∈ [conditionalOpen, conditionalClose], Apart mark s t) :
    withoutMarks marks (s ++ t) = withoutMarks marks s ++ withoutMarks marks t := by
  refine substitute_append (takesPiece_withoutMarks hmarks) fun u hu hs => ?_
  rw [List.find?_congr fun mark hmark => h mark (hmarks mark hmark) u hu hs]

/-- No mark goes on in a text that begins with a bracket. -/
theorem withoutMarks_append_of_head? {t : List Char} (ht : t.head? = some '<') (s : List Char) :
    withoutMarks marks (s ++ t) = withoutMarks marks s ++ withoutMarks marks t := by
  have htail : ∀ mark ∈ [conditionalOpen, conditionalClose], '<' ∉ mark.tail := by decide
  exact withoutMarks_append hmarks fun mark hmark => .of_tail ht (htail mark hmark)

/-- No mark goes on behind a text that ends in a bracket. -/
theorem withoutMarks_append_of_getLast? {s : List Char} (hs : s = [] ∨ s.getLast? = some '>') (t : List Char) :
    withoutMarks marks (s ++ t) = withoutMarks marks s ++ withoutMarks marks t := by
  rcases hs with rfl | hs
  · rfl
  · have hlast : ∀ mark ∈ [conditionalOpen, conditionalClose], '>' ∉ mark.dropLast := by decide
    exact withoutMarks_append hmarks fun mark hmark => .of_getLast? hs (hlast mark hmark)

theorem withoutMarks_eq_self {s : List Char} (h : ∀ mark ∈ [conditionalOpen, conditionalClose], occurs mark s = false) :
    withoutMarks marks s = s := by
  refine substitute_eq_self fun c t ht => ?_
  rw [Option.map_eq_none_iff, List.find?_eq_none]
  intro mark hmark
  simp [startsWith, strip?_eq_none_of_occurs (h mark (hmarks mark hmark)) ht]

theorem withoutMarks_row {row : List Char} (h : row ∈ rowCloses) : withoutMarks marks row = row := by
  have hnone : ∀ row ∈ rowCloses, ∀ mark ∈ [conditionalOpen, conditionalClose], occurs mark row = false := by decide
  exact withoutMarks_eq_self hmarks (hnone row h)

theorem withoutMarks_blanks {blanks : List Char} (h : ∀ c ∈ blanks, isAsciiBlank c = true) (t : List Char) :
    withoutMarks marks (blanks ++ t) = blanks ++ withoutMarks marks t := by
  have hbracket : '<' ∉ blanks := fun hmem => by cases h _ hmem
  have hhead : ∀ mark ∈ [conditionalOpen, conditionalClose], '<' ∈ mark := by decide
  have hapart : ∀ mark ∈ [conditionalOpen, conditionalClose], Apart mark blanks t := by
    simp only [List.forall_mem_cons]
    exact ⟨.of_not_mem hbracket, .of_not_mem hbracket, by simp⟩
  rw [withoutMarks_append hmarks hapart,
    withoutMarks_eq_self hmarks fun mark hmark => occurs_of_not_mem (hhead mark hmark) hbracket]

end

/-- Between two rows, the second text has nothing where the first has `left`, blanks and `right`. -/
inductive Gap (left right : List Char) : List Char → List Char → Prop
  | between {front row blanks next : List Char} (hrow : row ∈ rowCloses) (hblanks : ∀ c ∈ blanks, isAsciiBlank c = true) :
      Gap left right (front ++ (row ++ (left ++ (blanks ++ (right ++ next))))) (front ++ (row ++ next))

theorem Joins.gap {s t : List Char} (h : Joins s t) : Gap conditionalClose conditionalOpen s t := by
  obtain ⟨hends, hnext⟩ := h
  obtain ⟨row, hrow, front, rfl⟩ := endsRow_iff.1 hends
  obtain ⟨blanks, hblanks, rfl, -⟩ := nextRow?_eq_some_iff.1 hnext
  rw [← List.append_assoc front, List.append_assoc _ row, List.append_assoc _ row]
  exact .between hrow hblanks

theorem Gap.withoutMarks (marks : List (List Char)) (hmarks : ∀ mark ∈ marks, mark ∈ [conditionalOpen, conditionalClose])
    {left right s t : List Char} (hleft : left = [] ∨ left.getLast? = some '>')
    (hright : right = [] ∨ right.getLast? = some '>') (h : Gap left right s t) :
    Gap (withoutMarks marks left) (withoutMarks marks right) (withoutMarks marks s) (withoutMarks marks t) := by
  obtain @⟨front, row, blanks, next, hrow, hblanks⟩ := h
  have hhead (r : List Char) : (row ++ r).head? = some '<' := by
    have hbracket : ∀ row ∈ rowCloses, row.head? = some '<' := by decide
    rw [List.head?_append, hbracket row hrow, Option.some_or]
  have hlast : row = [] ∨ row.getLast? = some '>' := .inr (getLast?_rowCloses hrow)
  rw [withoutMarks_append_of_head? hmarks (hhead _), withoutMarks_append_of_head? hmarks (hhead _),
    withoutMarks_append_of_getLast? hmarks hlast, withoutMarks_append_of_getLast? hmarks hlast,
    withoutMarks_row hmarks hrow, withoutMarks_append_of_getLast? hmarks hleft, withoutMarks_blanks hmarks hblanks,
    withoutMarks_append_of_getLast? hmarks hright]
  exact .between hrow hblanks

theorem Gap.filter_eq {s t : List Char} (h : Gap [] [] s t) : s.filter (!isAsciiBlank ·) = t.filter (!isAsciiBlank ·) := by
  obtain ⟨-, hblanks⟩ := h
  simp only [List.filter_append, filter_blanks hblanks, List.nil_append]

theorem Joins.sameTo_withoutMarks {s t : List Char} (h : Joins s t) :
    SameTo (withoutMarks [conditionalOpen, conditionalClose]) s t := by
  have hnone := h.gap.withoutMarks [conditionalOpen, conditionalClose] (by decide) (.inr rfl) (.inr rfl)
  exact Gap.filter_eq hnone

theorem Joins.sameTo_withoutOpen {s t : List Char} (h : Joins s t) :
    SameTo (fun s => withoutMarks [conditionalClose] (withoutMarks [conditionalOpen] s)) s t := by
  have hclose := h.gap.withoutMarks [conditionalOpen] (by decide) (.inr rfl) (.inr rfl)
  have hnone := hclose.withoutMarks [conditionalClose] (by decide) (.inr rfl) (.inl rfl)
  exact Gap.filter_eq hnone

theorem Joins.sameTo_withoutClose {s t : List Char} (h : Joins s t) :
    SameTo (fun s => withoutMarks [conditionalOpen] (withoutMarks [conditionalClose] s)) s t := by
  have hopen := h.gap.withoutMarks [conditionalClose] (by decide) (.inr rfl) (.inr rfl)
  have hnone := hopen.withoutMarks [conditionalOpen] (by decide) (.inl rfl) (.inr rfl)
  exact Gap.filter_eq hnone

/-- Joining conditional comments is invisible, with all comments left out and with their marks left out, both kinds at
once or one kind after the other. There is nothing left to be joined. -/
theorem joinConditionals_invisible (s : List Char) :
    SameTo withoutComments s (joinConditionals s) ∧
      SameTo (withoutMarks [conditionalOpen, conditionalClose]) s (joinConditionals s) ∧
      SameTo (fun s => withoutMarks [conditionalClose] (withoutMarks [conditionalOpen] s)) s (joinConditionals s) ∧
      SameTo (fun s => withoutMarks [conditionalOpen] (withoutMarks [conditionalClose] s)) s (joinConditionals s) ∧
      joinConditionals (joinConditionals s) = joinConditionals s :=
  ⟨sameTo_joinConditionals (fun _ _ h => h.sameTo_withoutComments) s,
    sameTo_joinConditionals (fun _ _ h => h.sameTo_withoutMarks) s,
    sameTo_joinConditionals (fun _ _ h => h.sameTo_withoutOpen) s,
    sameTo_joinConditionals (fun _ _ h => h.sameTo_withoutClose) s,
    joinConditionals_of_not_joins (not_joins_joinConditionals s)⟩

end EmailMarkup.Page
