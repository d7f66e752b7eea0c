import EmailMarkup.Proofs.Style.Sheet
/-!
# What stands behind a block

A kept block ends with its closing brace, so the rules behind it are read as if it were not there. Any other at-rule ends with
the next semicolon, and reading goes on inside the block. It never comes out of it again right behind its closing brace, so
there is always a rule that gets lost (`rules_behind_block`).
-/
namespace EmailMarkup.Style

open EmailMarkup.Text

/-! ## Inside a block -/

/-- What is left of the body of a block from some place in it on: the search for the closing brace passes it. -/
def Remaining (r : List Char) : Prop :=
  ∃ n : Nesting, (∀ q ∈ n.quote, q = '"' ∨ q = '\'') ∧ Passes braces '}' n r {}

theorem Remaining.of_append {u r : List Char} (h : Remaining (u ++ r)) : Remaining r := by
  obtain ⟨n, hquote, hpasses⟩ := h
  obtain ⟨n', hu, hr⟩ := Passes.append_iff.1 hpasses
  refine ⟨n', ?_, hr⟩
  rw [← hu.foldl_eq]
  clear hu hr hpasses
  induction u generalizing n with
  | nil => exact hquote
  | cons c u ih => exact ih _ (Nesting.quote_step hquote c)

/-- A search that is deeper by some braces stays so, unless it is in another quote. -/
theorem depth_foldl_step {n n' m : Nesting} {k : Nat} {s : List Char} (hquote : n.quote = n'.quote)
    (hdepth : n.depth = n'.depth + k) (h : Passes braces '}' n' s m) :
    (s.foldl (Nesting.step braces) n).depth = m.depth + k := by
  induction s generalizing n n' with
  | nil =>
    rw [← h.foldl_eq]
    exact hdepth
  | cons c s ih =>
    obtain ⟨hc, hs⟩ := Passes.cons_iff.1 h
    refine ih (by rw [Nesting.quote_step_eq, Nesting.quote_step_eq, hquote]) ?_ hs
    obtain ⟨depth, quote⟩ := n
    obtain ⟨depth', quote'⟩ := n'
    obtain rfl : quote = quote' := hquote
    cases quote with
    | some q =>
      simp only [Nesting.step]
      split <;> exact hdepth
    | none =>
      have hdepth : depth = depth' + k := hdepth
      have hclose : c = '}' → depth' ≠ 0 := fun heq hzero => hc ⟨by simp [Nesting.isOutside, hzero], heq⟩
      simp only [Nesting.step, braces, List.contains_cons, List.contains_nil, Bool.or_false, beq_iff_eq]
      split
      · exact hdepth
      · split
        · show depth + 1 = depth' + 1 + k
          omega
        · split
          · rename_i heq
            have hpos := hclose heq
            show depth - 1 = depth' - 1 + k
            omega
          · exact hdepth

/-- A block that is opened inside another one does not end with it. -/
theorem Remaining.not_passes {u r : List Char} (h : Remaining (u ++ '{' :: r)) : ¬Passes braces '}' {} r {} := by
  intro hinner
  obtain ⟨n, hquotes, hpasses⟩ := h.of_append
  obtain ⟨-, houter⟩ := Passes.cons_iff.1 hpasses
  have hquote : (n.step braces '{').quote = none := by
    have hsame : (r.foldl (Nesting.step braces) (n.step braces '{')).quote = (r.foldl (Nesting.step braces) {}).quote := by
      rw [houter.foldl_eq, hinner.foldl_eq]
    exact Nesting.quote_eq_of_foldl (Nesting.quote_step hquotes _) (by simp) hsame
  have hopen : n.quote = none := by
    rw [Nesting.quote_step_eq] at hquote
    cases hn : n.quote with
    | none => rfl
    | some q =>
      have hne : '{' ≠ q := by rcases hquotes q hn with rfl | rfl <;> decide
      rw [hn, Option.elim_some, if_neg hne] at hquote
      cases hquote
  have hdeeper : (n.step braces '{').depth = n.depth + 1 := by simp [Nesting.step, hopen, braces]
  have hend := depth_foldl_step hquote (hdeeper.trans (Nat.zero_add _).symm) hinner
  rw [houter.foldl_eq] at hend
  simp at hend

/-! ## A rule that gets lost -/

def longSelector (k : Nat) : List Char := List.replicate (k + 1) 'a'

def longRule (k : Nat) : List Char := longSelector k ++ ' ' :: '{' :: (['b', ':', 'c'] ++ ['}'])

theorem isSelectorText_longSelector (k : Nat) : IsSelectorText (longSelector k) where
  ne_nil := by simp [longSelector]
  trimmed := by
    have hmem {c : Char} (hc : c ∈ longSelector k) : isBlank c = false := by
      obtain rfl := List.eq_of_mem_replicate hc
      rfl
    exact ⟨fun c hc => hmem (List.mem_of_mem_head? hc), fun c hc => hmem (List.mem_of_getLast? hc)⟩
  no_at := by simp [longSelector, List.head?_replicate]
  no_brace := by simp [longSelector]
  no_comment := by
    have hslash : '/' ∉ longSelector k := by simp [longSelector]
    exact occurs_of_not_mem (by decide) hslash

theorem readsAs_longRule (k : Nat) : ReadsAs (longRule k) ⟨[⟨String.ofList (longSelector k), [⟨"b", "c", false⟩]⟩], []⟩ :=
  .rule (isSelectorText_longSelector k) (.of_no_mark (by decide)) (by decide)

/-- The closing brace of the rule is its last character. -/
theorem eq_nil_of_longRule {k : Nat} {u rest : List Char} (h : longRule k = u ++ '}' :: rest) : rest = [] := by
  have hlast : longRule k = longSelector k ++ [' ', '{', 'b', ':', 'c'] ++ '}' :: [] := by simp [longRule]
  rw [hlast] at h
  rcases append_cons_cases h with ⟨v, -, hnil⟩ | ⟨-, -, hrest⟩ | ⟨v, hbefore, -⟩
  · cases v <;> cases hnil
  · exact hrest.symm
  · have hmem : '}' ∈ longSelector k ++ [' ', '{', 'b', ':', 'c'] := by simp [hbefore]
    simp [longSelector] at hmem

/-- An item that begins inside a block ends inside it or at the very end, and its selector is not the long one. -/
theorem readItem_remaining {k : Nat} {r : List Char} (hr : Remaining r) (hk : r.length ≤ k) :
    (∀ rule ∈ (readItem (r ++ '}' :: longRule k)).1.rules, rule.selector.toList ≠ longSelector k) ∧
    ((readItem (r ++ '}' :: longRule k)).2 = [] ∨
      ∃ u r', r = u ++ r' ∧ (readItem (r ++ '}' :: longRule k)).2 = r' ++ '}' :: longRule k) := by
  rcases readItem_cases (r ++ '}' :: longRule k) with heq | ⟨before, c, rest, hsplit, hc, heq⟩ |
    ⟨before, after, body, rest, hsplit, hblock, hrest, hrules⟩
  · rw [heq]
    exact ⟨by simp, .inl rfl⟩
  · rw [heq]
    refine ⟨by simp, .inr ?_⟩
    rcases append_cons_cases hsplit with ⟨w, hbefore, hw⟩ | ⟨-, hbrace, -⟩ | ⟨w, rfl, hw⟩
    · exfalso
      rcases hc with rfl | ⟨rfl, hblank⟩
      · have hmem : ';' ∈ longRule k := by simp [hw]
        simp [longRule, longSelector] at hmem
      · have hmem : '}' ∈ trimBoth isBlank before := mem_trimBoth (by simp [hbefore]) rfl
        simp [hblank] at hmem
    · rcases hc with rfl | ⟨rfl, -⟩ <;> cases hbrace
    · exact ⟨before ++ [c], w, by simp, hw⟩
  · have hselector : ∀ rule ∈ (readItem (r ++ '}' :: longRule k)).1.rules,
        rule.selector.toList = trimBoth isBlank before := by
      intro rule hrule
      rcases hrules with hnone | hrule'
      · rw [hnone] at hrule
        cases hrule
      · rw [hrule'] at hrule
        rw [Stylesheet.selector_of_mem_addRule hrule, String.toList_ofList]
    obtain ⟨rfl, n, hbody, hout⟩ := cutOutside_eq_some_iff.1 hblock
    obtain rfl := Nesting.eq_of_isOutside hout
    rw [hrest]
    rcases append_cons_cases hsplit with ⟨w, hbefore, hw⟩ | ⟨-, hbrace, -⟩ | ⟨w, rfl, hw⟩
    · -- the closing brace stands before the selector of the rule
      have hlast : longRule k = (w ++ '{' :: body) ++ '}' :: rest := by rw [hw, List.append_assoc, List.cons_append]
      refine ⟨fun rule hrule heq => ?_, .inl (eq_nil_of_longRule hlast)⟩
      have hmem : '}' ∈ longSelector k := by
        rw [← heq, hselector rule hrule]
        exact mem_trimBoth (by simp [hbefore]) rfl
      simp [longSelector] at hmem
    · cases hbrace
    · refine ⟨fun rule hrule heq => ?_, ?_⟩
      · have hlength := length_trimBoth_le isBlank before
        rw [← hselector rule hrule, heq, longSelector, List.length_replicate] at hlength
        rw [List.length_append] at hk
        omega
      · rcases append_cons_cases hw with ⟨v, rfl, hv⟩ | ⟨rfl, -⟩ | ⟨v, -, hv⟩
        · exact .inr ⟨before ++ '{' :: (body ++ ['}']), v, by simp, hv⟩
        · exact absurd hbody hr.not_passes
        · exact .inl (eq_nil_of_longRule hv)

theorem readItems_remaining {k : Nat} {r : List Char} (hr : Remaining r) (hk : r.length ≤ k) :
    ∀ rule ∈ (readItems (r ++ '}' :: longRule k)).rules, rule.selector.toList ≠ longSelector k := by
  induction hn : r.length using Nat.strongRecOn generalizing r with
  | ind n ih =>
    obtain ⟨blanks, r, rfl, hblanks, hhead⟩ := exists_span isBlank r
    rw [List.length_append] at hk hn
    obtain ⟨c, s, hs⟩ : ∃ c s, r ++ '}' :: longRule k = c :: s := List.exists_cons_of_ne_nil (by simp)
    have htrim : trimStart isBlank (blanks ++ r ++ '}' :: longRule k) = c :: s := by
      rw [List.append_assoc, ← hs]
      refine (span_append hblanks ?_).2
      cases r with
      | nil => simp [isBlank]
      | cons d r => simpa using hhead
    obtain ⟨hfirst, hnext⟩ := readItem_remaining hr.of_append (by omega : r.length ≤ k)
    rw [hs] at hfirst hnext
    rw [readItems_eq htrim, Stylesheet.rules_append, List.forall_mem_append]
    refine ⟨hfirst, ?_⟩
    rcases hnext with hnil | ⟨u, r', rfl, hrest⟩
    · rw [hnil]
      simp [readItems, readSheet, Stylesheet.reverse]
    · have hshorter := length_readItem c s
      have hlength := congrArg List.length hs
      rw [hrest] at hshorter ⊢
      simp only [List.length_append, List.length_cons] at hshorter hlength hn hk
      exact ih r'.length (by omega) hr.of_append.of_append (by omega) rfl

/-- Behind a block that is not kept, the rule with the long selector is not read: what is read begins inside the block, or
there is nothing left. -/
theorem AtBlock.readItems_longRule {b : AtBlock} (hkept : b.isKept = false) (hhead : ';' ∉ b.head) {k : Nat}
    (hk : b.body.length ≤ k) :
    ∀ rule ∈ (readItems (b.text ++ longRule k)).rules, rule.selector.toList ≠ longSelector k := by
  rw [readItems_text, readItem_text, if_neg (by simp [hkept]), Stylesheet.empty_append]
  by_cases hbody : ';' ∈ b.body
  · obtain ⟨u, r, hsplit, hu⟩ := List.eq_append_cons_of_mem hbody
    have hcut : cut [';'] (b.text ++ longRule k) = some ('@' :: (b.head ++ '{' :: u), r ++ '}' :: longRule k) := by
      have hfront : ';' ∉ '@' :: (b.head ++ '{' :: u) := by simp [hhead, hu]
      have htext : b.text ++ longRule k = '@' :: (b.head ++ '{' :: u) ++ ';' :: (r ++ '}' :: longRule k) := by
        simp [text_append, hsplit]
      rw [htext]
      exact cut_char hfront _
    have hr : Remaining r := by
      have hpasses := b.body_passes
      rw [hsplit, List.append_cons] at hpasses
      exact Remaining.of_append ⟨{}, by simp, hpasses⟩
    rw [hcut]
    refine readItems_remaining hr ?_
    rw [hsplit, List.length_append, List.length_cons] at hk
    omega
  · have hnone : cut [';'] (b.text ++ longRule k) = none := by
      refine cut_char_eq_none ?_
      simp [text, hhead, hbody, longRule, longSelector]
    rw [hnone]
    simp [readItems, readSheet, Stylesheet.reverse]

/-- The rules behind a block that is kept are read as if the block were not there, whatever they are. Of no other block is this
so, unless a semicolon stands in its head. -/
theorem rules_behind_block (b : AtBlock) (hcomment : occurs commentOpen b.text = false) :
    (b.isKept = true → ∀ css : String,
      (Stylesheet.parse (String.ofList b.text ++ css)).rules = (Stylesheet.parse css).rules) ∧
    (b.isKept = false → ';' ∉ b.head → ∃ css : String,
      (Stylesheet.parse (String.ofList b.text ++ css)).rules ≠ (Stylesheet.parse css).rules) := by
  have hparse (css : String) : Stylesheet.parse (String.ofList b.text ++ css) = Stylesheet.ofChars (b.text ++ css.toList) := by
    rw [Stylesheet.parse, String.toList_append, String.toList_ofList]
  refine ⟨fun hkept css => ?_, fun hkept hhead => ?_⟩
  · rw [hparse, b.readsAs hkept hcomment]
    rfl
  · refine ⟨String.ofList (longRule b.body.length), fun heq => ?_⟩
    have hcomments : withoutComments (b.text ++ longRule b.body.length) = b.text ++ longRule b.body.length := by
      have hslash : '/' ∉ longRule b.body.length := by simp [longRule, longSelector]
      rw [withoutComments_append hcomment (by simp [b.getLast?_text]),
        withoutComments_of_not_occurs (occurs_of_not_mem (by decide) hslash)]
    have hlost := AtBlock.readItems_longRule hkept hhead (Nat.le_refl b.body.length)
    rw [← hcomments, ← ofChars_eq] at hlost
    rw [hparse, String.toList_ofList, Stylesheet.parse, String.toList_ofList, (readsAs_longRule _).ofChars_eq] at heq
    have hread : Rule.mk (String.ofList (longSelector b.body.length)) [⟨"b", "c", false⟩] ∈
        (Stylesheet.ofChars (b.text ++ longRule b.body.length)).rules := by
      rw [heq]
      exact List.mem_singleton.2 rfl
    refine hlost _ hread ?_
    rw [String.toList_ofList]

def mediaBlock : AtBlock where
  head := "media print ".toList
  body := "p\x7ba:\"\x7d\";\x7d".toList
  head_no_brace := by decide +kernel
  body_passes := ⟨by decide +kernel, by decide +kernel⟩

def supportsBlock : AtBlock where
  head := "supports (a:b) ".toList
  body := " p \x7b a: b; \x7d ".toList
  head_no_brace := by decide +kernel
  body_passes := ⟨by decide +kernel, by decide +kernel⟩

theorem rules_behind_block_media_supports :
    (occurs commentOpen mediaBlock.text = false ∧ mediaBlock.isKept = true ∧
      (Stylesheet.parse (String.ofList mediaBlock.text ++ "q\x7bc:d\x7d")).rules = (Stylesheet.parse "q\x7bc:d\x7d").rules) ∧
    occurs commentOpen supportsBlock.text = false ∧ supportsBlock.isKept = false ∧ ';' ∉ supportsBlock.head ∧
      ∃ css : String, (Stylesheet.parse (String.ofList supportsBlock.text ++ css)).rules ≠ (Stylesheet.parse css).rules := by
  have hmedia : occurs commentOpen mediaBlock.text = false := by decide +kernel
  have hkept : mediaBlock.isKept = true := by decide +kernel
  have hsupports : occurs commentOpen supportsBlock.text = false := by decide +kernel
  have hother : supportsBlock.isKept = false := by decide +kernel
  have hhead : ';' ∉ supportsBlock.head := by decide +kernel
  exact ⟨⟨hmedia, hkept, (rules_behind_block mediaBlock hmedia).1 hkept _⟩,
    hsupports, hother, hhead, (rules_behind_block supportsBlock hsupports).2 hother hhead⟩

/-- The end of the block becomes part of the next selector. -/
theorem rules_behind_supports :
    (Stylesheet.parse (String.ofList supportsBlock.text ++ " q \x7b c: d; \x7d")).rules =
      [⟨"\x7d \x7d q", [⟨"c", "d", false⟩]⟩] ∧
    (Stylesheet.parse " q \x7b c: d; \x7d").rules = [⟨"q", [⟨"c", "d", false⟩]⟩] := by
  decide +kernel

end EmailMarkup.Style
