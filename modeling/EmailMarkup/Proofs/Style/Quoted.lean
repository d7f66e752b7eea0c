import EmailMarkup.Proofs.Style.RoundTrip
import EmailMarkup.Proofs.Style.Sheet
/-!
# Quoted text in a stylesheet

Braces, semicolons, parentheses and marks of importance in a quoted text are passed over, and the text stays as it is. Comments
are taken out before quotes are looked at, so a quoted text is safe exactly if no comment begins in it (`parse_quoted_iff`).
-/
namespace EmailMarkup.Style

open EmailMarkup.Text

variable {s : List Char}

/-! ## A rule with a quoted text -/

/-- The declaration whose value is a quoted text. -/
def quoting (s : List Char) : Declaration := ⟨"content", String.ofList ('"' :: s ++ ['"']), false⟩

def contentFront : List Char := ['c', 'o', 'n', 't', 'e', 'n', 't', ':', ' ']

def quotingFront : List Char := 'a' :: ' ' :: '{' :: ' ' :: contentFront

def quotingBack : List Char := [';', ' ', '}']

theorem text_quoting (s : List Char) : (quoting s).text = contentFront ++ ('"' :: s ++ ['"']) := by
  simp [quoting, Declaration.text, contentFront]

/-- The quote behind a mark of importance makes it a part of the text. -/
theorem splitImportant_quoted (s : List Char) : splitImportant ('"' :: s ++ ['"']) = ('"' :: s ++ ['"'], false) := by
  rcases splitImportant_cases ('"' :: s ++ ['"']) with heq | ⟨before, after, hsplit, hmark, -⟩
  · exact heq
  · exfalso
    have hafter : '"' ∈ after := by
      rcases append_cons_cases hsplit with ⟨u, -, hnil⟩ | ⟨-, hne, -⟩ | ⟨u, -, rfl⟩
      · cases u <;> cases hnil
      · cases hne
      · simp
    have hmem : '"' ∈ importantMark := by
      rw [← hmark]
      exact List.mem_map.2 ⟨'"', mem_trimBoth hafter rfl, rfl⟩
    exact absurd hmem (by decide)

theorem wellFormed_quoting (s : List Char) : (quoting s).WellFormed where
  property_ne_nil := (by decide : "content".toList ≠ [])
  property_trimmed := (by decide : Trimmed isBlank "content".toList)
  property_lower := (by decide : "content".toList.map Char.toLower = "content".toList)
  colon_not_mem := (by decide : ':' ∉ "content".toList)
  value_ne_nil := by simp [quoting]
  value_trimmed := by
    have hblank : isBlank '"' = false := rfl
    refine ⟨fun c hc => ?_, fun c hc => ?_⟩
    · obtain rfl : '"' = c := by simpa [quoting] using hc
      exact hblank
    · obtain rfl : '"' = c := by simpa [quoting, List.getLast?_cons] using hc
      exact hblank
  unmarked := fun _ => by
    rw [quoting, String.toList_ofList]
    exact splitImportant_quoted s

/-- A search passes a quoted text with what stands around it. -/
theorem passes_quoted {b : Brackets} {separator : Char} (hsep : '"' ≠ separator) (hs : '"' ∉ s) {u v : List Char}
    (hu : u.any (b.isMark separator) = false) (hv : v.any (b.isMark separator) = false) :
    Passes b separator {} (u ++ ('"' :: s ++ ['"'] ++ v)) {} :=
  (Passes.of_no_mark hu).append ((Passes.quoted (.inl rfl) hsep hs).append (.of_no_mark hv))

theorem parseDeclarations_quoting (hs : '"' ∉ s) :
    parseDeclarations (' ' :: ((quoting s).text ++ [';', ' '])) = [quoting s] := by
  have hpasses : Passes parentheses ';' {} (quoting s).text {} := by
    rw [text_quoting, ← List.append_nil ('"' :: s ++ ['"'])]
    exact passes_quoted (by decide) hs (by decide) (by decide)
  exact parseDeclarations_text (wellFormed_quoting s) hpasses [' ']

/-- Without comments the quoted text does not matter. -/
theorem readItems_quoted (hs : '"' ∉ s) (rest : List Char) :
    readItems (quotingFront ++ ('"' :: s ++ '"' :: quotingBack) ++ rest) = ⟨[⟨"a", [quoting s]⟩], []⟩ ++ readItems rest := by
  have hselector : IsSelectorText ['a'] := ⟨by decide, by decide, by decide, by decide, by decide⟩
  have hbody : Passes braces '}' {} (' ' :: ((quoting s).text ++ [';', ' '])) {} := by
    rw [text_quoting, List.append_assoc, ← List.cons_append]
    exact passes_quoted (by decide) hs (by decide) (by decide)
  have hread := readItems_rule hselector hbody rest
  rw [Stylesheet.addRule_of_ne_nil (by rw [parseDeclarations_quoting hs]; simp), parseDeclarations_quoting hs, text_quoting] at hread
  simpa [quotingFront, quotingBack] using hread

/-- Nothing is read if the quote is not closed. -/
theorem readItems_unclosed (hs : '"' ∉ s) : readItems (quotingFront ++ '"' :: s) = {} := by
  have hbody : Passes braces '}' {} (' ' :: contentFront ++ (['"'] ++ s)) { quote := some '"' } :=
    (Passes.of_no_mark (by decide)).append ((Passes.cons_iff.2 ⟨by decide, .nil⟩).append (.inside hs))
  have hblock : block? (' ' :: contentFront ++ (['"'] ++ s)) = none := hbody.none_outside
  have hcut : cut ['{'] (quotingFront ++ '"' :: s) =
      some (['a', ' '], ' ' :: contentFront ++ (['"'] ++ s)) := rfl
  have hitem : readItem (quotingFront ++ '"' :: s) = ({}, []) := by
    rw [readItem_of_ne (by simp [quotingFront]), readRule, hcut]
    simp only [hblock, show (trimBoth isBlank ['a', ' ']).isEmpty = false from rfl, Bool.false_eq_true, if_false]
  rw [readItems_of_head? rfl rfl, hitem]
  rfl

/-! ## Comments in quotes -/

/-- What comments leave of a quoted text and of what stands behind it: less text than there was, or no quote any more. -/
theorem withoutComments_quoted (hs : '"' ∉ s) :
    (∃ s', withoutComments (s ++ '"' :: quotingBack) = s' ++ '"' :: quotingBack ∧ '"' ∉ s' ∧ s'.length ≤ s.length ∧
      (occurs commentOpen s = true → s'.length < s.length)) ∨
    '"' ∉ withoutComments (s ++ '"' :: quotingBack) := by
  induction hn : s.length using Nat.strongRecOn generalizing s with
  | ind n ih =>
    cases s with
    | nil => exact .inl ⟨[], by decide, by simp, by simp, fun h => absurd h (by decide)⟩
    | cons c t =>
      rw [List.length_cons] at hn
      rw [List.mem_cons, not_or] at hs
      cases hopen : strip? commentOpen (c :: t) with
      | none =>
        have hacross := strip?_append_cons (by decide : '"' ∉ commentOpen) (c :: t) quotingBack
        rw [hopen, Option.map_none, List.cons_append] at hacross
        rw [List.cons_append, withoutComments_cons hacross, occurs_cons, startsWith, hopen, Option.isSome_none, Bool.false_or]
        rcases ih t.length (by omega) hs.2 rfl with ⟨s', heq, hquote, hle, hlt⟩ | hnone
        · refine .inl ⟨c :: s', by rw [heq, List.cons_append], by simp [hs.1, hquote], by simp; omega, fun h => ?_⟩
          have := hlt h
          rw [List.length_cons]
          omega
        · exact .inr (by simp [hs.1, hnone])
      | some inside =>
        obtain ⟨rfl, rfl⟩ : c = '/' ∧ t = '*' :: inside := List.cons.inj (strip?_eq_some_iff.1 hopen)
        have hgone : withoutComments ('/' :: '*' :: inside ++ '"' :: quotingBack) = _ :=
          withoutComments_commentOpen (inside ++ '"' :: quotingBack)
        rw [hgone]
        cases hclose : cut commentClose inside with
        | none =>
          -- the comment takes the closing quote, and no quote stands behind it
          have hapart : Apart commentClose inside ('"' :: quotingBack) := .of_head? rfl (by decide)
          have hnone : cut commentClose (inside ++ '"' :: quotingBack) = none := by
            rw [hapart.cut_eq (by simp [occurs, hclose])]
            rfl
          rw [hnone]
          exact .inr (by simp)
        | some p =>
          obtain ⟨comment, rest⟩ := p
          have hlength := cut_length hclose
          have hrest : '"' ∉ rest := by
            rw [cut_eq_append hclose] at hs
            simp_all
          rw [List.length_cons] at hn
          rw [cut_append hclose, Option.map_some, Option.getD_some]
          rcases ih rest.length (by omega) hrest rfl with ⟨s', heq, hquote, hle, -⟩ | hnone
          · exact .inl ⟨s', heq, hquote, by omega, fun _ => by omega⟩
          · exact .inr hnone

/-- If no comment begins in it, a quoted text is read as it stands. -/
theorem readsAs_quoted (hs : '"' ∉ s) (hcomment : occurs commentOpen s = false) :
    ReadsAs (quotingFront ++ ('"' :: s ++ '"' :: quotingBack)) ⟨[⟨"a", [quoting s]⟩], []⟩ := by
  have hopen : occurs commentOpen ('"' :: s) = false := by
    rw [occurs_cons, hcomment]
    rfl
  have hquoted : occurs commentOpen ('"' :: s ++ '"' :: quotingBack) = false :=
    occurs_append_of_head? hopen (by decide) rfl (by decide)
  exact .of_readItems (occurs_append_of_head? (by decide) hquoted rfl (by decide))
    (by simp [quotingFront, quotingBack, List.getLast?_cons]) (readItems_quoted hs)

/-- If one does, it is not. -/
theorem ofChars_quoted_ne (hs : '"' ∉ s) (hcomment : occurs commentOpen s = true) :
    (Stylesheet.ofChars (quotingFront ++ ('"' :: s ++ '"' :: quotingBack))).rules ≠ [⟨"a", [quoting s]⟩] := by
  have hfront : withoutComments (quotingFront ++ ('"' :: s ++ '"' :: quotingBack)) =
      quotingFront ++ '"' :: withoutComments (s ++ '"' :: quotingBack) := by
    have happend := @withoutComments_append (quotingFront ++ ['"']) (by decide) (by decide) (s ++ '"' :: quotingBack)
    simpa using happend
  rw [ofChars_eq, hfront]
  rcases withoutComments_quoted hs with ⟨s', heq, hs', -, hshorter⟩ | hnone
  · have hread := readItems_quoted hs' []
    rw [List.append_nil, List.cons_append] at hread
    rw [heq, hread]
    intro hsame
    obtain ⟨hvalue, -⟩ : quoting s' = quoting s ∧ (readItems []).rules = [] := by simpa using hsame
    have hlength : s'.length = s.length := by simpa [quoting] using congrArg (fun d => d.value.toList.length) hvalue
    have := hshorter hcomment
    omega
  · rw [readItems_unclosed hnone]
    simp

/-- A rule with a quoted text is read as it stands, whatever follows, exactly if no comment begins in the text. -/
theorem parse_quoted_iff (s : String) (hs : '"' ∉ s.toList) :
    (∀ css : String, Stylesheet.parse ("a \x7b content: \"" ++ s ++ "\"; \x7d" ++ css) =
      ⟨⟨"a", [⟨"content", "\"" ++ s ++ "\"", false⟩]⟩ :: (Stylesheet.parse css).rules, (Stylesheet.parse css).blocks⟩) ↔
    occurs commentOpen s.toList = false := by
  have htext (css : String) : ("a \x7b content: \"" ++ s ++ "\"; \x7d" ++ css).toList =
      quotingFront ++ ('"' :: s.toList ++ '"' :: quotingBack) ++ css.toList := by
    simp [quotingFront, contentFront, quotingBack]
  have hvalue : "\"" ++ s ++ "\"" = String.ofList ('"' :: s.toList ++ ['"']) := by
    rw [← String.toList_inj, String.toList_ofList]
    simp
  simp only [Stylesheet.parse, htext, hvalue]
  constructor
  · intro h
    cases hcomment : occurs commentOpen s.toList with
    | false => rfl
    | true =>
      have hrules := congrArg Stylesheet.rules (h "")
      rw [String.toList_empty, List.append_nil] at hrules
      exact absurd hrules (ofChars_quoted_ne hs hcomment)
  · intro hcomment css
    rw [readsAs_quoted hs hcomment]
    rfl

/-- Semicolons, braces, an open parenthesis and a mark of importance. -/
theorem parse_quoted_marks : '"' ∉ "(;\x7d\x7b@!important".toList ∧ occurs commentOpen "(;\x7d\x7b@!important".toList = false ∧
    Stylesheet.parse ("a \x7b content: \"" ++ "(;\x7d\x7b@!important" ++ "\"; \x7d" ++ "b\x7bc:d\x7d") =
      ⟨⟨"a", [⟨"content", "\"" ++ "(;\x7d\x7b@!important" ++ "\"", false⟩]⟩ :: (Stylesheet.parse "b\x7bc:d\x7d").rules,
        (Stylesheet.parse "b\x7bc:d\x7d").blocks⟩ := by
  have hquote : '"' ∉ "(;\x7d\x7b@!important".toList := by decide +kernel
  have hcomment : occurs commentOpen "(;\x7d\x7b@!important".toList = false := by decide +kernel
  exact ⟨hquote, hcomment, (parse_quoted_iff _ hquote).2 hcomment _⟩

/-- A quoted text in which a comment begins takes the rules behind it away. -/
theorem parse_quoted_comment :
    Stylesheet.parse ("a \x7b content: \"" ++ "/*" ++ "\"; \x7d" ++ "b\x7bc:d\x7d") = {} := by
  decide +kernel

end EmailMarkup.Style
