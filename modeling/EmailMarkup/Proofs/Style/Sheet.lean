import EmailMarkup.Proofs.Text.Blank
import EmailMarkup.Proofs.Text.Nesting
import EmailMarkup.Style.Stylesheet
/-!
# A stylesheet item by item

Once the comments are gone, reading takes one rule or at-rule after the other off the front of a stylesheet (`readItems_eq`).
A text `ReadsAs` a sheet if, whatever follows, reading turns it into that sheet and goes on behind it. Rules and kept blocks
that are closed are such texts.
-/
namespace EmailMarkup.Style

open EmailMarkup.Text

/-! ## One sheet behind another -/

namespace Stylesheet

/-- The rules and blocks of one sheet, and behind them those of the other. -/
instance : Append Stylesheet := ⟨fun a b => ⟨a.rules ++ b.rules, a.blocks ++ b.blocks⟩⟩

attribute [ext] Stylesheet

variable (a b c : Stylesheet)

@[simp] theorem rules_append : (a ++ b).rules = a.rules ++ b.rules := rfl

@[simp] theorem blocks_append : (a ++ b).blocks = a.blocks ++ b.blocks := rfl

@[simp] theorem empty_append : ({} : Stylesheet) ++ a = a := rfl

@[simp] theorem append_empty : a ++ ({} : Stylesheet) = a := Stylesheet.ext (List.append_nil _) (List.append_nil _)

theorem append_assoc : a ++ b ++ c = a ++ (b ++ c) :=
  Stylesheet.ext (List.append_assoc ..) (List.append_assoc ..)

/-- A sheet from its end. -/
def reverse : Stylesheet := ⟨a.rules.reverse, a.blocks.reverse⟩

theorem reverse_append : (a ++ b).reverse = b.reverse ++ a.reverse :=
  Stylesheet.ext List.reverse_append List.reverse_append

end Stylesheet

/-! ## Items -/

theorem Stylesheet.addRule_eq (sheet : Stylesheet) (selector body : List Char) :
    sheet.addRule selector body = ({} : Stylesheet).addRule selector body ++ sheet := by
  unfold addRule
  cases parseDeclarations body <;> rfl

theorem Stylesheet.addRule_of_ne_nil {body : List Char} (h : parseDeclarations body ≠ []) (selector : List Char) :
    ({} : Stylesheet).addRule selector body = ⟨[⟨String.ofList selector, parseDeclarations body⟩], []⟩ := by
  rw [addRule]
  split
  · rename_i heq
    exact absurd heq h
  · rfl

theorem Stylesheet.selector_of_mem_addRule {selector body : List Char} {r : Rule}
    (h : r ∈ (({} : Stylesheet).addRule selector body).rules) : r.selector = String.ofList selector := by
  by_cases hbody : parseDeclarations body = []
  · simp [addRule, hbody] at h
  · rw [addRule_of_ne_nil hbody] at h
    rw [List.mem_singleton.1 h]

theorem readAtRule_eq (sheet : Stylesheet) (s : List Char) :
    readAtRule sheet s = ((readAtRule {} s).1 ++ sheet, (readAtRule {} s).2) := by
  unfold readAtRule
  simp only
  by_cases hkept : isKeptBlock (lower (String.ofList (blockName (s.drop 1)))) = true
  · rw [if_pos hkept, if_pos hkept]
    cases cut ['{'] (s.drop (1 + (blockName (s.drop 1)).length)) with
    | none => rfl
    | some p => cases hblock : block? p.2 <;> simp only [hblock] <;> rfl
  · rw [if_neg hkept, if_neg hkept]
    cases cut [';'] s <;> rfl

theorem readRule_eq (sheet : Stylesheet) (s : List Char) :
    readRule sheet s = ((readRule {} s).1 ++ sheet, (readRule {} s).2) := by
  unfold readRule
  cases cut ['{'] s with
  | none => rfl
  | some p =>
    simp only
    by_cases hempty : (trimBoth isBlank p.1).isEmpty = true
    · rw [if_pos hempty, if_pos hempty]
      rfl
    · rw [if_neg hempty, if_neg hempty]
      cases block? p.2 with
      | none => rfl
      | some q =>
        simp only
        rw [Stylesheet.addRule_eq]

/-- The rule or at-rule at the front of a text, and what follows it. -/
def readItem (s : List Char) : Stylesheet × List Char := if s.head? = some '@' then readAtRule {} s else readRule {} s

theorem readItem_at (s : List Char) : readItem ('@' :: s) = readAtRule {} ('@' :: s) := if_pos rfl

theorem readItem_of_ne {s : List Char} (h : s.head? ≠ some '@') : readItem s = readRule {} s := if_neg h

/-- An item is one rule or one block at most. -/
theorem reverse_readItem (s : List Char) : (readItem s).1.reverse = (readItem s).1 := by
  unfold readItem readAtRule readRule Stylesheet.addRule
  simp only
  repeat' split
  all_goals rfl

theorem blockName_append_drop (s : List Char) : blockName s ++ s.drop (blockName s).length = s :=
  List.prefix_iff_eq_append.1 (List.takeWhile_prefix _)

/-- What an item can be: the whole text, all up to a semicolon or to a brace with nothing before it, or all up to the end of a
block. Only in the last case something may be read, a block or a rule whose selector stands before the brace. -/
theorem readItem_cases (s : List Char) :
    readItem s = ({}, []) ∨
    (∃ before c rest, s = before ++ c :: rest ∧ (c = ';' ∨ c = '{' ∧ trimBoth isBlank before = []) ∧
      readItem s = ({}, rest)) ∨
    ∃ before after body rest, s = before ++ '{' :: after ∧ block? after = some (body, rest) ∧ (readItem s).2 = rest ∧
      ((readItem s).1.rules = [] ∨ (readItem s).1 = ({} : Stylesheet).addRule (trimBoth isBlank before) body) := by
  by_cases hat : s.head? = some '@'
  · obtain ⟨t, rfl⟩ := List.head?_eq_some_iff.1 hat
    rw [readItem_at, readAtRule]
    simp only [List.drop_succ_cons, List.drop_zero, Nat.add_comm 1]
    by_cases hkept : isKeptBlock (lower (String.ofList (blockName t))) = true
    · rw [if_pos hkept]
      cases hcut : cut ['{'] (t.drop (blockName t).length) with
      | none => exact .inl rfl
      | some p =>
        obtain ⟨before, after⟩ := p
        cases hblock : block? after with
        | none => exact .inl (by simp only [hblock])
        | some q =>
          have hsplit : '@' :: t = '@' :: (blockName t ++ before) ++ '{' :: after := by
            rw [List.cons_append, List.append_assoc, ← (not_mem_of_cut hcut).1, blockName_append_drop]
          exact .inr (.inr ⟨_, after, q.1, q.2, hsplit, hblock, by simp only [hblock], .inl (by simp only [hblock])⟩)
    · rw [if_neg hkept]
      cases hcut : cut [';'] ('@' :: t) with
      | none => exact .inl rfl
      | some p => exact .inr (.inl ⟨p.1, ';', p.2, (not_mem_of_cut hcut).1, .inl rfl, rfl⟩)
  · rw [readItem_of_ne hat, readRule]
    cases hcut : cut ['{'] s with
    | none => exact .inl rfl
    | some p =>
      obtain ⟨before, after⟩ := p
      have hsplit := (not_mem_of_cut hcut).1
      simp only
      by_cases hempty : (trimBoth isBlank before).isEmpty = true
      · rw [if_pos hempty]
        exact .inr (.inl ⟨before, '{', after, hsplit, .inr ⟨rfl, List.isEmpty_iff.1 hempty⟩, rfl⟩)
      · rw [if_neg hempty]
        cases hblock : block? after with
        | none => exact .inl rfl
        | some q => exact .inr (.inr ⟨before, after, q.1, q.2, hsplit, hblock, rfl, .inr rfl⟩)

theorem length_readItem (c : Char) (s : List Char) : (readItem (c :: s)).2.length ≤ s.length := by
  rcases readItem_cases (c :: s) with heq | ⟨before, d, rest, hsplit, -, heq⟩ | ⟨before, after, body, rest, hsplit, hblock, heq, -⟩
  · rw [heq]
    exact Nat.zero_le _
  · have hlength := congrArg List.length hsplit
    rw [List.length_append, List.length_cons, List.length_cons] at hlength
    rw [heq]
    show rest.length ≤ _
    omega
  · obtain ⟨rfl, -⟩ := cutOutside_eq_some_iff.1 hblock
    have hlength := congrArg List.length hsplit
    simp only [List.length_append, List.length_cons] at hlength
    rw [heq]
    omega

theorem readSheet_succ {s r : List Char} {c : Char} (h : trimStart isBlank s = c :: r) (fuel : Nat) (sheet : Stylesheet) :
    readSheet (fuel + 1) sheet s = readSheet fuel ((readItem (c :: r)).1 ++ sheet) (readItem (c :: r)).2 := by
  rw [readSheet, h]
  by_cases hc : c = '@'
  · simp only [hc, if_true]
    rw [readItem_at, readAtRule_eq]
  · simp only [if_neg hc]
    rw [readItem_of_ne (by simpa using hc), readRule_eq]

theorem readSheet_of_blank {s : List Char} (h : trimStart isBlank s = []) (fuel : Nat) (sheet : Stylesheet) :
    readSheet fuel sheet s = sheet := by
  cases fuel with
  | zero => rfl
  | succ fuel => rw [readSheet, h]

/-- What was read before stays behind what is read. -/
theorem readSheet_eq (fuel : Nat) (sheet : Stylesheet) (s : List Char) :
    readSheet fuel sheet s = readSheet fuel {} s ++ sheet := by
  induction fuel generalizing sheet s with
  | zero => rfl
  | succ fuel ih =>
    cases htrim : trimStart isBlank s with
    | nil => rw [readSheet_of_blank htrim, readSheet_of_blank htrim, Stylesheet.empty_append]
    | cons c r =>
      rw [readSheet_succ htrim, readSheet_succ htrim, ih, ih (_ ++ {}), Stylesheet.append_empty, Stylesheet.append_assoc]

/-- Fuel beyond the length of the text is not used. -/
theorem readSheet_fuel {fuel : Nat} {s : List Char} (h : s.length ≤ fuel) (sheet : Stylesheet) :
    readSheet fuel sheet s = readSheet s.length sheet s := by
  suffices hany : ∀ fuel fuel' s sheet, s.length ≤ fuel → s.length ≤ fuel' →
      readSheet fuel sheet s = readSheet fuel' sheet s from hany _ _ s sheet h (Nat.le_refl _)
  clear h s fuel sheet
  intro fuel
  induction fuel with
  | zero =>
    intro fuel' s sheet hs _
    obtain rfl := List.length_eq_zero_iff.1 (Nat.le_zero.1 hs)
    rw [readSheet_of_blank rfl, readSheet_of_blank rfl]
  | succ fuel ih =>
    intro fuel' s sheet hs hs'
    cases htrim : trimStart isBlank s with
    | nil => rw [readSheet_of_blank htrim, readSheet_of_blank htrim]
    | cons c r =>
      have hlength : r.length < s.length := by
        have hle := length_trimStart_le isBlank s
        rw [htrim, List.length_cons] at hle
        omega
      have hrest := length_readItem c r
      cases fuel' with
      | zero => omega
      | succ fuel' => rw [readSheet_succ htrim, readSheet_succ htrim, ih fuel' _ _ (by omega) (by omega)]

/-! ## Items in a row -/

/-- The items of a text without comments. -/
def readItems (s : List Char) : Stylesheet := (readSheet s.length {} s).reverse

theorem ofChars_eq (s : List Char) : Stylesheet.ofChars s = readItems (withoutComments s) := rfl

theorem readItems_of_blank {s : List Char} (h : trimStart isBlank s = []) : readItems s = {} := by
  rw [readItems, readSheet_of_blank h]
  rfl

/-- The first item comes first, and the others are read from what follows it. -/
theorem readItems_eq {s r : List Char} {c : Char} (h : trimStart isBlank s = c :: r) :
    readItems s = (readItem (c :: r)).1 ++ readItems (readItem (c :: r)).2 := by
  have hlength := length_trimStart_le isBlank s
  rw [h, List.length_cons] at hlength
  obtain ⟨fuel, hfuel⟩ : ∃ fuel, s.length = fuel + 1 := ⟨s.length - 1, by omega⟩
  have hrest := length_readItem c r
  rw [readItems, hfuel, readSheet_succ h, readSheet_eq, readSheet_fuel (by omega), Stylesheet.append_empty,
    Stylesheet.reverse_append, reverse_readItem, readItems]

theorem readItems_of_head? {s : List Char} {c : Char} (h : s.head? = some c) (hc : isBlank c = false) :
    readItems s = (readItem s).1 ++ readItems (readItem s).2 := by
  obtain ⟨r, rfl⟩ := List.head?_eq_some_iff.1 h
  exact readItems_eq (List.dropWhile_cons_of_neg (by simp [hc]))

/-- Blanks before an item are passed over. -/
theorem readItems_cons_blank {c : Char} (hc : isBlank c = true) (s : List Char) : readItems (c :: s) = readItems s := by
  have htrim : trimStart isBlank (c :: s) = trimStart isBlank s := List.dropWhile_cons_of_pos hc
  cases hs : trimStart isBlank s with
  | nil => rw [readItems_of_blank hs, readItems_of_blank (htrim.trans hs)]
  | cons d r => rw [readItems_eq hs, readItems_eq (htrim.trans hs)]

/-! ## Comments -/

theorem withoutComments_cons {c : Char} {s : List Char} (h : strip? commentOpen (c :: s) = none) :
    withoutComments (c :: s) = c :: withoutComments s := by
  refine substitute_cons_of_none ?_
  rw [comment?, h]
  rfl

/-- A text without comments stays, if its last character cannot begin one. -/
theorem withoutComments_append {s : List Char} (h : occurs commentOpen s = false) (hlast : s.getLast? ≠ some '/')
    (rest : List Char) : withoutComments (s ++ rest) = s ++ withoutComments rest := by
  induction s with
  | nil => rfl
  | cons c s ih =>
    obtain ⟨hfirst, hs⟩ := Bool.or_eq_false_iff.1 ((occurs_cons commentOpen c s).symm.trans h)
    have hnone : strip? commentOpen (c :: (s ++ rest)) = none := by
      cases s with
      | nil =>
        have hc : '/' ≠ c := fun heq => hlast (by rw [← heq]; rfl)
        exact strip?_cons_of_ne hc _ _
      | cons d s => simpa [startsWith, strip?, commentOpen] using hfirst
    have hlast' : s.getLast? ≠ some '/' := by
      cases s with
      | nil => simp
      | cons d s => simpa using hlast
    rw [List.cons_append, withoutComments_cons hnone, ih hs hlast', List.cons_append]

theorem withoutComments_of_not_occurs {s : List Char} (h : occurs commentOpen s = false) : withoutComments s = s := by
  refine substitute_eq_self fun c t ht => ?_
  rw [comment?, strip?_eq_none_of_occurs h ht]
  rfl

/-- A comment goes with its end mark, or with all that follows if it has none. -/
theorem withoutComments_commentOpen (s : List Char) :
    withoutComments (commentOpen ++ s) = ((cut commentClose s).map fun p => withoutComments p.2).getD [] := by
  have hopen := strip?_append commentOpen s
  cases hcut : cut commentClose s with
  | none =>
    have hstep : (comment? (commentOpen ++ s ++ [])).map (([] : List Char), ·) = some ([], (commentOpen ++ s).length) := by
      rw [List.append_nil, comment?, hopen]
      simp only [Option.bind_eq_bind, Option.bind_some, hcut]
      rfl
    rw [← List.append_nil (commentOpen ++ s), withoutComments, substitute_append_of_some (by simp [commentOpen]) hstep]
    rfl
  | some p =>
    obtain ⟨inside, rest⟩ := p
    have hsplit : commentOpen ++ s = commentOpen ++ (inside ++ commentClose) ++ rest := by
      rw [cut_eq_append hcut, List.append_assoc commentOpen]
    have hstep : (comment? (commentOpen ++ (inside ++ commentClose) ++ rest)).map (([] : List Char), ·) =
        some ([], (commentOpen ++ (inside ++ commentClose)).length) := by
      rw [← hsplit, comment?, hopen]
      simp only [Option.bind_eq_bind, Option.bind_some, hcut]
      simp [commentOpen, commentClose]
    rw [hsplit, withoutComments, substitute_append_of_some (by simp [commentOpen]) hstep]
    rfl

/-- Whatever follows, `s` is read as `sheet`, and reading goes on behind it. -/
def ReadsAs (s : List Char) (sheet : Stylesheet) : Prop :=
  ∀ rest, Stylesheet.ofChars (s ++ rest) = sheet ++ Stylesheet.ofChars rest

namespace ReadsAs

variable {s t : List Char} {a b : Stylesheet}

theorem nil : ReadsAs [] {} := fun _ => rfl

theorem append (hs : ReadsAs s a) (ht : ReadsAs t b) : ReadsAs (s ++ t) (a ++ b) := by
  intro rest
  rw [List.append_assoc, hs, ht, Stylesheet.append_assoc]

theorem ofChars_eq (h : ReadsAs s a) : Stylesheet.ofChars s = a := by
  have hs := h []
  rwa [List.append_nil, show Stylesheet.ofChars [] = {} from rfl, Stylesheet.append_empty] at hs

theorem of_readItems (hcomment : occurs commentOpen s = false) (hlast : s.getLast? ≠ some '/')
    (h : ∀ rest, readItems (s ++ rest) = a ++ readItems rest) : ReadsAs s a := by
  intro rest
  rw [Style.ofChars_eq, withoutComments_append hcomment hlast, h, ← Style.ofChars_eq]

theorem newline : ReadsAs ['\n'] {} :=
  of_readItems (by decide) (by decide) fun rest => readItems_cons_blank (by decide) rest

end ReadsAs

/-! ## Rules -/

/-- The text of a selector list, as a rule can begin with it. -/
structure IsSelectorText (s : List Char) : Prop where
  ne_nil : s ≠ []
  trimmed : Trimmed isBlank s
  no_at : s.head? ≠ some '@'
  no_brace : '{' ∉ s
  no_comment : occurs commentOpen s = false

theorem block?_append {body : List Char} (h : Passes braces '}' {} body {}) (rest : List Char) :
    block? (body ++ '}' :: rest) = some (body, rest) :=
  cutOutside_eq_some_iff.2 ⟨rfl, {}, h, rfl⟩

/-- A rule that is closed is read from its selector and its body. -/
theorem readItems_rule {selector body : List Char} (hselector : IsSelectorText selector)
    (hbody : Passes braces '}' {} body {}) (rest : List Char) :
    readItems (selector ++ ' ' :: '{' :: (body ++ '}' :: rest)) =
      ({} : Stylesheet).addRule selector body ++ readItems rest := by
  obtain ⟨c, s, rfl⟩ := List.exists_cons_of_ne_nil hselector.ne_nil
  have hstart (t : List Char) : trimStart isBlank (c :: t) = c :: t :=
    List.dropWhile_cons_of_neg (by simp [hselector.trimmed.head c rfl])
  have hcut : cut ['{'] (c :: s ++ ' ' :: '{' :: (body ++ '}' :: rest)) = some (c :: s ++ [' '], body ++ '}' :: rest) := by
    have hbrace : '{' ∉ c :: s ++ [' '] := by simpa using hselector.no_brace
    simpa using cut_char hbrace (body ++ '}' :: rest)
  have htrim : trimBoth isBlank (c :: s ++ [' ']) = c :: s := by
    rw [trimBoth, List.cons_append, hstart, ← List.cons_append]
    exact trimEnd_append (by simp [isBlank]) (by rw [List.head?_reverse]; exact hselector.trimmed.last)
  have hitem : readItem (c :: s ++ ' ' :: '{' :: (body ++ '}' :: rest)) =
      (({} : Stylesheet).addRule (c :: s) body, rest) := by
    have hno_at : (c :: s ++ ' ' :: '{' :: (body ++ '}' :: rest)).head? ≠ some '@' := hselector.no_at
    rw [readItem_of_ne hno_at, readRule, hcut]
    simp only [htrim, List.isEmpty_cons, Bool.false_eq_true, if_false, block?_append hbody]
  rw [readItems_of_head? rfl (hselector.trimmed.head c rfl), hitem]

/-- No comment begins across a character that is not in its mark. -/
theorem occurs_append_of_head? {s t : List Char} {q : Char} (hs : occurs commentOpen s = false)
    (ht : occurs commentOpen t = false) (hq : t.head? = some q) (hmem : q ∉ commentOpen) :
    occurs commentOpen (s ++ t) = false := by
  have hcut : cut commentOpen t = none := by simpa [occurs] using ht
  rw [occurs, (Apart.of_head? hq hmem).cut_eq hs, hcut]
  rfl

theorem ReadsAs.rule {selector body : List Char} (hselector : IsSelectorText selector) (hbody : Passes braces '}' {} body {})
    (hcomment : occurs commentOpen body = false) :
    ReadsAs (selector ++ ' ' :: '{' :: (body ++ ['}'])) (({} : Stylesheet).addRule selector body) := by
  refine of_readItems ?_ (by simp [List.getLast?_cons]) fun rest => ?_
  · have hbody' : occurs commentOpen (body ++ ['}']) = false :=
      occurs_append_of_head? hcomment (by decide) rfl (by decide)
    refine occurs_append_of_head? hselector.no_comment ?_ rfl (by decide)
    simpa [occurs_cons, startsWith, strip?, commentOpen] using hbody'
  · simpa using readItems_rule hselector hbody rest

/-! ## Blocks -/

/-- A block at-rule: its first brace opens the body, and the body ends as it begins, outside quotes and braces. -/
structure AtBlock where
  head : List Char
  body : List Char
  head_no_brace : '{' ∉ head
  body_passes : Passes braces '}' {} body {}

namespace AtBlock

variable (b : AtBlock)

def text : List Char := '@' :: (b.head ++ '{' :: (b.body ++ ['}']))

/-- Whether the block stays in a style element. -/
def isKept : Bool := isKeptBlock (lower (String.ofList (blockName b.head)))

theorem text_append (rest : List Char) : b.text ++ rest = '@' :: (b.head ++ '{' :: (b.body ++ '}' :: rest)) := by simp [text]

theorem getLast?_text : b.text.getLast? = some '}' := by simp [text, List.getLast?_cons]

theorem trimmed_text : Trimmed isBlank b.text := by
  refine ⟨fun c hc => ?_, fun c hc => ?_⟩
  · obtain rfl : '@' = c := Option.some.inj hc
    decide
  · obtain rfl : '}' = c := Option.some.inj (b.getLast?_text.symm.trans hc)
    decide

/-- The name ends before the brace. -/
theorem blockName_head_append (rest : List Char) : blockName (b.head ++ '{' :: rest) = blockName b.head := by
  obtain ⟨xs, r, hsplit, hxs, hr⟩ := exists_span (fun c => !(isBlank c || c == '{' || c == ';')) b.head
  rw [hsplit, List.append_assoc, blockName, blockName, (span_append hxs hr).1]
  refine (span_append hxs ?_).1
  cases r with
  | nil => simp
  | cons c r => simpa using hr

/-- A kept block ends with its closing brace, any other one with the next semicolon. -/
theorem readItem_text (rest : List Char) : readItem (b.text ++ rest) =
    if b.isKept then (⟨[], [String.ofList b.text]⟩, rest) else ({}, ((cut [';'] (b.text ++ rest)).map Prod.snd).getD []) := by
  have hcut : cut ['{'] ((b.head ++ '{' :: (b.body ++ '}' :: rest)).drop (blockName b.head).length) =
      some (b.head.drop (blockName b.head).length, b.body ++ '}' :: rest) := by
    have hlength : (blockName b.head).length ≤ b.head.length := (List.takeWhile_prefix _).length_le
    rw [List.drop_append_of_le_length hlength]
    exact cut_char (fun hmem => b.head_no_brace (List.mem_of_mem_drop hmem)) _
  have htext : '@' :: blockName b.head ++ b.head.drop (blockName b.head).length ++ ['{'] ++ b.body ++ ['}'] = b.text := by
    rw [text, List.cons_append, blockName_append_drop]
    simp
  rw [text_append, readItem_at, readAtRule, isKept]
  simp only [List.drop_succ_cons, List.drop_zero, Nat.add_comm 1, blockName_head_append, hcut, block?_append b.body_passes,
    htext, b.trimmed_text.trimBoth_eq]
  split
  · rfl
  · cases cut [';'] ('@' :: (b.head ++ '{' :: (b.body ++ '}' :: rest))) <;> rfl

theorem readItems_text (rest : List Char) :
    readItems (b.text ++ rest) = (readItem (b.text ++ rest)).1 ++ readItems (readItem (b.text ++ rest)).2 := by
  rw [text_append]
  exact readItems_of_head? rfl rfl

theorem readsAs (hkept : b.isKept = true) (hcomment : occurs commentOpen b.text = false) :
    ReadsAs b.text ⟨[], [String.ofList b.text]⟩ := by
  refine .of_readItems hcomment (by simp [getLast?_text]) fun rest => ?_
  rw [readItems_text, readItem_text, if_pos hkept]

end AtBlock

end EmailMarkup.Style
