import EmailMarkup.Proofs.Selector.Written
import EmailMarkup.Proofs.Text.Blank
import EmailMarkup.Proofs.Text.Search
/-!
# Reading what was written

Reading the text of a list of selectors that can be written gives the list back (`parseList?_listText`). A condition is
read off the front of a text if what follows does not go on with its name (`readSimple?_text`). With fuel for the text
that is left, the conditions of a compound are then read in turn, and a combinator puts the compound before it into the
chain (`Reads`). No comma inside a selector separates, because it stands in quotes or brackets (`passes_text`). Every
step reads at most one condition, so a selector counts no more of them than its text has characters
(`specificity_le_length`).
-/
namespace EmailMarkup.Selector

open EmailMarkup.Text

/-! ## Characters of names -/

/-- The code points of the characters of names. -/
theorem toNat_of_isIdentChar {c : Char} (h : isIdentChar c = true) :
    c.toNat = 45 ∨ 48 ≤ c.toNat ∧ c.toNat ≤ 57 ∨ 65 ≤ c.toNat ∧ c.toNat ≤ 90 ∨ c.toNat = 95 ∨
      97 ≤ c.toNat ∧ c.toNat ≤ 122 := by
  delta isIdentChar Char.isAlphanum Char.isAlpha Char.isUpper Char.isLower Char.isDigit at h
  simp only [Bool.or_eq_true, Bool.and_eq_true, decide_eq_true_eq, beq_iff_eq, ge_iff_le, UInt32.le_iff_toNat_le] at h
  rcases h with (((h | h) | h) | rfl) | rfl
  · exact .inr (.inr (.inl h))
  · exact .inr (.inr (.inr (.inr h)))
  · exact .inr (.inl h)
  · exact .inl rfl
  · exact .inr (.inr (.inr (.inl rfl)))

theorem isBlank_of_isIdentChar {c : Char} (h : isIdentChar c = true) : isBlank c = false := by
  have := toNat_of_isIdentChar h
  simp only [isBlank, Bool.or_eq_false_iff, Bool.and_eq_false_iff, decide_eq_false_iff_not, beq_eq_false_iff_ne]
  omega

theorem isNameChar_of_isIdentChar {c : Char} (h : isIdentChar c = true) : isNameChar c = true := by
  simp only [isIdentChar, Char.isAlphanum, Bool.or_eq_true, beq_iff_eq] at h
  simp only [isNameChar, isNameStart, Bool.or_eq_true, beq_iff_eq]
  grind

theorem IsLowerIdent.map_toLower {s : List Char} (h : IsLowerIdent s) : s.map Char.toLower = s := by
  refine (List.map_congr_left fun c hc => ?_).trans (List.map_id' s)
  exact dif_neg (of_decide_eq_false (h.2 c hc))

theorem readName?_append {name rest : List Char} (h : IsIdent name) (hrest : ∀ c ∈ rest.head?, isNameChar c = false) :
    readName? (name ++ rest) = some (name, rest) := by
  obtain ⟨htake, hdrop⟩ := span_append (fun c hc => isNameChar_of_isIdentChar (h.2 c hc)) hrest
  obtain ⟨c, r, rfl⟩ := List.exists_cons_of_ne_nil h.1
  rw [readName?, htake, hdrop]

theorem readLowerName?_append {name rest : List Char} (h : IsLowerIdent name)
    (hrest : ∀ c ∈ rest.head?, isNameChar c = false) : readLowerName? (name ++ rest) = some (name, rest) := by
  have hlower := h.map_toLower
  simp [readLowerName?, readName?_append h.1 hrest, hlower]

/-! ## Attribute tests -/

theorem isAsciiBlank_of_isBlank {c : Char} (h : isBlank c = false) : isAsciiBlank c = false := by
  rw [Bool.eq_false_iff]
  intro hblank
  simp only [isAsciiBlank, Bool.or_eq_true, beq_iff_eq] at hblank
  rcases hblank with (((rfl | rfl) | rfl) | rfl) | rfl <;> exact absurd h (by decide)

theorem skipBlank_of_head {s : List Char} (h : ∀ c ∈ s.head?, isAsciiBlank c = false) : skipBlank s = s := by
  cases s with
  | nil => rfl
  | cons c r => simp [skipBlank, h c rfl]

theorem readComparison?_text (comparison : Comparison) (rest : List Char) :
    readComparison? (comparison.text ++ rest) = some (comparison, rest) := by
  cases comparison <;> rfl

theorem readValue?_quoted {value : String} (h : '"' ∉ value.toList) (rest : List Char) :
    readValue? ('"' :: (value.toList ++ '"' :: rest)) = some (value, rest) := by
  simp [readValue?, cut_char h]

/-- The first character of an operator is neither a blank, nor a bracket, nor part of a name. -/
theorem exists_text_eq_cons (comparison : Comparison) :
    ∃ c r, comparison.text = c :: r ∧ isAsciiBlank c = false ∧ isNameChar c = false ∧ c ≠ ']' := by
  cases comparison <;> exact ⟨_, _, rfl, by decide, by decide, by decide⟩

theorem readAttribute?_text {test : AttributeTest} (h : (Simple.attr test).WellFormed) (rest : List Char) :
    readAttribute? (test.text ++ (']' :: rest)) = some (test, rest) := by
  obtain ⟨name, comparison⟩ := test
  obtain ⟨hname, hvalue⟩ := h
  have hskip (r : List Char) : skipBlank (name.toList ++ r) = name.toList ++ r := by
    obtain ⟨c, t, hct⟩ := List.exists_cons_of_ne_nil hname.1.1
    have hc := isAsciiBlank_of_isBlank (isBlank_of_isIdentChar (hname.1.2 c (by simp [hct])))
    exact skipBlank_of_head (by simpa [hct] using hc)
  have hclose : skipBlank (']' :: rest) = ']' :: rest := skipBlank_of_head (by simp; decide)
  cases comparison with
  | none =>
    have hread : readLowerName? (name.toList ++ ']' :: rest) = some (name.toList, ']' :: rest) :=
      readLowerName?_append hname (by simp; decide)
    simp [readAttribute?, AttributeTest.text, hskip, hread, hclose]
  | some p =>
    obtain ⟨comparison, value⟩ := p
    obtain ⟨c, r, htext, hblank, hc, hbracket⟩ := exists_text_eq_cons comparison
    have hread (s : List Char) : readLowerName? (name.toList ++ (comparison.text ++ s)) =
        some (name.toList, comparison.text ++ s) := readLowerName?_append hname (by simp [htext, hc])
    have hoperator (s : List Char) : skipBlank (comparison.text ++ s) = comparison.text ++ s :=
      skipBlank_of_head (by simp [htext, hblank])
    have hquote (s : List Char) : skipBlank ('"' :: s) = '"' :: s := skipBlank_of_head (by simp; decide)
    have hvalue' := readValue?_quoted (hvalue comparison value rfl) (']' :: rest)
    have hnext (t rest' : List Char) : comparison.text ++ t ≠ ']' :: rest' := by simp [htext, hbracket]
    simp only [readAttribute?, AttributeTest.text, List.append_assoc, List.cons_append, List.nil_append, hskip, hread,
      Option.pure_def, Option.bind_eq_bind, Option.bind_some, hoperator, String.ofList_toList]
    split
    · rename_i h
      exact absurd h (hnext _ _)
    · simp [readComparison?_text, hquote, hvalue', hclose]

/-! ## Pseudo-classes and pseudo-elements -/

/-- The parentheses inside a balanced text are passed over. -/
theorem readBalanced?_append {s : List Char} (h : Balanced s) (depth : Nat) (rest : List Char) :
    readBalanced? (depth + 1) (s ++ rest) = (readBalanced? (depth + 1) rest).map fun p => (s ++ p.1, p.2) := by
  induction h generalizing depth rest with
  | nil => simp
  | char hopen hclose _ _ ih =>
    simp [readBalanced?, hopen, hclose, ih, Function.comp_def]
  | group hs ht ihs iht =>
    simp [readBalanced?, ihs, iht, Function.comp_def]

theorem readArguments?_append {argument rest : List Char} (h : IsArgument argument) (hrest : ∀ c ∈ rest.head?, c ≠ '(') :
    readArguments? (argument ++ rest) = some (argument, rest) := by
  rcases h with rfl | ⟨inside, rfl, h⟩
  · refine readArguments?.eq_2 rest fun r hr => ?_
    exact hrest '(' (by simp [hr]) rfl
  · simp [readArguments?, readBalanced?_append h 0, readBalanced?]

/-- What stands behind a name: it neither goes on with it nor begins an argument. -/
def Stops (rest : List Char) : Prop := ∀ c ∈ rest.head?, isNameChar c = false ∧ c ≠ '('

/-- The name of a pseudo-class and its argument, as they are read one after the other. -/
theorem readPseudoName_append {s rest : List Char} (h : IsPseudoName s) (hrest : Stops rest) :
    ∃ name argument, s = name ++ argument ∧ readLowerName? (s ++ rest) = some (name, argument ++ rest) ∧
      readArguments? (argument ++ rest) = some (argument, rest) := by
  obtain ⟨name, argument, rfl, hname, hargument⟩ := h
  refine ⟨name, argument, rfl, ?_, readArguments?_append hargument fun c hc => (hrest c hc).2⟩
  rw [List.append_assoc]
  refine readLowerName?_append hname fun c hc => ?_
  rcases hargument with rfl | ⟨inside, rfl, -⟩
  · exact (hrest c hc).1
  · obtain rfl : '(' = c := by simpa using hc
    decide

theorem IsPseudoName.exists_cons {s : List Char} (h : IsPseudoName s) : ∃ c r, s = c :: r ∧ isIdentChar c = true := by
  obtain ⟨name, argument, rfl, hname, -⟩ := h
  obtain ⟨c, r, rfl⟩ := List.exists_cons_of_ne_nil hname.1.1
  exact ⟨c, _, rfl, hname.1.2 c (by simp)⟩

theorem readPseudo?_class {name : String} (h : (Simple.pseudoClass name).WellFormed) {rest : List Char} (hrest : Stops rest) :
    readPseudo? (name.toList ++ rest) = some (.pseudoClass name, rest) := by
  obtain ⟨hname, hsingle⟩ := h
  obtain ⟨n, argument, heq, hread, hargument⟩ := readPseudoName_append hname hrest
  obtain ⟨c, r, hcr, hc⟩ := hname.exists_cons
  have hofList : String.ofList n ++ String.ofList argument = name := by
    rw [← String.ofList_append, ← heq, String.ofList_toList]
  unfold readPseudo?
  split
  rename_i hcolon
  split at hcolon
  · rename_i heq
    obtain ⟨rfl, -⟩ : c = ':' ∧ _ := by simpa [hcr] using heq
    exact absurd hc (by decide)
  · obtain ⟨rfl, rfl⟩ := Prod.mk.inj hcolon
    simp [hread, hargument, hofList, hsingle]

theorem readPseudo?_element {name : String} (h : (Simple.pseudoElement name).WellFormed) {rest : List Char}
    (hrest : Stops rest) : readPseudo? (':' :: (name.toList ++ rest)) = some (.pseudoElement name, rest) := by
  obtain ⟨n, argument, heq, hread, hargument⟩ := readPseudoName_append h hrest
  have hofList : String.ofList n ++ String.ofList argument = name := by
    rw [← String.ofList_append, ← heq, String.ofList_toList]
  simp [readPseudo?, hread, hargument, hofList]

/-! ## Conditions -/

theorem readSimple?_text {s : Simple} (h : s.WellFormed) {first : Bool} (hfirst : s.isLeading = true → first = true)
    {rest : List Char} (hrest : Stops rest) : readSimple? first (s.text ++ rest) = some (s, rest) := by
  have hstop (c : Char) (hc : c ∈ rest.head?) : isNameChar c = false := (hrest c hc).1
  cases s with
  | tag name => 
    obtain ⟨c, r, hcr, hc, hr⟩ := h
    obtain ⟨htake, hdrop⟩ := span_append (fun d hd => isNameChar_of_isIdentChar (hr d hd)) hstop
    have hname : String.ofList (c :: r) = name := by rw [← hcr, String.ofList_toList]
    have hstart : isNameStart c = true := by rcases hc with hc | rfl <;> simp [isNameStart, *]
    have hne (d : Char) (hd : isNameStart d = false) : c ≠ d := by rintro rfl; exact absurd hstart (by simp [hd])
    rw [Simple.text, hcr, List.cons_append, readSimple?.eq_7 _ _ _ (hne _ (by decide)) (hne _ (by decide))
      (hne _ (by decide)) (hne _ (by decide)) (hne _ (by decide)), htake, hdrop, hname]
    simp [hfirst rfl, hstart]
  | className name => simp [readSimple?, Simple.text, readName?_append h hstop]
  | id name => simp [readSimple?, Simple.text, readName?_append h hstop]
  | any => rfl
  | pseudoClass name => simpa [readSimple?, Simple.text] using readPseudo?_class h hrest
  | pseudoElement name => simpa [readSimple?, Simple.text] using readPseudo?_element h hrest
  | attr test => simp [readSimple?, Simple.text, readAttribute?_text h]

/-! ## The ends of a text -/

/-- A text that begins with neither a blank nor a combinator. -/
def Begins (s : List Char) : Prop := ∃ c r, s = c :: r ∧ isBlank c = false ∧ combinator? c = none

theorem Begins.skipBlank_eq {s : List Char} (h : Begins s) : skipBlank s = s := by
  obtain ⟨c, r, rfl, hc, -⟩ := h
  exact skipBlank_of_head (by simpa using isAsciiBlank_of_isBlank hc)

theorem Begins.append {s : List Char} (h : Begins s) (t : List Char) : Begins (s ++ t) := by
  obtain ⟨c, r, rfl, hc⟩ := h
  exact ⟨c, r ++ t, rfl, hc⟩

/-- A text that begins so and does not end in a blank. -/
structure Framed (s : List Char) : Prop where
  head : Begins s
  last : ∀ c ∈ s.getLast?, isBlank c = false

namespace Framed

theorem last_append {t : List Char} (ht : Framed t) (s : List Char) : ∀ c ∈ (s ++ t).getLast?, isBlank c = false := by
  obtain ⟨d, u, rfl, -⟩ := ht.head
  intro c hc
  exact ht.last c (by simpa [List.getLast?_append] using hc)

theorem append {s t : List Char} (hs : Begins s) (ht : Framed t) : Framed (s ++ t) := ⟨hs.append t, ht.last_append s⟩

/-- A sign and a name. -/
theorem cons {c : Char} {s : List Char} (hc : isBlank c = false ∧ combinator? c = none)
    (hs : ∀ d ∈ s.getLast?, isBlank d = false) : Framed (c :: s) := by
  refine ⟨⟨c, s, rfl, hc⟩, fun e he => ?_⟩
  cases s with
  | nil =>
    obtain rfl : c = e := by simpa using he
    exact hc.1
  | cons d r => exact hs e (by rwa [List.getLast?_cons_cons] at he)

end Framed

theorem IsIdent.last {s : List Char} (h : IsIdent s) : ∀ c ∈ s.getLast?, isBlank c = false :=
  fun c hc => isBlank_of_isIdentChar (h.2 c (List.mem_of_getLast? hc))

theorem IsPseudoName.last {s : List Char} (h : IsPseudoName s) : ∀ c ∈ s.getLast?, isBlank c = false := by
  obtain ⟨name, argument, rfl, hname, rfl | ⟨inside, rfl, -⟩⟩ := h
  · rw [List.append_nil]
    exact hname.1.last
  · intro c hc
    rw [← List.cons_append, ← List.append_assoc, List.getLast?_concat] at hc
    obtain rfl : ')' = c := Option.some.inj hc
    decide

theorem isIdent_of_tag {name : String} (h : (Simple.tag name).WellFormed) : IsIdent name.toList := by
  obtain ⟨c, r, hcr, hc, hr⟩ := h
  have hident : isIdentChar c = true := by rcases hc with hc | rfl <;> simp [isIdentChar, Char.isAlphanum, *]
  rw [hcr]
  exact ⟨by simp, List.forall_mem_cons.2 ⟨hident, hr⟩⟩

theorem combinator?_of_isIdentChar {c : Char} (h : isIdentChar c = true) : combinator? c = none := by
  unfold combinator?
  split
  case h_4 => rfl
  all_goals exact absurd h (by decide)

theorem IsIdent.framed {s : List Char} (h : IsIdent s) : Framed s := by
  refine ⟨?_, h.last⟩
  obtain ⟨c, r, rfl⟩ := List.exists_cons_of_ne_nil h.1
  have hc := h.2 c (by simp)
  exact ⟨c, r, rfl, isBlank_of_isIdentChar hc, combinator?_of_isIdentChar hc⟩

theorem framed_simple {s : Simple} (h : s.WellFormed) : Framed s.text := by
  cases s with
  | tag name => exact (isIdent_of_tag h).framed
  | className name => exact .cons (by decide) (IsIdent.last h)
  | id name => exact .cons (by decide) (IsIdent.last h)
  | any => exact .cons (by decide) (by simp)
  | pseudoClass name => exact .cons (by decide) h.1.last
  | pseudoElement name => exact .cons (by decide) (Framed.cons (by decide) (IsPseudoName.last h)).last
  | attr test => exact .cons (by decide) (by simp; decide)

theorem framed_compound {c : Compound} (h : Compound.WellFormed c) : Framed (Compound.text c) := by
  obtain ⟨hne, hsimple, -⟩ := h
  induction c with
  | nil => exact absurd rfl hne
  | cons s l ih =>
    have hs := framed_simple (hsimple s (by simp))
    cases l with
    | nil => simpa [Compound.text] using hs
    | cons s' l => exact .append hs.head (ih (by simp) fun t ht => hsimple t (List.mem_cons_of_mem s ht))

/-- Conditions that do not stand first do not go on with the name before them. -/
theorem stops_simples {l : List Simple} (h : ∀ s ∈ l, s.isLeading = false) {rest : List Char} (hrest : Stops rest) :
    Stops (l.flatMap Simple.text ++ rest) := by
  cases l with
  | nil => exact hrest
  | cons s l =>
    have hs := h s (by simp)
    cases s with
    | tag | any => cases hs
    | className | id | pseudoClass | pseudoElement | attr => simp [Stops, Simple.text]; decide

theorem stops_combinator (combinator : Combinator) (rest : List Char) : Stops (combinator.text ++ rest) := by
  cases combinator <;> simp [Stops, Combinator.text] <;> decide

/-! ## Runs -/

/-- With fuel for its text, the reader comes from one place to another. -/
def Reads (chain : List (Combinator × Compound)) (compound : Compound) (s : List Char)
    (chain' : List (Combinator × Compound)) (compound' : Compound) (s' : List Char) : Prop :=
  ∀ fuel, s.length ≤ fuel → ∃ fuel', s'.length ≤ fuel' ∧
    readFrom? fuel chain compound s = readFrom? fuel' chain' compound' s'

namespace Reads

variable {chain chain' chain'' : List (Combinator × Compound)} {compound compound' compound'' : Compound}
  {s s' s'' : List Char}

theorem refl : Reads chain compound s chain compound s := fun fuel h => ⟨fuel, h, rfl⟩

theorem trans (h : Reads chain compound s chain' compound' s') (h' : Reads chain' compound' s' chain'' compound'' s'') :
    Reads chain compound s chain'' compound'' s'' := by
  intro fuel hfuel
  obtain ⟨fuel', hfuel', heq⟩ := h fuel hfuel
  obtain ⟨fuel'', hfuel'', heq'⟩ := h' fuel' hfuel'
  exact ⟨fuel'', hfuel'', heq.trans heq'⟩

/-- One step takes at least one character. -/
theorem step {c : Char} {r : List Char} (hlength : s'.length ≤ r.length)
    (h : ∀ fuel, readFrom? (fuel + 1) chain compound (c :: r) = readFrom? fuel chain' compound' s') :
    Reads chain compound (c :: r) chain' compound' s' := by
  intro fuel hfuel
  obtain ⟨fuel, rfl⟩ : ∃ k, fuel = k + 1 := Nat.exists_eq_succ_of_ne_zero (by simp at hfuel; omega)
  exact ⟨fuel, by simp at hfuel; omega, h fuel⟩

end Reads

variable {chain : List (Combinator × Compound)} {compound : Compound} {rest : List Char}

theorem isMarkupBlank_of_isBlank {c : Char} (h : isBlank c = false) : isMarkupBlank c = false := by
  have := isAsciiBlank_of_isBlank h
  simp_all [isAsciiBlank, isMarkupBlank]

theorem reads_simple {s : Simple} (h : s.WellFormed) (hfirst : s.isLeading = true → compound = []) (hrest : Stops rest) :
    Reads chain compound (s.text ++ rest) chain (s :: compound) rest := by
  have hread : readSimple? compound.isEmpty (s.text ++ rest) = some (s, rest) :=
    readSimple?_text h (fun hs => by simp [hfirst hs]) hrest
  obtain ⟨c, r, hcr, hblank, hcombinator⟩ := (framed_simple h).head
  rw [hcr, List.cons_append] at hread ⊢
  refine .step (by simp) fun fuel => ?_
  simp [readFrom?, isMarkupBlank_of_isBlank hblank, hcombinator, hread]

/-- The conditions behind the first one. -/
theorem reads_simples {l : List Simple} (h : ∀ s ∈ l, s.WellFormed) (hlead : ∀ s ∈ l, s.isLeading = false)
    (hrest : Stops rest) : Reads chain compound (l.flatMap Simple.text ++ rest) chain (l.reverse ++ compound) rest := by
  induction l generalizing compound with
  | nil => exact .refl
  | cons s l ih =>
    obtain ⟨hs, hl⟩ := List.forall_mem_cons.1 h
    obtain ⟨hslead, hllead⟩ := List.forall_mem_cons.1 hlead
    have hfirst : Reads chain compound (s.text ++ (l.flatMap Simple.text ++ rest)) chain (s :: compound) _ :=
      reads_simple hs (by simp [hslead]) (stops_simples hllead hrest)
    simpa using hfirst.trans (ih hl hllead)

theorem reads_compound {c : Compound} (h : Compound.WellFormed c) (hrest : Stops rest) :
    Reads chain [] (Compound.text c ++ rest) chain c.reverse rest := by
  obtain ⟨hne, hsimple, hlead⟩ := h
  cases c with
  | nil => exact absurd rfl hne
  | cons s l =>
    obtain ⟨hs, hl⟩ := List.forall_mem_cons.1 hsimple
    have hfirst : Reads chain [] (s.text ++ (l.flatMap Simple.text ++ rest)) chain [s] _ :=
      reads_simple hs (fun _ => rfl) (stops_simples hlead hrest)
    simpa [Compound.text] using hfirst.trans (reads_simples hl hlead hrest)

/-- A sign is met twice: first behind the blank before it, then at the front, where it takes the blank behind it. -/
theorem reads_sign {combinator : Combinator} {sign : Char} (hsign : combinator? sign = some combinator)
    (hblank : isBlank sign = false) (hne : compound ≠ []) (hrest : Begins rest) :
    Reads chain compound (' ' :: sign :: ' ' :: rest) ((combinator, compound.reverse) :: chain) [] rest := by
  have hskip : skipBlank (sign :: ' ' :: rest) = sign :: ' ' :: rest :=
    skipBlank_of_head (by simpa using isAsciiBlank_of_isBlank hblank)
  have hskip' : skipBlank (' ' :: rest) = rest := hrest.skipBlank_eq
  have hbefore : Reads chain compound (' ' :: sign :: ' ' :: rest) chain compound (sign :: ' ' :: rest) :=
    .step (Nat.le_refl _) fun fuel => by simp [readFrom?, isMarkupBlank, hskip, hsign]
  refine hbefore.trans (.step (by simp) fun fuel => ?_)
  simp [readFrom?, isMarkupBlank_of_isBlank hblank, hsign, hne, hskip']

/-- A combinator puts the compound before it into the chain. -/
theorem reads_combinator (combinator : Combinator) (hne : compound ≠ []) (hrest : Begins rest) :
    Reads chain compound (combinator.text ++ rest) ((combinator, compound.reverse) :: chain) [] rest := by
  cases combinator with
  | descendant =>
    have hskip := hrest.skipBlank_eq
    obtain ⟨c, r, rfl, hblank, hcombinator⟩ := hrest
    refine .step (Nat.le_refl _) fun fuel => ?_
    simp [readFrom?, isMarkupBlank, hskip, hcombinator, hne]
  | child => exact reads_sign rfl (by decide) hne hrest
  | next => exact reads_sign rfl (by decide) hne hrest
  | following => exact reads_sign rfl (by decide) hne hrest

theorem reads_chain (h : ∀ link ∈ chain, Compound.WellFormed link.2) (hrest : Begins rest) :
    Reads [] [] (chainText chain ++ rest) chain [] rest := by
  induction chain generalizing rest with
  | nil => exact .refl
  | cons link outer ih =>
    obtain ⟨combinator, c⟩ := link
    obtain ⟨hc, houter⟩ := List.forall_mem_cons.1 h
    have hlink : Reads outer c.reverse (combinator.text ++ rest) ((combinator, c.reverse.reverse) :: outer) [] rest :=
      reads_combinator combinator (by simpa using hc.ne_nil) hrest
    have hcompound := (reads_compound hc (stops_combinator combinator rest)).trans hlink
    have hbefore := ih houter ((framed_compound hc).head.append (combinator.text ++ rest))
    simpa [chainText] using hbefore.trans hcompound

theorem begins_chain (h : ∀ link ∈ chain, Compound.WellFormed link.2) (hrest : Begins rest) :
    Begins (chainText chain ++ rest) := by
  induction chain generalizing rest with
  | nil => exact hrest
  | cons link outer ih =>
    obtain ⟨hc, houter⟩ := List.forall_mem_cons.1 h
    simpa [chainText] using ih houter ((framed_compound hc).head.append (link.1.text ++ rest))

theorem ofChars?_text {s : Selector} (h : s.WellFormed) {blanks : List Char} (hblanks : ∀ c ∈ blanks, isBlank c = true) :
    ofChars? (blanks ++ s.text) = some s := by
  obtain ⟨subject, chain⟩ := s
  obtain ⟨hsubject, hchain⟩ := List.forall_mem_cons.1 h
  rw [List.forall_mem_map] at hchain
  have hframed := framed_compound hsubject
  have hreads : Reads [] [] (text ⟨subject, chain⟩) chain subject.reverse [] := by
    have hlast : Reads chain [] (Compound.text subject ++ []) chain subject.reverse [] :=
      reads_compound hsubject (by simp [Stops])
    rw [List.append_nil] at hlast
    exact (reads_chain hchain hframed.head).trans hlast
  obtain ⟨fuel, -, heq⟩ := hreads _ (Nat.le_refl _)
  obtain ⟨c, r, hcr, hc, -⟩ := begins_chain hchain hframed.head
  have htrim : trimBoth isBlank (blanks ++ text ⟨subject, chain⟩) = text ⟨subject, chain⟩ :=
    trimBoth_append hblanks (by simpa [text, hcr] using hc) (hframed.last_append _)
  simp only [ofChars?, htrim, heq]
  cases fuel <;> simp [readFrom?, hsubject.ne_nil]

/-! ## Commas -/

theorem passes_ident {s : List Char} (h : ∀ c ∈ s, isIdentChar c = true) (depth : Nat) :
    Passes listBrackets ',' ⟨depth, none⟩ s ⟨depth, none⟩ := by
  refine .neutral rfl fun c hc => ?_
  have hident := h c hc
  have hne (d : Char) (hd : isIdentChar d = false) : c ≠ d := by rintro rfl; exact absurd hident (by simp [hd])
  simp only [listBrackets, List.mem_cons, List.not_mem_nil, or_false, not_or]
  exact ⟨hne _ (by decide), hne _ (by decide), ⟨hne _ (by decide), hne _ (by decide)⟩,
    ⟨hne _ (by decide), hne _ (by decide)⟩, fun _ => hne _ (by decide)⟩

theorem passes_balanced {s : List Char} (h : Balanced s) (depth : Nat) :
    Passes listBrackets ',' ⟨depth + 1, none⟩ s ⟨depth + 1, none⟩ := by
  induction h generalizing depth with
  | nil => exact .nil
  | @char c _ hopen hclose hc _ ih =>
    have hc' : c ≠ '"' ∧ c ≠ '\'' ∧ c ≠ '[' ∧ c ≠ ']' := by simpa [outsideArguments] using hc
    have hchar : Passes listBrackets ',' ⟨depth + 1, none⟩ [c] ⟨depth + 1, none⟩ :=
      .neutral rfl (by simp [listBrackets, Nesting.isOutside, hopen, hclose, hc'])
    exact hchar.append (ih depth)
  | group _ _ ihs iht =>
    refine Passes.cons_iff.2 ⟨by simp, (ihs (depth + 1)).append (Passes.cons_iff.2 ⟨by simp, iht depth⟩)⟩

theorem passes_pseudoName {s : List Char} (h : IsPseudoName s) : Passes listBrackets ',' {} s {} := by
  obtain ⟨name, argument, rfl, hname, rfl | ⟨inside, rfl, hinside⟩⟩ := h
  · exact (passes_ident hname.1.2 0).append .nil
  · refine (passes_ident hname.1.2 0).append (Passes.cons_iff.2 ⟨by decide, ?_⟩)
    exact (passes_balanced hinside 0).append (Passes.cons_iff.2 ⟨by decide, .nil⟩)

theorem passes_attribute {test : AttributeTest} (h : (Simple.attr test).WellFormed) :
    Passes listBrackets ',' ⟨1, none⟩ test.text ⟨1, none⟩ := by
  obtain ⟨name, comparison⟩ := test
  obtain ⟨hname, hvalue⟩ := h
  cases comparison with
  | none => exact passes_ident hname.1.2 1
  | some p =>
    obtain ⟨comparison, value⟩ := p
    have hoperator : Passes listBrackets ',' ⟨1, none⟩ comparison.text ⟨1, none⟩ := by
      cases comparison <;> exact ⟨by decide, by decide⟩
    have hquoted : Passes listBrackets ',' ⟨1, none⟩ ('"' :: value.toList ++ ['"']) ⟨1, none⟩ :=
      .quoted (.inl rfl) (by decide) (hvalue comparison value rfl)
    exact (passes_ident hname.1.2 1).append (hoperator.append hquoted)

theorem passes_simple {s : Simple} (h : s.WellFormed) : Passes listBrackets ',' {} s.text {} := by
  cases s with
  | tag name => exact passes_ident (isIdent_of_tag h).2 0
  | className name | id name => exact Passes.cons_iff.2 ⟨by decide, passes_ident h.2 0⟩
  | any => exact ⟨by decide, by decide⟩
  | pseudoClass name => exact Passes.cons_iff.2 ⟨by decide, passes_pseudoName h.1⟩
  | pseudoElement name => exact Passes.cons_iff.2 ⟨by decide, Passes.cons_iff.2 ⟨by decide, passes_pseudoName h⟩⟩
  | attr test =>
    exact Passes.cons_iff.2 ⟨by decide, (passes_attribute h).append (Passes.cons_iff.2 ⟨by decide, .nil⟩)⟩

theorem passes_compound {c : Compound} (h : ∀ s ∈ c, s.WellFormed) : Passes listBrackets ',' {} (Compound.text c) {} := by
  induction c with
  | nil => exact .nil
  | cons s l ih =>
    obtain ⟨hs, hl⟩ := List.forall_mem_cons.1 h
    exact (passes_simple hs).append (ih hl)

theorem passes_text {s : Selector} (h : s.WellFormed) : Passes listBrackets ',' {} s.text {} := by
  obtain ⟨subject, chain⟩ := s
  obtain ⟨hsubject, hchain⟩ := List.forall_mem_cons.1 h
  rw [List.forall_mem_map] at hchain
  refine Passes.append ?_ (passes_compound hsubject.simple)
  clear h hsubject
  induction chain with
  | nil => exact .nil
  | cons link outer ih =>
    obtain ⟨hc, houter⟩ := List.forall_mem_cons.1 hchain
    have hcombinator : Passes listBrackets ',' {} link.1.text {} := by cases link.1 <;> exact ⟨by decide, by decide⟩
    exact (ih houter).append ((passes_compound hc.simple).append hcombinator)

theorem listOfChars?_listText {l : List Selector} (hne : l ≠ []) (h : ∀ s ∈ l, s.WellFormed) {blanks : List Char}
    (hblanks : ∀ c ∈ blanks, c = ' ') : listOfChars? (blanks ++ listText l) = some l := by
  induction l generalizing blanks with
  | nil => exact absurd rfl hne
  | cons s l ih =>
    obtain ⟨hs, hl⟩ := List.forall_mem_cons.1 h
    have hread : ofChars? (blanks ++ s.text) = some s := ofChars?_text hs fun c hc => by rw [hblanks c hc]; decide
    have hpass : Passes listBrackets ',' {} (blanks ++ s.text) {} := by
      refine Passes.append (.neutral rfl fun c hc => ?_) (passes_text hs)
      rw [hblanks c hc]
      decide
    cases l with
    | nil => simp [listOfChars?, listText, piecesOutside_of_passes hpass, hread]
    | cons s' l =>
      have htext : blanks ++ listText (s :: s' :: l) = (blanks ++ s.text) ++ ',' :: ([' '] ++ listText (s' :: l)) := by
        simp [listText, List.intercalate]
      have hothers : listOfChars? ([' '] ++ listText (s' :: l)) = some (s' :: l) := ih (by simp) hl (by simp)
      rw [listOfChars?] at hothers ⊢
      rw [htext, piecesOutside_append_cons hpass rfl, List.mapM_cons, hread, hothers]
      rfl

/-! ## Specificity -/

theorem foldl_specificity (l : List Simple) (start : Specificity) : (l.map Simple.specificity).foldl .add start =
    ⟨start.ids + l.countP Simple.countsAsId, start.classes + l.countP Simple.countsAsClass,
      start.tags + l.countP Simple.countsAsTag⟩ := by
  induction l generalizing start with
  | nil => rfl
  | cons s l ih =>
    rw [List.map_cons, List.foldl_cons, ih]
    cases s <;> simp [Simple.specificity, Specificity.add, Simple.countsAsId, Simple.countsAsClass, Simple.countsAsTag,
      List.countP_cons] <;> omega

/-- The three numbers count the conditions of all compounds. -/
theorem specificity_eq (s : Selector) : s.specificity = ⟨s.compounds.flatten.countP Simple.countsAsId,
    s.compounds.flatten.countP Simple.countsAsClass, s.compounds.flatten.countP Simple.countsAsTag⟩ := by
  rw [specificity, Specificity.sum, foldl_specificity]
  simp

theorem length_close (combinator : Combinator) (chain : List (Combinator × Compound)) (compound : Compound) :
    (((combinator, compound.reverse) :: chain).map Prod.snd).flatten.length =
      compound.length + (chain.map Prod.snd).flatten.length := by
  simp

/-- Every step of the reader uses fuel and reads at most one condition. -/
theorem length_conditions_le {fuel : Nat} {chain : List (Combinator × Compound)} {compound : Compound}
    {text : List Char} {s : Selector} (h : readFrom? fuel chain compound text = some s) :
    s.compounds.flatten.length ≤ fuel + compound.length + (chain.map Prod.snd).flatten.length := by
  have hend {chain : List (Combinator × Compound)} {compound : Compound}
      (h : (if compound.isEmpty then none else some (⟨compound.reverse, chain⟩ : Selector)) = some s) :
      s.compounds.flatten.length = compound.length + (chain.map Prod.snd).flatten.length := by
    split at h
    · cases h
    · obtain rfl := Option.some.inj h
      simp [compounds]
  induction fuel generalizing chain compound text with
  | zero =>
    rw [readFrom?] at h
    exact Nat.le_trans (Nat.le_of_eq (hend h)) (by omega)
  | succ fuel ih =>
    cases text with
    | nil =>
      rw [readFrom?] at h
      · exact Nat.le_trans (Nat.le_of_eq (hend h)) (by omega)
      · simp
    | cons c r =>
      rw [readFrom?] at h
      split at h
      · split at h
        · exact Nat.le_trans (ih h) (by omega)
        · split at h
          · exact Nat.le_trans (ih h) (by omega)
          · split at h
            · cases h
            · exact Nat.le_trans (ih h) (by rw [length_close, List.length_nil]; omega)
      · split at h
        · split at h
          · cases h
          · exact Nat.le_trans (ih h) (by rw [length_close, List.length_nil]; omega)
        · obtain ⟨⟨simple, rest⟩, -, h⟩ := Option.bind_eq_some_iff.1 h
          exact Nat.le_trans (ih h) (by rw [List.length_cons]; omega)

theorem exists_piece {s : List Char} {l : List Selector} (h : listOfChars? s = some l) :
    ∀ x ∈ l, ∃ piece ∈ piecesOutside listBrackets ',' s, ofChars? piece = some x := by
  rw [listOfChars?] at h
  generalize piecesOutside listBrackets ',' s = pieces at h
  induction pieces generalizing l with
  | nil =>
    obtain rfl : [] = l := Option.some.inj h
    simp
  | cons piece pieces ih =>
    rw [List.mapM_cons] at h
    obtain ⟨first, hfirst, h⟩ := Option.bind_eq_some_iff.1 h
    obtain ⟨others, hothers, h⟩ := Option.bind_eq_some_iff.1 h
    obtain rfl : first :: others = l := Option.some.inj h
    refine List.forall_mem_cons.2 ⟨⟨piece, by simp, hfirst⟩, fun x hx => ?_⟩
    obtain ⟨p, hp, hread⟩ := ih hothers x hx
    exact ⟨p, List.mem_cons_of_mem _ hp, hread⟩

theorem counts_le_length (c : Compound) :
    c.countP Simple.countsAsId + c.countP Simple.countsAsClass + c.countP Simple.countsAsTag ≤ c.length := by
  induction c with
  | nil => exact Nat.zero_le _
  | cons s c ih =>
    cases s <;> simp [Simple.countsAsId, Simple.countsAsClass, Simple.countsAsTag, List.countP_cons] <;> omega

/-- The counts together are at most the number of characters that were read. -/
theorem specificity_le_length {text : String} {l : List Selector} (h : parseList? text = some l) :
    ∀ s ∈ l, s.specificity.ids + s.specificity.classes + s.specificity.tags ≤ text.length := by
  intro s hs
  obtain ⟨piece, hpiece, hread⟩ := exists_piece h s hs
  rw [specificity_eq]
  calc _ ≤ s.compounds.flatten.length := counts_le_length _
    _ ≤ (trimBoth isBlank piece).length := by simpa using length_conditions_le hread
    _ ≤ piece.length := length_trimBoth_le _ _
    _ ≤ text.toList.length := length_le_of_mem_piecesOutside _ hpiece
    _ = text.length := String.length_toList

/-! ## Lists of selectors -/

/-- Selectors that can be written are read back from their text, and their specificity counts their conditions. -/
theorem parseList?_listText {l : List Selector} (hne : l ≠ []) (h : ∀ s ∈ l, s.WellFormed) :
    parseList? (String.ofList (listText l)) = some l ∧
      ∀ s ∈ l, s.specificity = ⟨s.compounds.flatten.countP Simple.countsAsId,
        s.compounds.flatten.countP Simple.countsAsClass, s.compounds.flatten.countP Simple.countsAsTag⟩ := by
  refine ⟨?_, fun s _ => specificity_eq s⟩
  have hread : listOfChars? ([] ++ listText l) = some l := listOfChars?_listText hne h (by simp)
  rwa [parseList?, String.toList_ofList]

def mixedSelectors : List Selector :=
  [⟨[.className "b", .pseudoClass "not(c, (d))"], [(.child, [.tag "a", .attr ⟨"title", some (.start, "x, ]")⟩])]⟩,
   ⟨[.any], [(.descendant, [.id "e", .pseudoElement "before"])]⟩]

theorem parseList?_listText_mixed :
    listText mixedSelectors = "a[title^=\"x, ]\"] > .b:not(c, (d)), #e::before *".toList ∧
      parseList? (String.ofList (listText mixedSelectors)) = some mixedSelectors ∧
      mixedSelectors.map specificity = [⟨0, 3, 1⟩, ⟨1, 0, 1⟩] := by
  have hinside : Balanced ['c', ',', ' ', '(', 'd', ')'] := by
    refine .char (by decide) (by decide) (by decide) (.char (by decide) (by decide) (by decide) ?_)
    refine .char (by decide) (by decide) (by decide) (.group (s := ['d']) ?_ .nil)
    exact .char (by decide) (by decide) (by decide) .nil
  have hnot : (Simple.pseudoClass "not(c, (d))").WellFormed :=
    ⟨⟨['n', 'o', 't'], _, by decide, by decide, .inr ⟨_, rfl, hinside⟩⟩, by decide⟩
  have htitle : (Simple.attr ⟨"title", some (.start, "x, ]")⟩).WellFormed :=
    ⟨by decide, fun _ _ h => by obtain ⟨rfl, rfl⟩ := Prod.mk.inj (Option.some.inj h); decide⟩
  have hbefore : (Simple.pseudoElement "before").WellFormed :=
    ⟨['b', 'e', 'f', 'o', 'r', 'e'], [], by decide, by decide, .inl rfl⟩
  have htag : (Simple.tag "a").WellFormed := ⟨'a', [], by decide, by decide, nofun⟩
  have hclass : (Simple.className "b").WellFormed := by show IsIdent "b".toList; decide
  have hid : (Simple.id "e").WellFormed := by show IsIdent "e".toList; decide
  have hany : Simple.any.WellFormed := trivial
  have hwell : ∀ s ∈ mixedSelectors, s.WellFormed := by
    simp only [mixedSelectors, List.forall_mem_cons, WellFormed, compounds, List.map]
    refine ⟨⟨⟨?_, ?_, ?_⟩, ⟨?_, ?_, ?_⟩, nofun⟩, ⟨⟨?_, ?_, ?_⟩, ⟨?_, ?_, ?_⟩, nofun⟩, nofun⟩
    all_goals simp [hnot, htitle, hbefore, htag, hclass, hid, hany, Simple.isLeading]
  exact ⟨by decide +kernel, (parseList?_listText (by decide) hwell).1, by decide⟩

end EmailMarkup.Selector
