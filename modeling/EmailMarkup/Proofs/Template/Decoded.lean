import Mathlib.Data.List.Induction
import EmailMarkup.Proofs.Template.Reference
/-!
# Which texts can be decoded

Reading takes a few more spellings for references than the grammar knows: a plus may stand in front of the digits of a
code point (`DenotesSigned`). With these, a text can be decoded exactly if it is made of characters other than `&` and of
references (`decode_eq_ok_iff`). It is made of them in one way only (`MadeOf.unique`).
-/
namespace EmailMarkup.Template

open EmailMarkup.Text

/-- `&name;` is a reference to the character but for a plus in front of its digits. -/
inductive DenotesSigned : List Char → Char → Prop
  | decimal {digits : List Char} {n : Nat} (h : Numeral 10 digits n) (hcode : IsCodePoint n) :
      DenotesSigned ('#' :: '+' :: digits) (Char.ofNat n)
  | hexadecimal {mark : Char} {digits : List Char} {n : Nat} (hmark : mark = 'x' ∨ mark = 'X') (h : Numeral 16 digits n)
      (hcode : IsCodePoint n) : DenotesSigned ('#' :: mark :: '+' :: digits) (Char.ofNat n)

/-- `&name;` is read as the character. -/
def Accepts (name : List Char) (c : Char) : Prop := Denotes name c ∨ DenotesSigned name c

/-! ## Digits -/

section

variable {d : Char} {value n : Nat} {digits : List Char}

/-- The characters below a bound can be gone through one by one. -/
theorem of_forall_ofNat {P : Char → Prop} {bound : Nat} (h : ∀ n < bound, P (Char.ofNat n)) (hd : d.toNat < bound) : P d := by
  have hp := h d.toNat hd
  rwa [Char.ofNat_toNat] at hp

theorem toNat_lt_of_isDigit (h : d.isDigit = true) : d.toNat < 58 := by
  have hle : d.toNat ≤ 57 := of_decide_eq_true (Bool.and_eq_true_iff.1 h).2
  exact Nat.lt_succ_of_le hle

theorem isDigitFor_of_isDigit (h : d.isDigit = true) : IsDigitFor 10 d (d.toNat - 48) := by
  have hall : ∀ n < 58, (Char.ofNat n).isDigit = true → IsDigitFor 10 (Char.ofNat n) ((Char.ofNat n).toNat - 48) := by
    decide +kernel
  exact of_forall_ofNat (P := fun d => d.isDigit = true → IsDigitFor 10 d (d.toNat - 48)) hall (toNat_lt_of_isDigit h) h

theorem isDigitFor_of_hexValue? (h : hexValue? d = some value) : IsDigitFor 16 d value := by
  have hlt : d.toNat < 103 := by
    rw [hexValue?] at h
    split at h
    · rename_i hdigit
      exact Nat.lt_trans (toNat_lt_of_isDigit hdigit) (by decide)
    · split at h
      · rename_i hsmall
        exact Nat.lt_succ_of_le hsmall.2
      · split at h
        · rename_i hcapital
          exact Nat.lt_of_le_of_lt hcapital.2 (by decide)
        · cases h
  have hall : ∀ n < 103, ∀ v ∈ hexValue? (Char.ofNat n), IsDigitFor 16 (Char.ofNat n) v := by decide +kernel
  exact of_forall_ofNat (P := fun d => ∀ v ∈ hexValue? d, IsDigitFor 16 d v) hall hlt value h

theorem Numeral.ne_nil {base : Nat} (h : Numeral base digits n) : digits ≠ [] := by
  cases h <;> simp

theorem numeral_of_isDigits (h : Number.isDigits digits = true) : Numeral 10 digits (Number.ofDigits digits) := by
  induction digits using List.reverseRecOn with
  | nil => simp [Number.isDigits] at h
  | append_singleton digits d ih =>
    simp only [Number.isDigits, Bool.and_eq_true, List.all_append, List.all_cons, List.all_nil, Bool.and_true] at h
    have hd := isDigitFor_of_isDigit h.2.2
    rcases List.eq_nil_or_concat digits with rfl | ⟨before, last, rfl⟩
    · simpa [Number.ofDigits] using Numeral.digit hd
    · have hbefore := ih (by simp [Number.isDigits] at h ⊢; exact h.1)
      simpa [Number.ofDigits] using hbefore.snoc hd

theorem numeral_of_foldlM (hne : digits ≠ []) (h : digits.foldlM (fun n c => (hexValue? c).map (16 * n + ·)) 0 = some n) :
    Numeral 16 digits n := by
  induction digits using List.reverseRecOn generalizing n with
  | nil => exact absurd rfl hne
  | append_singleton digits d ih =>
    rw [List.foldlM_append] at h
    obtain ⟨m, hm, hlast⟩ := Option.bind_eq_some_iff.1 h
    have hvalue : (hexValue? d).map (16 * m + ·) = some n := by simpa using hlast
    obtain ⟨value, hd, rfl⟩ := Option.map_eq_some_iff.1 hvalue
    rcases List.eq_nil_or_concat digits with rfl | ⟨before, last, rfl⟩
    · obtain rfl : m = 0 := by simpa using hm.symm
      simpa using Numeral.digit (isDigitFor_of_hexValue? hd)
    · exact (ih (by simp) hm).snoc (isDigitFor_of_hexValue? hd)

end

/-! ## References -/

/-- What follows a plus. -/
def dropPlus : List Char → List Char
  | '+' :: r => r
  | r => r

theorem dropPlus_cases (s : List Char) : dropPlus s = s ∨ s = '+' :: dropPlus s := by
  unfold dropPlus
  split
  · exact .inr rfl
  · exact .inl rfl

theorem hexadecimal?_eq_some_iff {s : List Char} {n : Nat} : hexadecimal? s = some n ↔ Numeral 16 (dropPlus s) n := by
  have heq : hexadecimal? s = if (dropPlus s).isEmpty then none
      else (dropPlus s).foldlM (fun n c => (hexValue? c).map (16 * n + ·)) 0 := rfl
  rw [heq]
  constructor
  · intro h
    split at h
    · cases h
    · rename_i hne
      exact numeral_of_foldlM (by simpa using hne) h
  · intro h
    rw [if_neg (by simpa using h.ne_nil), h.foldlM_hexValue?]

theorem natural?_eq_some_iff {max : Nat} {s : List Char} {n : Nat} :
    Number.natural? max s = some n ↔ Numeral 10 (dropPlus s) n ∧ n ≤ max := by
  have heq : Number.natural? max s = if Number.isDigits (dropPlus s) && Number.ofDigits (dropPlus s) ≤ max
      then some (Number.ofDigits (dropPlus s)) else none := rfl
  rw [heq]
  constructor
  · intro h
    split at h
    · rename_i hdigits
      rw [Bool.and_eq_true, decide_eq_true_eq] at hdigits
      obtain rfl := Option.some.inj h
      exact ⟨numeral_of_isDigits hdigits.1, hdigits.2⟩
    · cases h
  · rintro ⟨h, hle⟩
    obtain ⟨hdigits, rfl⟩ := h.isDigits
    rw [if_pos (by simp [hdigits, hle])]

theorem bind_ofNat_eq_some_iff {code : Option Nat} {c : Char} :
    (code.bind fun n => if n.isValidChar ∧ n ≠ 0 then some (Char.ofNat n) else none) = some c ↔
      ∃ n, code = some n ∧ IsCodePoint n ∧ Char.ofNat n = c := by
  simp only [Option.bind_eq_some_iff, Option.ite_none_right_eq_some, Option.some.injEq, IsCodePoint]

section

variable {s r : List Char} {c mark : Char}

/-- What stands behind the mark of hexadecimal digits. -/
theorem numericCharacter?_mark (hmark : mark = 'x' ∨ mark = 'X') : numericCharacter? (mark :: r) = some c ↔
    ∃ n, Numeral 16 (dropPlus r) n ∧ IsCodePoint n ∧ Char.ofNat n = c := by
  have heq : numericCharacter? (mark :: r) = ((hexadecimal? r).filter (· ≤ maxCode)).bind fun n =>
      if n.isValidChar ∧ n ≠ 0 then some (Char.ofNat n) else none := by
    rcases hmark with rfl | rfl <;> rfl
  rw [heq, bind_ofNat_eq_some_iff]
  simp only [Option.filter_eq_some_iff, hexadecimal?_eq_some_iff, decide_eq_true_eq]
  exact exists_congr fun n => ⟨fun h => ⟨h.1.1, h.2⟩, fun h => ⟨⟨h.1, h.2.1.le_maxCode⟩, h.2⟩⟩

theorem numericCharacter?_digits (hmark : ∀ r, s ≠ 'x' :: r ∧ s ≠ 'X' :: r) : numericCharacter? s = some c ↔
    ∃ n, Numeral 10 (dropPlus s) n ∧ IsCodePoint n ∧ Char.ofNat n = c := by
  have heq : numericCharacter? s = (Number.natural? maxCode s).bind fun n =>
      if n.isValidChar ∧ n ≠ 0 then some (Char.ofNat n) else none := by
    unfold numericCharacter?
    split
    · exact absurd rfl (hmark _).1
    · exact absurd rfl (hmark _).2
    · rfl
  rw [heq, bind_ofNat_eq_some_iff]
  simp only [natural?_eq_some_iff]
  exact exists_congr fun n => ⟨fun h => ⟨h.1.1, h.2⟩, fun h => ⟨⟨h.1, h.2.1.le_maxCode⟩, h.2⟩⟩

theorem accepts_of_numericCharacter? (h : numericCharacter? s = some c) : Accepts ('#' :: s) c := by
  by_cases hmark : ∃ mark r, s = mark :: r ∧ (mark = 'x' ∨ mark = 'X')
  · obtain ⟨mark, r, rfl, hmark⟩ := hmark
    obtain ⟨n, hn, hcode, rfl⟩ := (numericCharacter?_mark hmark).1 h
    rcases dropPlus_cases r with heq | heq
    · rw [heq] at hn
      exact .inl (.hexadecimal hmark hn hcode)
    · rw [heq]
      exact .inr (.hexadecimal hmark hn hcode)
  · obtain ⟨n, hn, hcode, rfl⟩ := (numericCharacter?_digits fun r => ⟨fun heq => hmark ⟨_, r, heq, .inl rfl⟩,
      fun heq => hmark ⟨_, r, heq, .inr rfl⟩⟩).1 h
    rcases dropPlus_cases s with heq | heq
    · rw [heq] at hn
      exact .inl (.decimal hn hcode)
    · rw [heq]
      exact .inr (.decimal hn hcode)

end

theorem character_numeric {s : List Char} {c : Char} (h : numericCharacter? s = some c) : character ('#' :: s) = .ok c := by
  rw [character, h]

/-- Exactly the references of the grammar are read, and those with a plus in front of the digits. -/
theorem character_eq_ok_iff {name : List Char} {c : Char} : character name = .ok c ↔ Accepts name c := by
  constructor
  · intro h
    unfold character at h
    split at h
    · split at h
      · rename_i hc
        obtain rfl := Except.ok.inj h
        exact accepts_of_numericCharacter? hc
      · cases h
    · have hname {text : String} {d : Char} (heq : String.ofList name = text) (hmem : (text, d) ∈ markupNames)
          (hd : Except.ok d = (Except.ok c : Except Malformed Char)) : Accepts name c := by
        obtain rfl := Except.ok.inj hd
        rw [← String.toList_ofList (l := name), heq]
        exact .inl (.name hmem)
      split at h
      · exact hname ‹_› (by decide) h
      · exact hname ‹_› (by decide) h
      · exact hname ‹_› (by decide) h
      · exact hname ‹_› (by decide) h
      · exact hname ‹_› (by decide) h
      · cases h
  · rintro (h | h)
    · exact h.readable.character_eq
    · cases h with
      | decimal h hcode =>
        refine character_numeric ((numericCharacter?_digits (by simp)).2 ⟨_, ?_, hcode, rfl⟩)
        exact h
      | hexadecimal hmark h hcode => exact character_numeric ((numericCharacter?_mark hmark).2 ⟨_, h, hcode, rfl⟩)

section

variable {name : List Char} {c d : Char}

theorem Numeral.isAlphanum_of_decimal {digits : List Char} {n : Nat} (h : Numeral 10 digits n) (hd : d ∈ digits) :
    d.isAlphanum = true := by
  have hdigits := (Bool.and_eq_true_iff.1 h.isDigits.1).2
  simp [Char.isAlphanum, List.all_eq_true.1 hdigits d hd]

/-- The characters of which the names of the grammar are made. -/
theorem Denotes.mem_chars (h : Denotes name c) (hd : d ∈ name) : (d.isAlphanum || d == '#') = true := by
  rw [Bool.or_eq_true, beq_iff_eq]
  cases h with
  | name h =>
    have hnames : (markupNames.all fun e => e.1.toList.all Char.isAlphanum) = true := by decide
    exact .inl (List.all_eq_true.1 (List.all_eq_true.1 hnames _ h) d hd)
  | decimal h _ => exact (List.mem_cons.1 hd).symm.imp_left h.isAlphanum_of_decimal
  | hexadecimal hmark h _ =>
    rcases List.mem_cons.1 hd with hd | hd
    · exact .inr hd
    · rcases List.mem_cons.1 hd with rfl | hd
      · rcases hmark with rfl | rfl <;> exact .inl (by decide)
      · exact .inl (h.isAlphanum d hd)

/-- A plus comes between two parts of a name of the grammar. -/
theorem DenotesSigned.exists_denotes (h : DenotesSigned name c) :
    ∃ mark digits, name = mark ++ '+' :: digits ∧ Denotes (mark ++ digits) c := by
  cases h with
  | decimal h hcode => exact ⟨['#'], _, rfl, .decimal h hcode⟩
  | @hexadecimal mark _ _ hmark h hcode => exact ⟨['#', mark], _, rfl, .hexadecimal hmark h hcode⟩

theorem Accepts.mem_chars (h : Accepts name c) (hd : d ∈ name) : (d.isAlphanum || d == '#' || d == '+') = true := by
  rw [Bool.or_eq_true, beq_iff_eq]
  rcases h with h | h
  · exact .inl (h.mem_chars hd)
  · obtain ⟨mark, digits, rfl, hname⟩ := h.exists_denotes
    rcases List.mem_append.1 hd with hd | hd
    · exact .inl (hname.mem_chars (List.mem_append_left _ hd))
    · exact (List.mem_cons.1 hd).symm.imp_left fun hd => hname.mem_chars (List.mem_append_right _ hd)

theorem Accepts.no_end (h : Accepts name c) : ';' ∉ name := fun hmem => absurd (h.mem_chars hmem) (by decide)

end

/-! ## Texts -/

/-- A part of a text: a character that stands for itself, or a reference. -/
inductive Part where
  | literal (c : Char)
  | reference (name : List Char) (c : Char)

namespace Part

def text : Part → List Char
  | literal c => [c]
  | reference name _ => '&' :: (name ++ [';'])

def char : Part → Char
  | literal c => c
  | reference _ c => c

def Valid : Part → Prop
  | literal c => c ≠ '&'
  | reference name c => Denotes name c

def Accepted : Part → Prop
  | literal c => c ≠ '&'
  | reference name c => Accepts name c

theorem Valid.accepted {p : Part} (h : p.Valid) : p.Accepted := by
  cases p with
  | literal c => exact h
  | reference name c => exact .inl h

end Part

/-- The text is these parts one after the other, and each of them is as `ok` asks. -/
def MadeOf (ok : Part → Prop) (s : List Char) (parts : List Part) : Prop := (∀ p ∈ parts, ok p) ∧ s = parts.flatMap Part.text

namespace MadeOf

variable {s : List Char} {parts parts' : List Part}

theorem cons {ok : Part → Prop} {p : Part} (hp : ok p) (h : MadeOf ok s parts) : MadeOf ok (p.text ++ s) (p :: parts) :=
  ⟨List.forall_mem_cons.2 ⟨hp, h.1⟩, by rw [h.2, List.flatMap_cons]⟩

theorem mono {ok ok' : Part → Prop} (h : MadeOf ok s parts) (hok : ∀ p ∈ parts, ok p → ok' p) : MadeOf ok' s parts :=
  ⟨fun p hp => hok p hp (h.1 p hp), h.2⟩

theorem accepted (h : MadeOf Part.Valid s parts) : MadeOf Part.Accepted s parts :=
  h.mono fun _ _ => Part.Valid.accepted

theorem decode (h : MadeOf Part.Accepted s parts) : decode s = .ok (parts.map Part.char) := by
  obtain ⟨hparts, rfl⟩ := h
  induction parts with
  | nil => rfl
  | cons p parts ih =>
    obtain ⟨hp, hrest⟩ := List.forall_mem_cons.1 hparts
    have hdecoded := ih hrest
    cases p with
    | literal c => exact decodeFrom_plain (t := [c]) (by simpa using Ne.symm hp) hdecoded
    | reference name c =>
      have hreference := decodeFrom_reference name (Accepts.no_end hp) (character_eq_ok_iff.2 hp) hdecoded
      simpa [Part.text, Part.char, Template.decode] using hreference

/-- The first character tells a reference from a literal, and the first `;` ends it. -/
theorem unique (h : MadeOf Part.Accepted s parts) (h' : MadeOf Part.Accepted s parts') : parts = parts' := by
  obtain ⟨hparts, rfl⟩ := h
  obtain ⟨hparts', heq⟩ := h'
  induction parts generalizing parts' with
  | nil =>
    cases parts' with
    | nil => rfl
    | cons p parts' => cases p <;> simp [Part.text] at heq
  | cons p parts ih =>
    cases parts' with
    | nil => cases p <;> simp [Part.text] at heq
    | cons p' parts' =>
      obtain ⟨hp, hrest⟩ := List.forall_mem_cons.1 hparts
      obtain ⟨hp', hrest'⟩ := List.forall_mem_cons.1 hparts'
      rw [List.flatMap_cons, List.flatMap_cons] at heq
      cases p with
      | literal c =>
        cases p' with
        | literal c' =>
          obtain ⟨rfl, htail⟩ := List.cons.inj heq
          rw [ih hrest hrest' htail]
        | reference name c' => exact absurd (List.cons.inj heq).1 hp
      | reference name c =>
        cases p' with
        | literal c' => exact absurd (List.cons.inj heq).1.symm hp'
        | reference name' c' =>
          have hsplit : name ++ ';' :: parts.flatMap Part.text = name' ++ ';' :: parts'.flatMap Part.text := by
            simpa [Part.text] using heq
          have hcut := cut_char (Accepts.no_end hp) (parts.flatMap Part.text)
          rw [hsplit, cut_char (Accepts.no_end hp')] at hcut
          obtain ⟨rfl, htail⟩ := Prod.mk.inj (Option.some.inj hcut)
          have hc := (character_eq_ok_iff.2 hp).symm.trans (character_eq_ok_iff.2 hp')
          rw [ih hrest hrest' htail.symm, Except.ok.inj hc]

end MadeOf

/-- What is passed over belongs to the reference in front. -/
theorem exists_madeOf_of_decodeFrom {k : Nat} {s v : List Char} (h : decodeFrom k s = .ok v) :
    ∃ parts, MadeOf Part.Accepted (s.drop k) parts ∧ v = parts.map Part.char := by
  induction s generalizing k v with
  | nil =>
    rw [decodeFrom] at h
    exact ⟨[], ⟨by simp, by simp⟩, (Except.ok.inj h).symm⟩
  | cons c s ih =>
    cases k with
    | succ k => exact ih h
    | zero =>
      rw [decodeFrom] at h
      split at h
      · rename_i hc
        split at h
        · cases h
        · rename_i name after hcut
          obtain ⟨d, hd, h⟩ := bind_eq_ok.1 h
          obtain ⟨v, hv, h⟩ := bind_eq_ok.1 h
          obtain rfl := Except.ok.inj h
          obtain ⟨parts, hparts, rfl⟩ := ih hv
          have hs := cut_eq_append hcut
          have hafter : s.drop (name.length + 1) = after := by rw [hs]; simp
          rw [hafter] at hparts
          have hmade := hparts.cons (p := .reference name d) (character_eq_ok_iff.1 hd)
          exact ⟨.reference name d :: parts, by simpa [hc, hs, Part.text] using hmade, rfl⟩
      · rename_i hc
        obtain ⟨v, hv, h⟩ := bind_eq_ok.1 h
        obtain rfl := Except.ok.inj h
        obtain ⟨parts, hparts, rfl⟩ := ih hv
        exact ⟨_, hparts.cons (p := .literal c) hc, rfl⟩

theorem decode_eq_ok_iff {s v : List Char} :
    decode s = .ok v ↔ ∃ parts, MadeOf Part.Accepted s parts ∧ v = parts.map Part.char := by
  constructor
  · exact exists_madeOf_of_decodeFrom
  · rintro ⟨parts, hparts, rfl⟩
    exact hparts.decode

end EmailMarkup.Template
