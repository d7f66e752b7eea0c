import EmailMarkup.Proofs.Template.Respelled
import EmailMarkup.Proofs.Template.RoundTrip
/-!
# What references stand for

`Denotes` is the grammar of the references that markup knows: five names, and code points in decimal or hexadecimal
digits. `Means` adds the names of the table, and says what a whole text stands for. Turning the names of the table into
code points and then reading the references gives that meaning (`decode_replaceEntities`).
-/
namespace EmailMarkup.Template

open EmailMarkup.Text

/-! ## The grammar of references -/

/-- The names that markup knows, and their characters. -/
def markupNames : List (String × Char) := [("amp", '&'), ("lt", '<'), ("gt", '>'), ("quot", '"'), ("apos", '\'')]

/-- A number that is the code point of a character that may be in a template. -/
def IsCodePoint (n : Nat) : Prop := n.isValidChar ∧ n ≠ 0

/-- `d` is the digit for the value; after nine come letters of either case. -/
def IsDigitFor (base : Nat) (d : Char) (value : Nat) : Prop :=
  value < base ∧ ("0123456789abcdef".toList[value]? = some d ∨ "0123456789ABCDEF".toList[value]? = some d)

instance (base : Nat) (d : Char) (value : Nat) : Decidable (IsDigitFor base d value) :=
  inferInstanceAs (Decidable (_ ∧ _))

/-- The digits spell the number, the most significant first. -/
inductive Numeral (base : Nat) : List Char → Nat → Prop
  | digit {d : Char} {value : Nat} (hd : IsDigitFor base d value) : Numeral base [d] value
  | snoc {digits : List Char} {n : Nat} {d : Char} {value : Nat} (h : Numeral base digits n) (hd : IsDigitFor base d value) :
      Numeral base (digits ++ [d]) (base * n + value)

/-- `&name;` is a reference of markup to the character. -/
inductive Denotes : List Char → Char → Prop
  | name {name : String} {c : Char} (h : (name, c) ∈ markupNames) : Denotes name.toList c
  | decimal {digits : List Char} {n : Nat} (h : Numeral 10 digits n) (hcode : IsCodePoint n) :
      Denotes ('#' :: digits) (Char.ofNat n)
  | hexadecimal {mark : Char} {digits : List Char} {n : Nat} (hmark : mark = 'x' ∨ mark = 'X') (h : Numeral 16 digits n)
      (hcode : IsCodePoint n) : Denotes ('#' :: mark :: digits) (Char.ofNat n)

/-- The text is made of stretches without `&` and of references, by names of the table too, and stands for the other. -/
inductive Means : List Char → List Char → Prop
  | nil : Means [] []
  | literal {text s v : List Char} (hplain : '&' ∉ text) (h : Means s v) : Means (text ++ s) (text ++ v)
  | named {name s v : List Char} {code : Nat} (hcode : entityCode? (String.ofList name) = some code) (h : Means s v) :
      Means ('&' :: (name ++ ';' :: s)) (Char.ofNat code :: v)
  | reference {name s v : List Char} {c : Char} (hname : Denotes name c) (h : Means s v) :
      Means ('&' :: (name ++ ';' :: s)) (c :: v)

/-! ## Digits -/

section

variable {d : Char} {value n : Nat} {digits : List Char}

theorem hexValue?_of_isDigitFor (h : IsDigitFor 16 d value) : hexValue? d = some value := by
  obtain ⟨hlt, hd⟩ := h
  have hdigits : ∀ i : Fin 16, hexValue? ("0123456789abcdef".toList.get i) = some i.val ∧
      hexValue? ("0123456789ABCDEF".toList.get i) = some i.val := by decide
  obtain ⟨hlower, hupper⟩ := hdigits ⟨value, hlt⟩
  rcases hd with hd | hd <;> obtain ⟨_, rfl⟩ := List.getElem?_eq_some_iff.1 hd
  · exact hlower
  · exact hupper

theorem isDigit_of_isDigitFor (h : IsDigitFor 10 d value) : d.isDigit = true ∧ d.toNat - 48 = value := by
  obtain ⟨hlt, hd⟩ := h
  have hdigits : ∀ i : Fin 10, "0123456789abcdef".toList[i.val]? = "0123456789ABCDEF".toList[i.val]? ∧
      ("0123456789abcdef".toList[i.val]?.all fun d => d.isDigit && d.toNat - 48 == i.val) = true := by decide
  obtain ⟨hsame, hall⟩ := hdigits ⟨value, hlt⟩
  rw [← hsame, or_self] at hd
  rw [hd] at hall
  simpa using hall

theorem Numeral.isDigits (h : Numeral 10 digits n) : Number.isDigits digits = true ∧ Number.ofDigits digits = n := by
  induction h with
  | digit hd =>
    obtain ⟨hdigit, hvalue⟩ := isDigit_of_isDigitFor hd
    simp [Number.isDigits, Number.ofDigits, hdigit, hvalue]
  | snoc _ hd ih =>
    obtain ⟨hdigit, hvalue⟩ := isDigit_of_isDigitFor hd
    obtain ⟨hdigits, hn⟩ := ih
    simp only [Number.isDigits, Bool.and_eq_true] at hdigits
    constructor
    · simp [Number.isDigits, hdigits.2, hdigit]
    · rw [Number.ofDigits, List.foldl_append, ← Number.ofDigits, hn]
      simp [hvalue]

theorem Numeral.foldlM_hexValue? (h : Numeral 16 digits n) :
    digits.foldlM (fun n c => (hexValue? c).map (16 * n + ·)) 0 = some n := by
  induction h with
  | digit hd => simp [hexValue?_of_isDigitFor hd]
  | snoc _ hd ih => simp [List.foldlM_append, ih, hexValue?_of_isDigitFor hd]

theorem Numeral.isAlphanum (h : Numeral 16 digits n) : ∀ c ∈ digits, c.isAlphanum = true := by
  have hdigits : ("0123456789abcdef".toList ++ "0123456789ABCDEF".toList).all Char.isAlphanum = true := by decide
  have hd {d : Char} {value : Nat} (hd : IsDigitFor 16 d value) : d.isAlphanum = true := by
    refine List.all_eq_true.1 hdigits d (List.mem_append.2 ?_)
    exact hd.2.imp List.mem_of_getElem? List.mem_of_getElem?
  induction h with
  | digit h => simpa using hd h
  | snoc _ h ih =>
    intro c hc
    rcases List.mem_append.1 hc with hc | hc
    · exact ih c hc
    · rw [List.mem_singleton.1 hc]
      exact hd h

end

/-! ## Reading references -/

section

variable {digits : List Char} {n : Nat}

theorem IsCodePoint.le_maxCode (h : IsCodePoint n) : n ≤ maxCode := by
  have hvalid := h.1
  unfold Nat.isValidChar at hvalid
  unfold maxCode
  omega

/-- Digits read as they are, for they do not begin with a plus or the mark of hexadecimal digits. -/
theorem numericCharacter?_decimal (hdigits : Number.isDigits digits = true) (hcode : IsCodePoint (Number.ofDigits digits)) :
    numericCharacter? digits = some (Char.ofNat (Number.ofDigits digits)) := by
  have hnot {c : Char} {r : List Char} (hc : c.isDigit = false) : digits ≠ c :: r := by
    rintro rfl
    simp [Number.isDigits, hc] at hdigits
  have hnatural : Number.natural? maxCode digits = some (Number.ofDigits digits) := by
    unfold Number.natural?
    split
    · exact absurd rfl (hnot (by decide))
    · simp [hdigits, hcode.le_maxCode]
  unfold numericCharacter?
  split
  · exact absurd rfl (hnot (by decide))
  · exact absurd rfl (hnot (by decide))
  · rw [hnatural, Option.bind_some, if_pos ⟨hcode.1, hcode.2⟩]

theorem numericCharacter?_hexadecimal {mark : Char} (hmark : mark = 'x' ∨ mark = 'X') (h : Numeral 16 digits n)
    (hcode : IsCodePoint n) : numericCharacter? (mark :: digits) = some (Char.ofNat n) := by
  have hhex : hexadecimal? digits = some n := by
    unfold hexadecimal?
    split
    · exact absurd (h.isAlphanum '+' (by simp)) (by decide)
    · rw [if_neg (by cases h <;> simp), h.foldlM_hexValue?]
  rcases hmark with rfl | rfl <;> simp [numericCharacter?, hhex, Option.filter_some, hcode.le_maxCode, hcode.1, hcode.2]

end

/-- `&name;` is read as the character, and is left as it is when the names of the table are turned into code points. -/
structure Readable (name : List Char) (c : Char) : Prop where
  character_eq : character name = .ok c
  no_end : ';' ∉ name
  no_mark : '&' ∉ name
  no_name : entityCode? (String.ofList name) = none

theorem readable_of_mem {name : String} {c : Char} (h : (name, c) ∈ markupNames) : Readable name.toList c := by
  have hnames : (markupNames.all fun e => e.1.toList.all Char.isAlphanum && (entityCode? e.1).isNone) = true := by decide +kernel
  have hname := List.all_eq_true.1 hnames _ h
  simp only [Bool.and_eq_true, List.all_eq_true, Option.isNone_iff_eq_none] at hname
  refine ⟨?_, fun hm => ?_, fun hm => ?_, by rw [String.ofList_toList, hname.2]⟩
  · simp only [markupNames, List.mem_cons, Prod.mk.injEq, List.not_mem_nil, or_false] at h
    rcases h with ⟨rfl, rfl⟩ | ⟨rfl, rfl⟩ | ⟨rfl, rfl⟩ | ⟨rfl, rfl⟩ | ⟨rfl, rfl⟩ <;> rfl
  · exact absurd (hname.1 _ hm) (by decide)
  · exact absurd (hname.1 _ hm) (by decide)

theorem readable_numeric {digits : List Char} {c : Char} (hchar : numericCharacter? digits = some c)
    (halpha : ∀ c ∈ digits, c.isAlphanum = true) : Readable ('#' :: digits) c where
  character_eq := by rw [character, hchar]
  no_end := by simpa using fun hm => absurd (halpha _ hm) (by decide)
  no_mark := by simpa using fun hm => absurd (halpha _ hm) (by decide)
  no_name := by
    rw [Option.eq_none_iff_forall_ne_some]
    intro code hcode
    exact absurd (isAlphanum_of_entityCode? hcode '#' (by simp)) (by decide)

theorem readable_decimal {digits : List Char} (hdigits : Number.isDigits digits = true)
    (hcode : IsCodePoint (Number.ofDigits digits)) : Readable ('#' :: digits) (Char.ofNat (Number.ofDigits digits)) := by
  refine readable_numeric (numericCharacter?_decimal hdigits hcode) fun c hc => ?_
  simp only [Number.isDigits, Bool.and_eq_true, List.all_eq_true] at hdigits
  simp [Char.isAlphanum, hdigits.2 c hc]

theorem Denotes.readable {name : List Char} {c : Char} (h : Denotes name c) : Readable name c := by
  cases h with
  | name h => exact readable_of_mem h
  | decimal h hcode =>
    obtain ⟨hdigits, rfl⟩ := h.isDigits
    exact readable_decimal hdigits hcode
  | hexadecimal hmark h hcode =>
    refine readable_numeric (numericCharacter?_hexadecimal hmark h hcode) fun c hc => ?_
    rcases List.mem_cons.1 hc with rfl | hc
    · rcases hmark with rfl | rfl <;> decide
    · exact h.isAlphanum c hc

/-- The numeric reference that takes the place of a name of the table is read as the character of the name. -/
theorem readable_of_entityCode? {name : String} {code : Nat} (h : entityCode? name = some code) :
    Readable ('#' :: Nat.toDigits 10 code) (Char.ofNat code) := by
  have hvalue : Number.ofDigits (Nat.toDigits 10 code) = code := Nat.ofDigitChars_toDigits (by decide) (by decide)
  have hdigits : Number.isDigits (Nat.toDigits 10 code) = true := by
    simpa [Number.isDigits, Nat.toDigits_ne_nil] using fun c hc => isDigit_of_mem_toDigits hc
  have hcode : IsCodePoint code := by
    have := entityCode?_forall (p := fun _ code => 0 < code && code < 0xd800) (by decide +kernel) h
    simp only [Bool.and_eq_true, decide_eq_true_eq] at this
    exact ⟨.inl this.2, by omega⟩
  have hread := readable_decimal hdigits (by rwa [hvalue])
  rwa [hvalue] at hread

/-! ## Texts -/

/-- A name of the table is turned into the code point. -/
theorem replaceEntities_named {name : List Char} {code : Nat} (h : entityCode? (String.ofList name) = some code)
    (s : List Char) : replaceEntities ('&' :: (name ++ ';' :: s)) = numericReference code ++ replaceEntities s := by
  have hend : ';' ∉ name := fun hm => absurd (isAlphanum_of_entityCode? h _ hm) (by decide)
  have hstep : entity? ('&' :: (name ++ [';']) ++ s) = some (numericReference code, ('&' :: (name ++ [';'])).length) := by
    have heq : '&' :: (name ++ [';']) ++ s = '&' :: (name ++ ';' :: s) := by simp
    rw [heq, entity?_reference hend, h]
    simp
  have hsub := substitute_append_of_some (by simp) hstep
  simpa [replaceEntities] using hsub

/-- References that the table does not name stay. -/
theorem replaceEntities_readable {name : List Char} {c : Char} (h : Readable name c) (s : List Char) :
    replaceEntities ('&' :: (name ++ ';' :: s)) = '&' :: (name ++ ';' :: replaceEntities s) := by
  have hkeep := entity?_keeps_reference h.no_end h.no_mark h.no_name s
  simpa [replaceEntities] using hkeep

theorem replaceEntities_plain {text : List Char} (h : '&' ∉ text) (s : List Char) :
    replaceEntities (text ++ s) = text ++ replaceEntities s := by
  have hkeep : Turns entity? text text := .copy fun c hc rest => entity?_of_ne (by rintro rfl; exact h hc) rest
  exact hkeep s

/-- Turning the names of the table into code points and reading the references gives what the text stands for. -/
theorem Means.decodeFrom {s v : List Char} (h : Means s v) : decodeFrom 0 (replaceEntities s) = .ok v := by
  induction h with
  | nil => rfl
  | literal hplain _ ih =>
    rw [replaceEntities_plain hplain]
    exact decodeFrom_plain hplain ih
  | named hcode _ ih =>
    have hread := readable_of_entityCode? hcode
    rw [replaceEntities_named hcode, numericReference_eq]
    simpa using decodeFrom_reference _ hread.no_end hread.character_eq ih
  | reference hname _ ih =>
    have hread := hname.readable
    rw [replaceEntities_readable hread]
    exact decodeFrom_reference _ hread.no_end hread.character_eq ih

/-- Turning the names of the table into code points keeps what a text stands for, and leaves no name of the table. -/
theorem decode_replaceEntities :
    (∀ s v, Means s v → decode (replaceEntities s) = .ok v) ∧ ∀ s, replaceEntities (replaceEntities s) = replaceEntities s :=
  ⟨fun _ _ h => h.decodeFrom, replaceEntities_replaceEntities⟩

def mixedText : List Char := "a;b&nbsp;&amp;nbsp;&#65;&#xE9;".toList

theorem means_mixedText : Means mixedText "a;b\u00a0&nbsp;Aé".toList := by
  have hletter : Denotes "#65".toList 'A' :=
    .decimal (.snoc (@Numeral.digit 10 '6' 6 (by decide)) (show IsDigitFor 10 '5' 5 by decide)) ⟨by decide, by decide⟩
  have hacute : Denotes "#xE9".toList 'é' :=
    .hexadecimal (.inl rfl) (.snoc (@Numeral.digit 16 'E' 14 (by decide)) (show IsDigitFor 16 '9' 9 by decide))
      ⟨by decide, by decide⟩
  have hend : Means "nbsp;&#65;&#xE9;".toList "nbsp;Aé".toList :=
    @Means.literal "nbsp;".toList _ _ (by decide) (.reference hletter (.reference hacute .nil))
  have hamp : Denotes "amp".toList '&' := .name (by decide)
  have hspace : entityCode? (String.ofList "nbsp".toList) = some 0xa0 := by decide +kernel
  exact @Means.literal "a;b".toList _ _ (by decide) (.named hspace (.reference hamp hend))

theorem decode_replaceEntities_mixedText : Means mixedText "a;b\u00a0&nbsp;Aé".toList ∧
    decode (replaceEntities mixedText) = .ok "a;b\u00a0&nbsp;Aé".toList :=
  ⟨means_mixedText, decode_replaceEntities.1 _ _ means_mixedText⟩

end EmailMarkup.Template
