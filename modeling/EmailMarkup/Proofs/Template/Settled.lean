import EmailMarkup.Proofs.Template.Protect
/-!
# Texts that are protected on their own

Protecting a text put together from two pieces protects each of them, if every ending tag and every verbatim text that
begins in the first piece also ends there (`isSettled`), and the second piece goes on with a tag or with the end mark of
a comment (`protect_append`). No name of a tag or a character reaches across such a place.

Protecting never completes the end mark of a comment (`occurs_commentClose_protect`): it only puts text without dashes
between the characters that it keeps.
-/
namespace EmailMarkup

/-! ## Substitution in two pieces -/

namespace Text

variable {step : List Char → Option (List Char × Nat)} {unfinished : List Char → Bool}

/-- Whether nothing is unfinished wherever the substitution looks. The counter is how many of the characters taken are
still to be passed over. -/
def settledFrom (step : List Char → Option (List Char × Nat)) (unfinished : List Char → Bool) : Nat → List Char → Bool
  | _, [] => true
  | k + 1, _ :: s => settledFrom step unfinished k s
  | 0, c :: s => !unfinished (c :: s) && settledFrom step unfinished ((step (c :: s)).elim 0 fun p => p.2 - 1) s

/-- If what is finished is taken the same with `rest` behind it, the two pieces are substituted one by one. -/
theorem substituteFrom_append {rest : List Char} (htakes : TakesPiece step)
    (hstep : ∀ c t, unfinished (c :: t) = false → step (c :: t ++ rest) = step (c :: t)) {k : Nat} {s : List Char}
    (hk : k ≤ s.length) (h : settledFrom step unfinished k s = true) :
    substituteFrom step k (s ++ rest) = substituteFrom step k s ++ substitute step rest := by
  induction s generalizing k with
  | nil =>
    obtain rfl : k = 0 := Nat.le_zero.1 hk
    rfl
  | cons c s ih =>
    cases k with
    | succ k => exact ih (Nat.le_of_succ_le_succ hk) h
    | zero =>
      rw [settledFrom, Bool.and_eq_true, Bool.not_eq_true'] at h
      have hsame := hstep c s h.1
      rw [List.cons_append] at hsame ⊢
      cases htake : step (c :: s) with
      | none =>
        rw [htake] at h
        simp [substituteFrom, hsame, htake, ih (Nat.zero_le _) h.2]
      | some p =>
        rw [htake] at h
        have hle : p.2 - 1 ≤ s.length := by
          have := htakes.le htake
          simp only [List.length_cons] at this
          omega
        simp [substituteFrom, hsame, htake, ih hle h.2]

theorem settledFrom_of_none {s : List Char} (h : ∀ c t, c :: t <:+ s → unfinished (c :: t) = false ∧ step (c :: t) = none) :
    settledFrom step unfinished 0 s = true := by
  induction s with
  | nil => rfl
  | cons c s ih =>
    obtain ⟨hfinished, hnone⟩ := h c s (List.suffix_refl _)
    rw [settledFrom, hfinished, hnone]
    exact ih fun d t ht => h d t (ht.trans (List.suffix_cons c s))

end Text

namespace Template

open EmailMarkup.Text

/-! ## Settled texts -/

/-- Whether an ending tag begins here that does not end in the text. -/
def opensBlock : List Char → Bool
  | '<' :: r =>
    match endingTags.find? fun tag => namesTag tag r with
    | none => false
    | some tag =>
      match cut tagClose r with
      | none => true
      | some (head, after) => !endsWith ['/'] head && (textBefore? (closesTag tag) after).isNone
  | _ => false

/-- Whether verbatim text begins here that does not end in the text. -/
def opensVerbatim (s : List Char) : Bool := (strip? cdataOpen s).any fun after => !occurs cdataClose after

/-- Whether all ending tags and verbatim texts that begin in a text end in it. -/
def isSettled (s : List Char) : Bool :=
  settledFrom wrapStep opensBlock 0 s && settledFrom outsideStep opensVerbatim 0 (wrapEnding s)

/-- A text that goes on with a tag or with the end mark of a comment. -/
def Fenced (rest : List Char) : Prop := (∃ r, rest = '<' :: r) ∨ ∃ r, rest = '-' :: '-' :: r

theorem Fenced.exists_cons {rest : List Char} (h : Fenced rest) : ∃ d r, rest = d :: r ∧ (d = '<' ∨ d = '-') := by
  rcases h with ⟨r, rfl⟩ | ⟨r, rfl⟩
  · exact ⟨'<', r, rfl, .inl rfl⟩
  · exact ⟨'-', '-' :: r, rfl, .inr rfl⟩

/-! ## Ending tags -/

theorem endingTags_dashes : ∀ tag ∈ endingTags, occurs ['-', '-'] tag.toList = false := by
  decide +kernel

/-- No name of an ending tag ends behind the place. -/
theorem not_endsName_of_fenced {tag : String} (ht : tag ∈ endingTags) {rest before part w : List Char} {c : Char}
    (hrest : Fenced rest) (htag : tag.toList = before ++ part) (hpart : rest = part ++ c :: w) :
    (c == '>' || isAsciiBlank c) = false := by
  have hname : ∀ d ∈ part, isNameChar d = true := fun d hd => endingTags_nameChars tag ht d (by simp [htag, hd])
  rcases hrest with ⟨t, rfl⟩ | ⟨t, rfl⟩
  · match part, hpart with
    | [], hpart =>
      obtain rfl : '<' = c := (List.cons.inj hpart).1
      decide
    | d :: part, hpart =>
      obtain rfl : '<' = d := (List.cons.inj hpart).1
      exact absurd (hname '<' (by simp)) (by decide)
  · match part, hpart with
    | [], hpart =>
      obtain rfl : '-' = c := (List.cons.inj hpart).1
      decide
    | [d], hpart =>
      obtain rfl : '-' = c := (List.cons.inj (List.cons.inj hpart).2).1
      decide
    | d :: e :: part, hpart =>
      obtain rfl : '-' = d := (List.cons.inj hpart).1
      obtain rfl : '-' = e := (List.cons.inj (List.cons.inj hpart).2).1
      have hnone := strip?_eq_none_of_occurs (endingTags_dashes tag ht) ⟨before, htag.symm⟩
      exact absurd hnone (by simp [strip?])

theorem namesTag_append {tag : String} (ht : tag ∈ endingTags) {rest : List Char} (hrest : Fenced rest) (r : List Char) :
    namesTag tag (r ++ rest) = namesTag tag r := by
  cases hstrip : strip? tag.toList r with
  | some w =>
    rw [strip?_eq_some_iff.1 hstrip, List.append_assoc, namesTag, namesTag, strip?_append, strip?_append]
    rcases hrest with ⟨t, rfl⟩ | ⟨t, rfl⟩ <;> cases w <;> rfl
  | none =>
    have hr : namesTag tag r = false := by rw [namesTag, hstrip]
    rw [hr]
    unfold namesTag
    split
    · rename_i c w heq
      rcases List.append_eq_append_iff.1 (strip?_eq_some_iff.1 heq) with ⟨part, htag, hpart⟩ | ⟨part, hr, -⟩
      · exact not_endsName_of_fenced ht hrest htag hpart
      · rw [hr, strip?_append] at hstrip
        cases hstrip
    · rfl

/-- What precedes the first end tag does not depend on what follows it. -/
theorem textBefore?_append {tag : String} (ht : isName tag = true) {after content : List Char}
    (h : textBefore? (closesTag tag) after = some content) (rest : List Char) :
    textBefore? (closesTag tag) (after ++ rest) = some content := by
  obtain ⟨tail, rfl, hcontent, htail⟩ := (textBefore?_eq_some_iff ht).1 h
  exact (textBefore?_eq_some_iff ht).2 ⟨tail ++ rest, by rw [List.append_assoc], hcontent, closesTag_mono htail rest⟩

/-- An ending tag that ends in a text is wrapped the same with `rest` behind it. -/
theorem wrapStep_append {rest : List Char} (hrest : Fenced rest) {c : Char} {t : List Char}
    (h : opensBlock (c :: t) = false) : wrapStep (c :: t ++ rest) = wrapStep (c :: t) := by
  by_cases hc : c = '<'
  · subst hc
    have hfind := List.find?_congr fun tag ht => namesTag_append ht hrest t
    rw [List.cons_append, wrapStep, wrapStep]
    rw [opensBlock] at h
    cases hnamed : endingTags.find? fun tag => namesTag tag t with
    | none => simp [endingBlock?, hfind, hnamed]
    | some tag =>
      simp only [hnamed] at h
      cases hcut : cut tagClose t with
      | none => simp [hcut] at h
      | some p =>
        obtain ⟨head, after⟩ := p
        rw [endingBlock?_of_ending hnamed hcut, endingBlock?_of_ending (hfind.trans hnamed) (cut_append hcut rest)]
        simp only [hcut, Bool.and_eq_false_iff, Bool.not_eq_false'] at h
        rcases h with hslash | hnone
        · rw [if_pos hslash, if_pos hslash]
        · cases hcontent : textBefore? (closesTag tag) after with
          | none => simp [hcontent] at hnone
          | some content =>
            rw [textBefore?_append (endingTags_isName (List.mem_of_find?_eq_some hnamed)) hcontent]
  · rw [List.cons_append, wrapStep_of_ne hc, wrapStep_of_ne hc]

theorem takesPiece_wrapStep : TakesPiece wrapStep := by
  intro t p hp
  obtain ⟨b, hb, rfl⟩ := Option.map_eq_some_iff.1 hp
  obtain ⟨tag, head, rest, -, hopening, rfl⟩ := exists_isBlock hb
  exact ⟨b.opening ++ b.content, rest, by simp [hopening], by simp [hopening], by simp⟩

/-- What is taken is the start tag and the content of a block. -/
theorem wrapStep_eq_some {piece rest out : List Char} (h : wrapStep (piece ++ rest) = some (out, piece.length)) :
    ∃ tag head content, IsBlock tag head content rest ∧ piece = '<' :: (head ++ '>' :: content) ∧
      out = '<' :: (head ++ '>' :: wrapContent content) := by
  obtain ⟨b, hb, heq⟩ := Option.map_eq_some_iff.1 h
  obtain ⟨rfl, hlength⟩ := Prod.mk.inj heq
  obtain ⟨tag, head, rest', hblock, hopening, htext⟩ := exists_isBlock hb
  have htext : piece ++ rest = '<' :: (head ++ '>' :: b.content) ++ rest' := by simpa using htext
  have hsame : piece.length = ('<' :: (head ++ '>' :: b.content)).length := by
    simp only [← hlength, hopening, List.length_cons, List.length_append, List.length_nil]
    omega
  obtain ⟨rfl, rfl⟩ := List.append_inj htext hsame
  exact ⟨tag, head, b.content, hblock, rfl, by simp [hopening]⟩

/-! ## Named characters and verbatim text -/

/-- The names of characters are made of letters and digits. -/
theorem isAlphanum_of_entityCode? {name : List Char} {code : Nat} (h : entityCode? (String.ofList name) = some code) :
    ∀ c ∈ name, c.isAlphanum = true := by
  have hall := entityCode?_forall (p := fun name _ => name.toList.all Char.isAlphanum) (by decide +kernel) h
  rw [String.toList_ofList] at hall
  exact List.all_eq_true.1 hall

/-- A text that is not cut before `d` is cut behind it. -/
theorem mem_before_cut {q d : Char} {t r before after : List Char} (ht : cut [q] t = none) (hd : d ≠ q)
    (h : cut [q] (t ++ d :: r) = some (before, after)) : d ∈ before := by
  have heq : t ++ d :: r = before ++ (q :: after) := by simpa using cut_eq_append h
  rcases List.append_eq_append_iff.1 heq with ⟨part, rfl, hpart⟩ | ⟨part, rfl, hpart⟩
  · cases part with
    | nil => exact absurd (List.cons.inj hpart).1 hd
    | cons e part =>
      obtain rfl : d = e := (List.cons.inj hpart).1
      simp
  · cases part with
    | nil => exact absurd (List.cons.inj hpart).1.symm hd
    | cons e part =>
      obtain rfl : q = e := (List.cons.inj hpart).1
      have hnone := cutBy_eq_none_iff.1 ht (q :: part) ⟨before, rfl⟩
      exact absurd hnone (by simp [strip?])

/-- A reference to a named character, and what takes its place. -/
theorem entity?_eq {t : List Char} {p : List Char × Nat} (h : entity? t = some p) : ∃ name rest code,
    t = '&' :: (name ++ ';' :: rest) ∧ entityCode? (String.ofList name) = some code ∧
      p = (numericReference code, name.length + 2) := by
  unfold entity? at h
  split at h
  · obtain ⟨⟨name, rest⟩, hcut, h⟩ := Option.bind_eq_some_iff.1 h
    obtain ⟨code, hcode, h⟩ := Option.bind_eq_some_iff.1 h
    rw [namedCode?_eq] at hcode
    exact ⟨name, rest, code, by simp [cut_eq_append hcut], hcode, (Option.some.inj h).symm⟩
  · cases h

/-- The name of a character does not reach across the place. -/
theorem entity?_append {rest : List Char} (hrest : Fenced rest) (c : Char) (t : List Char) :
    entity? (c :: t ++ rest) = entity? (c :: t) := by
  by_cases hc : c = '&'
  · subst hc
    rw [List.cons_append, entity?, entity?]
    cases hcut : cut [';'] t with
    | some p =>
      rw [cut_append hcut]
      rfl
    | none =>
      cases hcut' : cut [';'] (t ++ rest) with
      | none => rfl
      | some p =>
        obtain ⟨name, after⟩ := p
        obtain ⟨d, r, rfl, hd⟩ := hrest.exists_cons
        have hne : d ≠ ';' := by rcases hd with rfl | rfl <;> decide
        have hmem : d ∈ name := mem_before_cut hcut hne hcut'
        have hnone : entityCode? (String.ofList name) = none := by
          rw [Option.eq_none_iff_forall_ne_some]
          intro code hcode
          have halpha := isAlphanum_of_entityCode? hcode d hmem
          rcases hd with rfl | rfl <;> exact absurd halpha (by decide)
        simp [namedCode?_eq, hnone]
  · rw [List.cons_append, entity?_of_ne hc, entity?_of_ne hc]

/-- Verbatim text does not begin across the place. -/
theorem strip?_cdataOpen_append {rest : List Char} (hrest : Fenced rest) (c : Char) (t : List Char) :
    strip? cdataOpen (c :: t ++ rest) = (strip? cdataOpen (c :: t)).map (· ++ rest) := by
  obtain ⟨d, r, rfl, hd⟩ := hrest.exists_cons
  have hmem : d ∉ cdataOpen.tail := by rcases hd with rfl | rfl <;> decide
  exact strip?_cons_append_cons hmem c t r

/-- Verbatim text that ends in a text is passed over the same with `rest` behind it. -/
theorem outsideStep_append {rest : List Char} (hrest : Fenced rest) {c : Char} {t : List Char}
    (h : opensVerbatim (c :: t) = false) : outsideStep (c :: t ++ rest) = outsideStep (c :: t) := by
  have hstrip := strip?_cdataOpen_append hrest c t
  cases hopen : strip? cdataOpen (c :: t) with
  | none =>
    rw [hopen] at hstrip
    rw [outsideStep_eq hopen, outsideStep_eq hstrip, entity?_append hrest]
  | some after =>
    rw [hopen, Option.map_some] at hstrip
    rw [opensVerbatim, hopen] at h
    obtain ⟨p, hcut⟩ : ∃ p, cut cdataClose after = some p := by simpa [occurs, Option.isSome_iff_exists] using h
    have hverbatim : verbatim? (c :: t ++ rest) = verbatim? (c :: t) := by
      rw [verbatim?, verbatim?, hstrip, hopen]
      simp [hcut, cut_append hcut]
    have htaken : ∃ v, verbatim? (c :: t) = some v := by
      rw [verbatim?, hopen]
      simp [hcut]
    obtain ⟨v, hv⟩ := htaken
    rw [outsideStep, outsideStep, hverbatim, hv]
    rfl

/-- Verbatim text is part of the text. -/
theorem verbatim?_eq {t v : List Char} (h : verbatim? t = some v) : v ≠ [] ∧ ∃ rest, t = v ++ rest := by
  obtain ⟨after, hafter, h⟩ := Option.bind_eq_some_iff.1 h
  have ht := strip?_eq_some_iff.1 hafter
  split at h
  · obtain rfl := Option.some.inj h
    exact ⟨by simp [ht, cdataOpen], [], by simp⟩
  · rename_i inside rest hcut
    obtain rfl := Option.some.inj h
    exact ⟨by simp [cdataOpen], rest, by simp [ht, cut_eq_append hcut]⟩

theorem takesPiece_entity? : TakesPiece entity? := by
  intro t p hp
  obtain ⟨name, rest, code, rfl, -, rfl⟩ := entity?_eq hp
  exact ⟨'&' :: (name ++ [';']), rest, by simp, by simp, by simp⟩

/-- What is taken is a reference to a named character. -/
theorem entity?_eq_some {piece rest out : List Char} (h : entity? (piece ++ rest) = some (out, piece.length)) :
    ∃ name code, entityCode? (String.ofList name) = some code ∧ piece = '&' :: (name ++ [';']) ∧ out = numericReference code := by
  obtain ⟨name, r, code, heq, hcode, hp⟩ := entity?_eq h
  obtain ⟨rfl, hlength⟩ := Prod.mk.inj hp
  have heq : piece ++ rest = '&' :: (name ++ [';']) ++ r := by simpa using heq
  exact ⟨name, code, hcode, (List.append_inj heq (by simpa using hlength)).1, rfl⟩

theorem takesPiece_outsideStep : TakesPiece outsideStep := by
  intro t p hp
  rw [outsideStep] at hp
  cases hv : verbatim? t with
  | none => exact takesPiece_entity? t p (by simpa [hv] using hp)
  | some v =>
    obtain ⟨hne, rest, hrest⟩ := verbatim?_eq hv
    obtain rfl : (v, v.length) = p := by simpa [hv] using hp
    exact ⟨v, rest, hrest, hne, rfl⟩

/-- What is taken outside is verbatim text, which stays, or a reference to a named character. -/
theorem outsideStep_eq_some {piece rest out : List Char} (h : outsideStep (piece ++ rest) = some (out, piece.length)) :
    (out = piece ∧ verbatim? (piece ++ rest) = some piece) ∨
      ∃ name code, entityCode? (String.ofList name) = some code ∧ piece = '&' :: (name ++ [';']) ∧ out = numericReference code := by
  rw [outsideStep] at h
  cases hv : verbatim? (piece ++ rest) with
  | none => exact .inr (entity?_eq_some (by simpa [hv] using h))
  | some v =>
    obtain ⟨rfl, hlength⟩ : v = out ∧ v.length = piece.length := by simpa [hv] using h
    obtain ⟨-, r, hr⟩ := verbatim?_eq hv
    obtain ⟨rfl, -⟩ := List.append_inj hr hlength.symm
    exact .inl ⟨rfl, rfl⟩

/-! ## Protecting in pieces -/

/-- What is settled is protected on its own. -/
theorem protect_append {s rest : List Char} (h : isSettled s = true) (hrest : Fenced rest)
    (hwrapped : Fenced (wrapEnding rest)) : protect (s ++ rest) = protect s ++ protect rest := by
  rw [isSettled, Bool.and_eq_true] at h
  have hwrap : wrapEnding (s ++ rest) = wrapEnding s ++ wrapEnding rest :=
    substituteFrom_append takesPiece_wrapStep (fun _ _ => wrapStep_append hrest) (Nat.zero_le _) h.1
  rw [protect, hwrap]
  exact substituteFrom_append takesPiece_outsideStep (fun _ _ => outsideStep_append hwrapped) (Nat.zero_le _) h.2

/-! ## Texts that mention nothing -/

/-- Whether an ending tag, verbatim text or a reference to a named character begins here. -/
def isMention (s : List Char) : Bool :=
  (match s with
    | '<' :: r => endingTags.any fun tag => namesTag tag r
    | _ => false) || startsWith cdataOpen s || (entity? s).isSome

/-- Whether a text mentions an ending tag, verbatim text or a named character. -/
def mentions : List Char → Bool
  | [] => false
  | c :: s => isMention (c :: s) || mentions s

theorem isMention_of_suffix {s : List Char} (h : mentions s = false) {c : Char} {t : List Char} (ht : c :: t <:+ s) :
    isMention (c :: t) = false := by
  induction s with
  | nil => simp at ht
  | cons d s ih =>
    rw [mentions, Bool.or_eq_false_iff] at h
    rcases List.suffix_cons_iff.1 ht with heq | ht
    · rw [heq]
      exact h.1
    · exact ih h.2 ht

/-- Where nothing is mentioned, neither pass takes anything. -/
theorem steps_of_not_mention {c : Char} {t : List Char} (h : isMention (c :: t) = false) :
    (opensBlock (c :: t) = false ∧ wrapStep (c :: t) = none) ∧ opensVerbatim (c :: t) = false ∧ outsideStep (c :: t) = none := by
  simp only [isMention, Bool.or_eq_false_iff, startsWith, Option.isSome_eq_false_iff, Option.isNone_iff_eq_none] at h
  obtain ⟨⟨hnames, hopen⟩, hentity⟩ := h
  refine ⟨?_, by rw [opensVerbatim, hopen]; rfl, by rw [outsideStep_eq hopen, hentity]⟩
  by_cases hc : c = '<'
  · subst hc
    have hfind : (endingTags.find? fun tag => namesTag tag t) = none := by simpa using hnames
    rw [opensBlock, wrapStep, endingBlock?, hfind]
    exact ⟨rfl, rfl⟩
  · exact ⟨by unfold opensBlock; split <;> simp_all, wrapStep_of_ne hc t⟩

/-- A text that mentions nothing is settled, and protecting it changes nothing. -/
theorem protect_of_not_mentions {s : List Char} (h : mentions s = false) : isSettled s = true ∧ protect s = s := by
  have hwrap : wrapEnding s = s := substitute_eq_self fun _ _ ht => (steps_of_not_mention (isMention_of_suffix h ht)).1.2
  constructor
  · rw [isSettled, hwrap, Bool.and_eq_true]
    exact ⟨settledFrom_of_none fun _ _ ht => (steps_of_not_mention (isMention_of_suffix h ht)).1,
      settledFrom_of_none fun _ _ ht => (steps_of_not_mention (isMention_of_suffix h ht)).2⟩
  · rw [protect, hwrap]
    exact substitute_eq_self fun _ _ ht => (steps_of_not_mention (isMention_of_suffix h ht)).2.2

/-! ## The end mark of comments -/

/-- `t` is `s` with some parts replaced and some texts added, none of which holds a dash or begins with `>`. -/
inductive Padded : List Char → List Char → Prop
  | nil : Padded [] []
  | keep {s t : List Char} (c : Char) (h : Padded s t) : Padded (c :: s) (c :: t)
  | swap {s t new : List Char} (old : List Char) (hne : new ≠ []) (hdash : '-' ∉ new) (hhead : new.head? ≠ some '>')
      (h : Padded s t) : Padded (old ++ s) (new ++ t)

namespace Padded

theorem refl : ∀ s : List Char, Padded s s
  | [] => nil
  | c :: s => keep c (refl s)

theorem append {s t s' t' : List Char} (h : Padded s t) (h' : Padded s' t') : Padded (s ++ s') (t ++ t') := by
  induction h with
  | nil => exact h'
  | keep c _ ih => exact keep c ih
  | swap old hne hdash hhead _ ih =>
    rw [List.append_assoc, List.append_assoc]
    exact swap old hne hdash hhead ih

/-- A text that is added. -/
theorem insert {s t new : List Char} (hne : new ≠ []) (hdash : '-' ∉ new) (hhead : new.head? ≠ some '>') (h : Padded s t) :
    Padded s (new ++ t) :=
  swap [] hne hdash hhead h

/-- A dash, and `>`, can only be one that was kept. -/
theorem of_cons {s t : List Char} {d : Char} (hd : d = '-' ∨ d = '>') (h : Padded s (d :: t)) :
    ∃ s', s = d :: s' ∧ Padded s' t := by
  generalize hdt : d :: t = u at h
  cases h with
  | nil => cases hdt
  | keep c h =>
    obtain ⟨rfl, rfl⟩ := List.cons.inj hdt
    exact ⟨_, rfl, h⟩
  | @swap s' t' new old hne hdash hhead h =>
    obtain ⟨e, new, rfl⟩ := List.exists_cons_of_ne_nil hne
    obtain ⟨rfl, -⟩ := List.cons.inj hdt
    rcases hd with rfl | rfl
    · exact absurd (by simp) hdash
    · exact absurd rfl hhead

theorem startsWith_commentClose {s t : List Char} (h : Padded s t) (hs : startsWith commentClose s = false) :
    startsWith commentClose t = false := by
  rw [Bool.eq_false_iff] at hs ⊢
  intro ht
  obtain ⟨r, hr⟩ := Option.isSome_iff_exists.1 ht
  rw [strip?_eq_some_iff.1 hr] at h
  obtain ⟨s₁, rfl, h₁⟩ := of_cons (.inl rfl) h
  obtain ⟨s₂, rfl, h₂⟩ := of_cons (.inl rfl) h₁
  obtain ⟨s₃, rfl, -⟩ := of_cons (.inr rfl) h₂
  exact hs (by simp [startsWith, strip?, commentClose])

theorem occurs_commentClose {s t : List Char} (h : Padded s t) (hs : occurs commentClose s = false) :
    occurs commentClose t = false := by
  induction h with
  | nil => exact hs
  | keep c h ih =>
    rw [occurs_cons, Bool.or_eq_false_iff] at hs ⊢
    exact ⟨(keep c h).startsWith_commentClose hs.1, ih hs.2⟩
  | @swap s t new old hne hdash hhead h ih =>
    have hrest : occurs commentClose s = false := by
      have hnone : cut commentClose (old ++ s) = none := by simpa [occurs] using hs
      have hnone' : cut commentClose s = none :=
        cutBy_eq_none_iff.2 fun u hu => cutBy_eq_none_iff.1 hnone u (hu.trans (List.suffix_append old s))
      simp [occurs, hnone']
    have hnew : occurs commentClose new = false := occurs_of_not_mem (by decide : '-' ∈ commentClose) hdash
    exact occurs_mark_append hnew (ih hrest) (.inl fun hlast => hdash (List.mem_of_getLast? hlast))

end Padded

/-- A substitution pads a text if it pads what it takes. -/
theorem padded_substitute {step : List Char → Option (List Char × Nat)} (htakes : TakesPiece step)
    (hstep : ∀ piece rest out, piece ≠ [] → step (piece ++ rest) = some (out, piece.length) → Padded piece out)
    (s : List Char) : Padded s (substitute step s) :=
  substitute_induction htakes .nil (fun c _ _ ih => .keep c ih)
    (fun piece rest out hne htake ih => (hstep piece rest out hne htake).append ih) s

theorem padded_replaceAll (s : List Char) : Padded s (replaceAll cdataClose cdataSplit s) := by
  refine padded_substitute (takesPiece_replaceAll (by decide) _) (fun piece rest out _ hp => ?_) s
  obtain ⟨rfl, rfl⟩ := replaceStep_eq_some hp
  -- the marks are put before the last character
  have hmarks : Padded ['>'] ((cdataClose ++ cdataOpen) ++ ['>']) :=
    .insert (by decide) (by decide) (by decide) (.refl ['>'])
  exact (Padded.refl [']', ']']).append hmarks

theorem padded_wrapContent (content : List Char) : Padded content (wrapContent content) := by
  rw [wrapContent]
  split
  · exact .refl content
  · have hclose : Padded [] (cdataClose ++ []) := .insert (by decide) (by decide) (by decide) .nil
    rw [List.append_assoc]
    refine .insert (by decide) (by decide) (by decide) ?_
    simpa using (padded_replaceAll content).append hclose

theorem padded_wrapEnding (s : List Char) : Padded s (wrapEnding s) := by
  refine padded_substitute takesPiece_wrapStep (fun piece rest out _ hp => ?_) s
  obtain ⟨tag, head, content, -, rfl, rfl⟩ := wrapStep_eq_some hp
  simpa using (Padded.refl ('<' :: (head ++ ['>']))).append (padded_wrapContent content)

/-- The digits of a reference take the place of the name. -/
theorem padded_reference (name : List Char) (code : Nat) : Padded ('&' :: (name ++ [';'])) (numericReference code) := by
  have hdash : '-' ∉ '#' :: Nat.toDigits 10 code := by
    intro hmem
    rcases List.mem_cons.1 hmem with h | h
    · cases h
    · exact absurd (Nat.isDigit_of_mem_toDigits (by decide) (by decide) h) (by decide)
  exact .keep '&' (.swap name (List.cons_ne_nil _ _) hdash (by simp) (.refl [';']))

theorem padded_replaceOutside (s : List Char) : Padded s (replaceOutside s) := by
  refine padded_substitute takesPiece_outsideStep (fun piece rest out _ hp => ?_) s
  rcases outsideStep_eq_some hp with ⟨rfl, -⟩ | ⟨name, code, -, rfl, rfl⟩
  · exact .refl _
  · exact padded_reference name code

/-- Protecting a text does not complete the end mark of a comment. -/
theorem occurs_commentClose_protect {s : List Char} (h : occurs commentClose s = false) :
    occurs commentClose (protect s) = false :=
  (padded_replaceOutside _).occurs_commentClose ((padded_wrapEnding s).occurs_commentClose h)

end Template

end EmailMarkup
