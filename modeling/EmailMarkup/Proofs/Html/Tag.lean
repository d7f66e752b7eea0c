import EmailMarkup.Html.Tag
import EmailMarkup.Proofs.Attributes
import EmailMarkup.Proofs.Text.Nesting
import EmailMarkup.Proofs.Text.Search
/-!
# Attributes, character by character

The attributes of a start tag are read one after the other. The same attributes are found by an automaton that takes
one character at a time (`Scan`), so what is found in a text put together from parts follows from where the automaton
stands between the parts.
-/
namespace EmailMarkup.Html

open EmailMarkup.Text

/-! ## The automaton -/

/-- Where the reading of attributes stands. -/
inductive Mode where
  | between
  | name (name : List Char)
  /-- Behind a name and blanks. -/
  | named (name : List Char)
  /-- Behind a name and an equals sign. -/
  | equals (name : List Char)
  | unquoted (name value : List Char)
  | quoted (name : List Char) (quote : Char) (value : List Char)
  /-- Behind a quoted value. -/
  | closed (name value : List Char)

def attributeKey (name : List Char) : String := String.ofList (name.map Char.toLower)

namespace Mode

/-- Where the reading stands at the first character of what is no part of an attribute before. -/
def first (c : Char) : Mode := if isNameChar c then .name [c] else .between

/-- Where the reading stands after one more character of an attribute, unless the character is no part of it. -/
def next : Mode → Char → Option Mode
  | between, _ => none
  | name n, c =>
    if isNameChar c then some (.name (n ++ [c]))
    else if c = '=' then some (.equals n)
    else if isAsciiBlank c then some (.named n)
    else none
  | named n, c => if isAsciiBlank c then some (.named n) else if c = '=' then some (.equals n) else none
  | equals n, c =>
    if isAsciiBlank c then some (.equals n)
    else if c = '"' ∨ c = '\'' then some (.quoted n c [])
    else if c = '>' then none
    else some (.unquoted n [c])
  | unquoted n v, c => if isAsciiBlank c || c == '>' then none else some (.unquoted n (v ++ [c]))
  | quoted n q v, c => if c = q then some (.closed n v) else some (.quoted n q (v ++ [c]))
  | closed _ _, _ => none

/-- The attribute, if the text ends here. -/
def entry : Mode → List (String × String)
  | between => []
  | name n | named n | equals n => [(attributeKey n, "")]
  | unquoted n v | quoted n _ v | closed n v => [(attributeKey n, String.ofList v)]

/-- Whether a value is still to come, or its closing quote. -/
def isPending : Mode → Bool
  | equals _ | quoted _ _ _ => true
  | _ => false

end Mode

/-- Where the reading of attributes stands, and what it has found before. -/
structure Scan where
  mode : Mode := .between
  found : List (String × String) := []

namespace Scan

/-- Takes one more character. -/
def step (s : Scan) (c : Char) : Scan :=
  match s.mode.next c with
  | some mode => ⟨mode, s.found⟩
  | none => ⟨.first c, s.found ++ s.mode.entry⟩

def run (s : Scan) (text : List Char) : Scan := text.foldl step s

def entries (s : Scan) : List (String × String) := s.found ++ s.mode.entry

theorem run_append (s : Scan) (t u : List Char) : s.run (t ++ u) = (s.run t).run u := List.foldl_append

theorem run_cons (s : Scan) (c : Char) (t : List Char) : s.run (c :: t) = (s.step c).run t := rfl

theorem step_of_next {m m' : Mode} {c : Char} (h : m.next c = some m') (l : List (String × String)) :
    step ⟨m, l⟩ c = ⟨m', l⟩ := by
  simp [step, h]

theorem step_of_next_none {m : Mode} {c : Char} (h : m.next c = none) (l : List (String × String)) :
    step ⟨m, l⟩ c = ⟨.first c, l ++ m.entry⟩ := by
  simp [step, h]

theorem step_between (l : List (String × String)) (c : Char) : step ⟨.between, l⟩ c = ⟨.first c, l⟩ := by
  rw [step_of_next_none rfl, Mode.entry, List.append_nil]

/-- What has been found before stays at the front. -/
theorem run_eq (m : Mode) (l : List (String × String)) (t : List Char) :
    run ⟨m, l⟩ t = ⟨(run ⟨m, []⟩ t).mode, l ++ (run ⟨m, []⟩ t).found⟩ := by
  induction t generalizing m l with
  | nil => simp [run]
  | cons c t ih =>
    rw [run_cons, run_cons]
    cases hnext : m.next c with
    | some m' => rw [step_of_next hnext, step_of_next hnext, ih]
    | none =>
      rw [step_of_next_none hnext, step_of_next_none hnext, ih, ih _ ([] ++ m.entry)]
      simp

theorem entries_run (m : Mode) (l : List (String × String)) (t : List Char) :
    (run ⟨m, l⟩ t).entries = l ++ (run ⟨m, []⟩ t).entries := by
  rw [run_eq, entries, entries, List.append_assoc]

/-- Whether what follows begins something new. -/
def Stops (m : Mode) (rest : List Char) : Prop := ∀ c ∈ rest.head?, m.next c = none

theorem run_of_stops {m : Mode} {t : List Char} (h : Stops m t) (hne : t ≠ []) (l : List (String × String)) :
    run ⟨m, l⟩ t = run ⟨.between, l ++ m.entry⟩ t := by
  cases t with
  | nil => exact absurd rfl hne
  | cons c t =>
    have hnext : m.next c = none := h c rfl
    rw [run_cons, run_cons, step_of_next_none hnext, step_between]

theorem entries_run_of_stops {m : Mode} {t : List Char} (h : Stops m t) (l : List (String × String)) :
    (run ⟨m, l⟩ t).entries = (run ⟨.between, l ++ m.entry⟩ t).entries := by
  by_cases hne : t = []
  · subst hne
    simp [run, entries, Mode.entry]
  · rw [run_of_stops h hne]

/-! ## Stretches of text -/

theorem run_stay {m : Mode} {t : List Char} (h : ∀ c ∈ t, m.next c = some m) (l : List (String × String)) :
    run ⟨m, l⟩ t = ⟨m, l⟩ := by
  induction t with
  | nil => rfl
  | cons c t ih =>
    obtain ⟨hc, ht⟩ := List.forall_mem_cons.1 h
    rw [run_cons, step_of_next hc, ih ht]

theorem run_blanks {t : List Char} (h : ∀ c ∈ t, isAsciiBlank c = true) (l : List (String × String)) :
    run ⟨.between, l⟩ t = ⟨.between, l⟩ := by
  induction t with
  | nil => rfl
  | cons c t ih =>
    obtain ⟨hc, ht⟩ := List.forall_mem_cons.1 h
    have hfirst : Mode.first c = .between := by simp [Mode.first, isNameChar, hc]
    rw [run_cons, step_between, hfirst, ih ht]

/-- Characters that are added to a name or to a value. -/
theorem run_grow {grown : List Char → Mode} {t : List Char} (h : ∀ c ∈ t, ∀ v, (grown v).next c = some (grown (v ++ [c])))
    (v : List Char) (l : List (String × String)) : run ⟨grown v, l⟩ t = ⟨grown (v ++ t), l⟩ := by
  induction t generalizing v with
  | nil => simp [run]
  | cons c t ih =>
    obtain ⟨hc, ht⟩ := List.forall_mem_cons.1 h
    rw [run_cons, step_of_next (hc v), ih ht, List.append_assoc, List.singleton_append]

theorem run_name {t : List Char} (h : ∀ c ∈ t, isNameChar c = true) (n : List Char) (l : List (String × String)) :
    run ⟨.name n, l⟩ t = ⟨.name (n ++ t), l⟩ :=
  run_grow (fun c hc v => by simp [Mode.next, h c hc]) n l

theorem run_unquoted {t : List Char} (h : ∀ c ∈ t, (!isAsciiBlank c && c != '>') = true) (n v : List Char)
    (l : List (String × String)) : run ⟨.unquoted n v, l⟩ t = ⟨.unquoted n (v ++ t), l⟩ :=
  run_grow (fun c hc v => by have := h c hc; simp_all [Mode.next]) v l

theorem run_quoted {q : Char} {t : List Char} (h : q ∉ t) (n v : List Char) (l : List (String × String)) :
    run ⟨.quoted n q v, l⟩ t = ⟨.quoted n q (v ++ t), l⟩ :=
  run_grow (fun c hc v => by simp [Mode.next, ne_of_mem_of_not_mem hc h]) v l

theorem run_open {q : Char} (hq : q = '"' ∨ q = '\'') {value : List Char} (h : q ∉ value) (n : List Char)
    (l : List (String × String)) : run ⟨.equals n, l⟩ (q :: value) = ⟨.quoted n q value, l⟩ := by
  have hopen : Mode.next (.equals n) q = some (.quoted n q []) := by rcases hq with rfl | rfl <;> rfl
  rw [run_cons, step_of_next hopen, run_quoted h, List.nil_append]

/-- A value in quotes. -/
theorem run_value {q : Char} (hq : q = '"' ∨ q = '\'') {value : List Char} (h : q ∉ value) (n : List Char)
    (l : List (String × String)) : run ⟨.equals n, l⟩ (q :: value ++ [q]) = ⟨.closed n value, l⟩ := by
  have hclose : Mode.next (.quoted n q value) q = some (.closed n value) := by simp [Mode.next]
  rw [run_append, run_open hq h, run_cons, step_of_next hclose]
  rfl

/-- Where no value is to come, a space ends what there is. -/
theorem run_space {m : Mode} (hm : m.isPending = false) {c : Char} (hc : isNameChar c = true) (l : List (String × String))
    (t : List Char) : run ⟨m, l⟩ (' ' :: c :: t) = run ⟨.between, l ++ m.entry⟩ (c :: t) := by
  have hblank : isAsciiBlank c = false := by simp_all [isNameChar]
  have hequals : c ≠ '=' := by
    rintro rfl
    cases hc
  have hspace (n : List Char) : run ⟨.named n, l⟩ (c :: t) = run ⟨.between, l ++ [(attributeKey n, "")]⟩ (c :: t) :=
    run_of_stops (fun d hd => by obtain rfl := Option.some.inj hd; simp [Mode.next, hblank, hequals]) (by simp) l
  cases m with
  | between => simp [run_cons, step_between, Mode.first, isNameChar, isAsciiBlank, Mode.entry]
  | name n => exact hspace n
  | named n => exact hspace n
  | equals n => cases hm
  | quoted n q v => cases hm
  | unquoted n v => rfl
  | closed n v => rfl

/-- Where no value is to come, blanks add nothing. -/
theorem entries_blanks {m : Mode} (hm : m.isPending = false) {b : List Char} (hb : ∀ c ∈ b, isAsciiBlank c = true)
    (l : List (String × String)) : (run ⟨m, l⟩ b).entries = l ++ m.entry := by
  cases b with
  | nil => rfl
  | cons c b =>
    obtain ⟨hc, hb⟩ := List.forall_mem_cons.1 hb
    have hname : isNameChar c = false := by simp [isNameChar, hc]
    have hequals : c ≠ '=' := by
      rintro rfl
      cases hc
    have hnamed (n : List Char) : run ⟨.named n, l⟩ b = ⟨.named n, l⟩ :=
      run_stay (fun d hd => by simp [Mode.next, hb d hd]) l
    have hfirst (l : List (String × String)) : run ⟨.first c, l⟩ b = ⟨.between, l⟩ := by
      rw [Mode.first, hname]
      exact run_blanks hb l
    rw [run_cons]
    cases m with
    | between => simp [step_between, hfirst, entries, Mode.entry]
    | name n => simp [step, Mode.next, hname, hequals, hc, hnamed, entries, Mode.entry]
    | named n => simp [step, Mode.next, hc, hnamed, entries, Mode.entry]
    | equals n => cases hm
    | quoted n q v => cases hm
    | unquoted n v => simp [step, Mode.next, hc, hfirst, entries, Mode.entry]
    | closed n v => simp [step, Mode.next, hfirst, entries, Mode.entry]

end Scan

/-! ## One attribute after the other -/

/-- A quoted value at the front of a text, with its closing quote if there is one. -/
structure QuotedAt (q : Char) (value s : List Char) : Prop where
  isQuote : q = '"' ∨ q = '\''
  not_mem : q ∉ value
  eq : s = q :: value ∨ ∃ rest, s = q :: (value ++ q :: rest)

/-- Where the automaton stands behind an item that it takes without finding an attribute before the end of it, with
something new to follow. -/
structure Takes (m : Mode) (s item rest : List Char) (m' : Mode) : Prop where
  eq : s = item ++ rest
  run : ∀ l, Scan.run ⟨m, l⟩ item = ⟨m', l⟩
  stops : Scan.Stops m' rest

/-- A value in quotes, closed or not. -/
theorem readValue_quoted {q : Char} {value s : List Char} (h : QuotedAt q value s) (n : List Char) :
    ∃ rest item m, readValue s = (value, rest, true) ∧ Takes (.equals n) s item rest m ∧
      m.entry = [(attributeKey n, String.ofList value)] := by
  have hq := h.isQuote
  have hall : ∀ c ∈ value, (c != q) = true := fun c hc => by simpa using ne_of_mem_of_not_mem hc h.not_mem
  rcases h.eq with rfl | ⟨rest, rfl⟩
  · have hspan := (span_append hall (r := []) (by simp)).1
    rw [List.append_nil] at hspan
    refine ⟨[], q :: value, .quoted n q value, ?_, ⟨by simp, Scan.run_open hq h.not_mem n, by simp [Scan.Stops]⟩, rfl⟩
    simp [readValue, hq, hspan]
  · have hspan := (span_append hall (r := q :: rest) (by simp)).1
    refine ⟨rest, q :: value ++ [q], .closed n value, ?_, ⟨by simp, Scan.run_value hq h.not_mem n, fun _ _ => rfl⟩, rfl⟩
    simp [readValue, hq, hspan]

/-- A value without quotes, which may be empty. -/
theorem readValue_unquoted {s : List Char} (hblank : ∀ c ∈ s.head?, isAsciiBlank c = false)
    (hquote : ∀ c ∈ s.head?, ¬(c = '"' ∨ c = '\'')) (n : List Char) : ∃ value rest item m,
      readValue s = (value, rest, false) ∧ Takes (.equals n) s item rest m ∧
      m.entry = [(attributeKey n, String.ofList value)] := by
  obtain ⟨value, rest, rfl, hvalue, hrest⟩ := exists_span (fun c => !isAsciiBlank c && c != '>') s
  have hspan := (span_append hvalue hrest).1
  cases value with
  | nil =>
    refine ⟨[], rest, [], .equals n, ?_, ⟨rfl, fun _ => rfl, fun c hc => ?_⟩, rfl⟩
    · cases rest with
      | nil => rfl
      | cons c rest =>
        rw [List.nil_append] at hspan ⊢
        simp [readValue, hquote c rfl, hspan]
    · have hgt : c = '>' := by simpa [hblank c hc] using hrest c hc
      subst hgt
      rfl
  | cons c value =>
    obtain ⟨hc, hvalue⟩ := List.forall_mem_cons.1 hvalue
    have hquote := hquote c rfl
    have hopen : Mode.next (.equals n) c = some (.unquoted n [c]) := by
      simp only [Bool.and_eq_true, Bool.not_eq_true', bne_iff_ne] at hc
      simp [Mode.next, hc, hquote]
    refine ⟨c :: value, rest, c :: value, .unquoted n (c :: value), ?_, ⟨rfl, fun l => ?_, fun d hd => ?_⟩, rfl⟩
    · rw [List.cons_append] at hspan ⊢
      simp [readValue, hquote, hspan]
    · rw [Scan.run_cons, Scan.step_of_next hopen, Scan.run_unquoted hvalue]
      rfl
    · have hd := hrest d hd
      simp only [Mode.next]
      rw [if_pos (by revert hd; cases isAsciiBlank d <;> simp)]

/-- Where the automaton stands behind a name and blanks. -/
def Mode.behind (n blanks : List Char) : Mode := if blanks.isEmpty then .name n else .named n

/-- What attributes can begin with: blanks only, a character that is passed over, a name with no value, or a name, an
equals sign and what stands behind it. -/
inductive Shape : List Char → Prop
  | blank {b : List Char} (hb : ∀ c ∈ b, isAsciiBlank c = true) : Shape b
  | skip {b r : List Char} {c : Char} (hb : ∀ c ∈ b, isAsciiBlank c = true) (hc : isAsciiBlank c = false)
    (hname : isNameChar c = false) : Shape (b ++ c :: r)
  | bare {b n b' r : List Char} (hb : ∀ c ∈ b, isAsciiBlank c = true) (hne : n ≠ []) (hn : ∀ c ∈ n, isNameChar c = true)
    (hb' : ∀ c ∈ b', isAsciiBlank c = true) (hr : ∀ c ∈ (b' ++ r).head?, isNameChar c = false)
    (hblank : ∀ c ∈ r.head?, isAsciiBlank c = false) (heq : ∀ c ∈ r.head?, c ≠ '=') : Shape (b ++ (n ++ (b' ++ r)))
  | value {b n b' b'' s : List Char} (hb : ∀ c ∈ b, isAsciiBlank c = true) (hne : n ≠ [])
    (hn : ∀ c ∈ n, isNameChar c = true) (hb' : ∀ c ∈ b', isAsciiBlank c = true) (hb'' : ∀ c ∈ b'', isAsciiBlank c = true)
    (hs : ∀ c ∈ s.head?, isAsciiBlank c = false) : Shape (b ++ (n ++ (b' ++ '=' :: (b'' ++ s))))

theorem exists_quotedAt {q : Char} (hq : q = '"' ∨ q = '\'') (r : List Char) : ∃ value, QuotedAt q value (q :: r) := by
  obtain ⟨value, rest, rfl, hvalue, hrest⟩ := exists_span (· != q) r
  have hnot : q ∉ value := fun h => by simpa using hvalue q h
  cases rest with
  | nil => exact ⟨value, hq, hnot, .inl (by simp)⟩
  | cons c rest =>
    obtain rfl : c = q := by simpa using hrest c rfl
    exact ⟨value, hq, hnot, .inr ⟨rest, rfl⟩⟩

theorem not_isAsciiBlank_of_isNameChar {c : Char} (h : isNameChar c = true) : isAsciiBlank c = false := by
  simp_all [isNameChar]

theorem isNameChar_of_isAsciiBlank {c : Char} (h : isAsciiBlank c = true) : isNameChar c = false := by
  simp [isNameChar, h]

/-- No name goes on with blanks and an equals sign. -/
theorem not_isNameChar_head_equals {b : List Char} (hb : ∀ c ∈ b, isAsciiBlank c = true) (s : List Char) :
    ∀ c ∈ (b ++ '=' :: s).head?, isNameChar c = false := by
  intro c hc
  cases b with
  | nil =>
    obtain rfl := Option.some.inj hc
    rfl
  | cons d b =>
    obtain rfl := Option.some.inj hc
    exact isNameChar_of_isAsciiBlank (hb d (by simp))

theorem exists_shape (s : List Char) : Shape s := by
  obtain ⟨b, r, rfl, hb, hr⟩ := exists_span isAsciiBlank s
  cases r with
  | nil => simpa using Shape.blank hb
  | cons c r =>
    cases hc : isNameChar c with
    | false => exact .skip hb (hr c rfl) hc
    | true =>
      obtain ⟨n, r', heq, hn, hr'⟩ := exists_span isNameChar (c :: r)
      have hne : n ≠ [] := by
        rintro rfl
        obtain rfl : r' = c :: r := by simpa using heq.symm
        simpa [hc] using hr' c rfl
      obtain ⟨b', r'', rfl, hb', hr''⟩ := exists_span isAsciiBlank r'
      rw [heq]
      by_cases hequals : ∃ rest, r'' = '=' :: rest
      · obtain ⟨rest, rfl⟩ := hequals
        obtain ⟨b'', s, rfl, hb'', hs⟩ := exists_span isAsciiBlank rest
        exact .value hb hne hn hb' hb'' hs
      · refine .bare hb hne hn hb' hr' hr'' fun d hd he => hequals ?_
        cases r'' with
        | nil => simp at hd
        | cons e r'' => exact ⟨r'', by rw [← he, Option.some.inj hd]⟩

section

variable {b n b' : List Char} (hb : ∀ c ∈ b, isAsciiBlank c = true) (hne : n ≠ []) (hn : ∀ c ∈ n, isNameChar c = true)
  (hb' : ∀ c ∈ b', isAsciiBlank c = true)

include hb hne hn hb' in
/-- The automaton takes a name, and the blanks around it. -/
theorem Scan.run_named (l : List (String × String)) : run ⟨.between, l⟩ (b ++ (n ++ b')) = ⟨.behind n b', l⟩ := by
  obtain ⟨c, n, rfl⟩ := List.exists_cons_of_ne_nil hne
  obtain ⟨hc, hn⟩ := List.forall_mem_cons.1 hn
  have hfirst : Mode.first c = .name [c] := by simp [Mode.first, hc]
  rw [run_append, run_blanks hb, List.cons_append, run_cons, step_between, hfirst, run_append, run_name hn]
  cases b' with
  | nil => rfl
  | cons d b' =>
    obtain ⟨hd, hb'⟩ := List.forall_mem_cons.1 hb'
    have hnext (n : List Char) : Mode.next (.name n) d = some (.named n) := by
      have hequals : d ≠ '=' := fun he => by simp [he, isAsciiBlank] at hd
      simp [Mode.next, isNameChar_of_isAsciiBlank hd, hd, hequals]
    rw [run_cons, step_of_next (hnext _), run_stay fun e he => by simp [Mode.next, hb' e he]]
    rfl

include hb hne hn in
theorem readAttributes_named (length fuel : Nat) (found : Attribution) {t : List Char}
    (ht : ∀ c ∈ t.head?, isNameChar c = false) : readAttributes length (fuel + 1) found (b ++ (n ++ t)) =
      match t.dropWhile isAsciiBlank with
      | '=' :: rest =>
        let s := rest.dropWhile isAsciiBlank
        let (value, rest, quoted) := readValue s
        let style := if quoted && attributeKey n == "style" then some (length - s.length + 1, value.length) else found.style
        readAttributes length fuel ⟨found.attributes.insert (attributeKey n) (String.ofList value), style⟩ rest
      | rest => readAttributes length fuel ⟨found.attributes.insert (attributeKey n) "", found.style⟩ rest := by
  obtain ⟨c, n, rfl⟩ := List.exists_cons_of_ne_nil hne
  have hc : isAsciiBlank c = false := not_isAsciiBlank_of_isNameChar (hn c (by simp))
  have hskip : (b ++ (c :: n ++ t)).dropWhile isAsciiBlank = c :: (n ++ t) := (span_append hb (by simpa using hc)).2
  have htake : (c :: (n ++ t)).takeWhile isNameChar = c :: n := (span_append hn ht).1
  have hdrop : (c :: (n ++ t)).drop (c :: n).length = t := List.drop_left
  rw [readAttributes, hskip]
  simp only [htake, hdrop, List.isEmpty_cons, attributeKey]
  rfl

include hb hne hn hb' in
/-- The automaton takes a name and an equals sign, and the blanks around them. -/
theorem Scan.run_equals {b'' : List Char} (hb'' : ∀ c ∈ b'', isAsciiBlank c = true) (l : List (String × String)) :
    run ⟨.between, l⟩ (b ++ (n ++ (b' ++ '=' :: b''))) = ⟨.equals n, l⟩ := by
  have hequals : Mode.next (.behind n b') '=' = some (.equals n) := by
    cases b' <;> rfl
  have hsplit : b ++ (n ++ (b' ++ '=' :: b'')) = b ++ (n ++ b') ++ '=' :: b'' := by simp
  rw [hsplit, run_append, run_named hb hne hn hb', run_cons, step_of_next hequals]
  exact run_stay (fun c hc => by simp [Mode.next, hb'' c hc]) l

end

/-- The quoted value of a `style` attribute stands behind `pre`. -/
structure StyleAt (s pre : List Char) (q : Char) (value : List Char) : Prop where
  quoted : ∃ tail, s = pre ++ tail ∧ QuotedAt q value tail
  mode : ∃ n l, Scan.run {} pre = ⟨.equals n, l⟩ ∧ attributeKey n = "style"

/-- One turn of reading attributes takes an item as the automaton does. -/
def Turn (length fuel : Nat) (found : Attribution) (s : List Char) : Prop :=
  ∃ item rest m next, Takes .between s item rest m ∧ item ≠ [] ∧
    readAttributes length (fuel + 1) found s = readAttributes length fuel next rest ∧
    next.attributes = found.attributes.addAll m.entry ∧
    (next.style = found.style ∨
      ∃ pre q value, StyleAt s pre q value ∧ next.style = some (length - s.length + pre.length + 1, value.length))

section

variable {length fuel : Nat} {found : Attribution} {b n b' : List Char} (hb : ∀ c ∈ b, isAsciiBlank c = true) (hne : n ≠ [])
  (hn : ∀ c ∈ n, isNameChar c = true) (hb' : ∀ c ∈ b', isAsciiBlank c = true)

include hb in
theorem turn_skip {r : List Char} {c : Char} (hc : isAsciiBlank c = false) (hname : isNameChar c = false) :
    Turn length fuel found (b ++ c :: r) := by
  have hskip : (b ++ c :: r).dropWhile isAsciiBlank = c :: r := (span_append hb (by simpa using hc)).2
  have hfirst : Mode.first c = .between := by simp [Mode.first, hname]
  refine ⟨b ++ [c], r, .between, found, ⟨by simp, fun l => ?_, fun _ _ => rfl⟩, by simp, ?_, rfl, .inl rfl⟩
  · rw [Scan.run_append, Scan.run_blanks hb, Scan.run_cons, Scan.step_between, hfirst]
    rfl
  · rw [readAttributes, hskip]
    simp [hname]

include hb hne hn hb' in
theorem turn_bare {r : List Char} (hr : ∀ c ∈ (b' ++ r).head?, isNameChar c = false)
    (hblank : ∀ c ∈ r.head?, isAsciiBlank c = false) (heq : ∀ c ∈ r.head?, c ≠ '=') :
    Turn length fuel found (b ++ (n ++ (b' ++ r))) := by
  have hskip : (b' ++ r).dropWhile isAsciiBlank = r := (span_append hb' hblank).2
  refine ⟨b ++ (n ++ b'), r, .behind n b', ⟨found.attributes.insert (attributeKey n) "", found.style⟩,
    ⟨by simp, Scan.run_named hb hne hn hb', ?_⟩, by simp [hne], ?_, ?_, .inl rfl⟩
  · intro c hc
    cases b' with
    | nil => simp [Mode.behind, Mode.next, hr c hc, hblank c hc, heq c hc]
    | cons d b' => simp [Mode.behind, Mode.next, hblank c hc, heq c hc]
  · rw [readAttributes_named hb hne hn length fuel found hr, hskip]
    split
    · exact absurd rfl (heq '=' rfl)
    · rfl
  · cases b' <;> rfl

include hb hne hn hb' in
/-- A name and an equals sign are taken first, then the value. -/
theorem turn_value {b'' s : List Char} (hb'' : ∀ c ∈ b'', isAsciiBlank c = true) (hs : ∀ c ∈ s.head?, isAsciiBlank c = false)
    (hlength : (b ++ (n ++ (b' ++ '=' :: (b'' ++ s)))).length ≤ length) :
    Turn length fuel found (b ++ (n ++ (b' ++ '=' :: (b'' ++ s)))) := by
  have hskip : (b' ++ '=' :: (b'' ++ s)).dropWhile isAsciiBlank = '=' :: (b'' ++ s) :=
    (span_append hb' fun c hc => by obtain rfl := Option.some.inj hc; rfl).2
  have hskip' : (b'' ++ s).dropWhile isAsciiBlank = s := (span_append hb'' hs).2
  have hhead := not_isNameChar_head_equals hb' (b'' ++ s)
  have hpre (l : List (String × String)) : Scan.run ⟨.between, l⟩ (b ++ (n ++ (b' ++ '=' :: b''))) = ⟨.equals n, l⟩ :=
    Scan.run_equals hb hne hn hb' hb'' l
  have htakes {item rest : List Char} {m : Mode} (h : Takes (.equals n) s item rest m) :
      Takes .between (b ++ (n ++ (b' ++ '=' :: (b'' ++ s)))) (b ++ (n ++ (b' ++ '=' :: b'')) ++ item) rest m := by
    refine ⟨by simp [h.eq], fun l => ?_, h.stops⟩
    rw [Scan.run_append, hpre, h.run]
  rw [Turn, readAttributes_named hb hne hn length fuel found hhead, hskip]
  simp only [hskip']
  by_cases hq : ∃ q r, (q = '"' ∨ q = '\'') ∧ s = q :: r
  · obtain ⟨q, r, hq, rfl⟩ := hq
    obtain ⟨value, hvalue⟩ := exists_quotedAt hq r
    obtain ⟨rest, item, m, hread, ht, hentry⟩ := readValue_quoted hvalue n
    refine ⟨_, rest, m, _, htakes ht, by simp [hne], by rw [hread], by simp [hentry, Attributes.addAll], ?_⟩
    by_cases hkey : attributeKey n = "style"
    · refine .inr ⟨b ++ (n ++ (b' ++ '=' :: b'')), q, value, ⟨⟨q :: r, by simp, hvalue⟩, n, [], hpre [], hkey⟩, ?_⟩
      have hplace : length - (q :: r).length =
          length - (b ++ (n ++ (b' ++ '=' :: (b'' ++ q :: r)))).length + (b ++ (n ++ (b' ++ '=' :: b''))).length := by
        simp only [List.length_append, List.length_cons] at hlength ⊢
        omega
      rw [← hplace]
      simp [hkey]
    · exact .inl (by simp [hkey])
  · have hnot : ∀ c ∈ s.head?, ¬(c = '"' ∨ c = '\'') := by
      intro c hc hquote
      cases s with
      | nil => simp at hc
      | cons d s => exact hq ⟨d, s, Option.some.inj hc ▸ hquote, rfl⟩
    obtain ⟨value, rest, item, m, hread, ht, hentry⟩ := readValue_unquoted hs hnot n
    exact ⟨_, rest, m, _, htakes ht, by simp [hne], by rw [hread], by simp [hentry, Attributes.addAll], .inl (by simp)⟩

end

/-- Reading ends at blanks, and takes its turn with anything else. -/
theorem readAttributes_succ {length : Nat} {s : List Char} (hlength : s.length ≤ length) (fuel : Nat) (found : Attribution) :
    ((∀ c ∈ s, isAsciiBlank c = true) ∧ readAttributes length (fuel + 1) found s = found) ∨ Turn length fuel found s := by
  cases exists_shape s with
  | blank hb =>
    have hskip : s.dropWhile isAsciiBlank = [] := by simpa using (span_append hb (r := []) (by simp)).2
    exact .inl ⟨hb, by rw [readAttributes, hskip]⟩
  | skip hb hc hname => exact .inr (turn_skip hb hc hname)
  | bare hb hne hn hb' hr hblank heq => exact .inr (turn_bare hb hne hn hb' hr hblank heq)
  | value hb hne hn hb' hb'' hs => exact .inr (turn_value hb hne hn hb' hb'' hs hlength)

/-- Where a `style` value stands behind an item, it does so in the whole text. -/
theorem StyleAt.behind {s item rest pre value : List Char} {m : Mode} {q : Char} (h : StyleAt rest pre q value)
    (ht : Takes .between s item rest m) : StyleAt s (item ++ pre) q value := by
  obtain ⟨tail, htail, hquoted⟩ := h.quoted
  obtain ⟨n, l, hrun, hkey⟩ := h.mode
  have hne : pre ≠ [] := by
    rintro rfl
    cases hrun
  have hstops : Scan.Stops m pre := by
    intro c hc
    refine ht.stops c ?_
    rw [htail, List.head?_append, Option.mem_def.1 hc]
    rfl
  refine ⟨⟨tail, by rw [ht.eq, htail, List.append_assoc], hquoted⟩, n, m.entry ++ l, ?_, hkey⟩
  rw [Scan.run_append, ht.run, Scan.run_of_stops hstops hne, Scan.run_eq, hrun]
  rfl

/-- All attributes are found as the automaton finds them, and the place of the style is one where it stands behind an
equals sign. -/
theorem readAttributes_spec {length fuel : Nat} {s : List Char} (hfuel : s.length ≤ fuel) (hlength : s.length ≤ length)
    (found : Attribution) :
    (readAttributes length fuel found s).attributes = found.attributes.addAll (Scan.run {} s).entries ∧
      ((readAttributes length fuel found s).style = found.style ∨ ∃ pre q value, StyleAt s pre q value ∧
        (readAttributes length fuel found s).style = some (length - s.length + pre.length + 1, value.length)) := by
  induction fuel generalizing s found with
  | zero =>
    obtain rfl := List.eq_nil_of_length_eq_zero (Nat.le_zero.1 hfuel)
    exact ⟨rfl, .inl rfl⟩
  | succ fuel ih =>
    rcases readAttributes_succ hlength fuel found with ⟨hblank, heq⟩ | ⟨item, rest, m, next, ht, hne, heq, hnext, hstyle⟩
    · rw [heq, Scan.run_blanks hblank]
      exact ⟨rfl, .inl rfl⟩
    · have hlen : s.length = item.length + rest.length := by rw [ht.eq, List.length_append]
      have hpos : 0 < item.length := List.length_pos_iff.2 hne
      obtain ⟨hattributes, hplace⟩ := ih (s := rest) (by omega) (by omega) next
      rw [heq]
      constructor
      · have hrun : (Scan.run {} s).entries = m.entry ++ (Scan.run {} rest).entries := by
          rw [ht.eq, Scan.run_append, ht.run, Scan.entries_run_of_stops ht.stops, Scan.entries_run, List.nil_append]
        rw [hattributes, hnext, hrun, Attributes.addAll_append]
      · rcases hplace with hplace | ⟨pre, q, value, hat, hplace⟩
        · rwa [hplace]
        · refine .inr ⟨item ++ pre, q, value, hat.behind ht, ?_⟩
          obtain ⟨tail, htail, -⟩ := hat.quoted
          have hpre : pre.length ≤ rest.length := by simp [htail]
          rw [hplace, List.length_append]
          have harith : length - rest.length + pre.length = length - s.length + (item.length + pre.length) := by omega
          rw [harith]

end EmailMarkup.Html
