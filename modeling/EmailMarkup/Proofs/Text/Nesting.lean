import EmailMarkup.Text.Nesting
/-!
# Where quotes end

A search that passes over quotes and brackets stops at the first separator outside. It passes a text whole if that has
none outside (`Passes`), and then goes on with what surrounds the end of it.
-/
namespace EmailMarkup.Text

variable {b : Brackets} {separator : Char} {n n' n'' : Nesting} {s t : List Char}

/-- A text with no separator outside, after which the search stands at `n'`. -/
structure Passes (b : Brackets) (separator : Char) (n : Nesting) (s : List Char) (n' : Nesting) : Prop where
  none_outside : cutOutside b separator n s = none
  foldl_eq : s.foldl (Nesting.step b) n = n'

namespace Passes

theorem nil : Passes b separator n [] n := ⟨rfl, rfl⟩

theorem unique (h : Passes b separator n s n') (h' : Passes b separator n s n'') : n' = n'' :=
  h.foldl_eq.symm.trans h'.foldl_eq

theorem cons_iff {c : Char} : Passes b separator n (c :: s) n' ↔
    ¬(n.isOutside = true ∧ c = separator) ∧ Passes b separator (n.step b c) s n' := by
  constructor
  · rintro ⟨hnone, hrun⟩
    rw [cutOutside] at hnone
    split at hnone
    · cases hnone
    · rename_i hc
      exact ⟨by simpa using hc, Option.map_eq_none_iff.1 hnone, hrun⟩
  · rintro ⟨hc, hnone, hrun⟩
    refine ⟨?_, hrun⟩
    rw [cutOutside, if_neg (by simpa using hc), hnone]
    rfl

theorem append_iff : Passes b separator n (s ++ t) n'' ↔ ∃ n', Passes b separator n s n' ∧ Passes b separator n' t n'' := by
  induction s generalizing n with
  | nil =>
    constructor
    · exact fun h => ⟨n, nil, h⟩
    · rintro ⟨_, ⟨-, rfl⟩, h⟩
      exact h
  | cons c s ih =>
    simp only [List.cons_append, cons_iff, ih]
    grind

theorem append (h : Passes b separator n s n') (h' : Passes b separator n' t n'') : Passes b separator n (s ++ t) n'' :=
  append_iff.2 ⟨n', h, h'⟩

/-- Outside quotes, characters that are neither quotes nor brackets leave the search where it is. -/
theorem neutral (hn : n.quote = none) (h : ∀ c ∈ s, c ≠ '"' ∧ c ≠ '\'' ∧ c ∉ b.opening ∧ c ∉ b.closing ∧
    (n.isOutside = true → c ≠ separator)) : Passes b separator n s n := by
  induction s with
  | nil => exact nil
  | cons c s ih =>
    obtain ⟨hc, hs⟩ := List.forall_mem_cons.1 h
    have hstep : n.step b c = n := by simp [Nesting.step, hn, hc]
    exact cons_iff.2 ⟨fun hsep => hc.2.2.2.2 hsep.1 hsep.2, by rw [hstep]; exact ih hs⟩

end Passes

/-- The search stops at a separator if it passes what stands before it and is outside then. -/
theorem cutOutside_eq_some_iff {before after : List Char} : cutOutside b separator n s = some (before, after) ↔
    s = before ++ separator :: after ∧ ∃ n', Passes b separator n before n' ∧ n'.isOutside = true := by
  constructor
  · intro h
    induction s generalizing n before with
    | nil => simp [cutOutside] at h
    | cons c s ih =>
      rw [cutOutside] at h
      split at h
      · rename_i hc
        obtain ⟨rfl, rfl⟩ := Prod.mk.inj (Option.some.inj h)
        rw [Bool.and_eq_true, beq_iff_eq] at hc
        exact ⟨by rw [hc.2]; rfl, n, .nil, hc.1⟩
      · rename_i hc
        obtain ⟨⟨u, v⟩, hu, heq⟩ := Option.map_eq_some_iff.1 h
        obtain ⟨rfl, rfl⟩ := Prod.mk.inj heq
        obtain ⟨rfl, n', hpass, hout⟩ := ih hu
        exact ⟨rfl, n', Passes.cons_iff.2 ⟨by simpa using hc, hpass⟩, hout⟩
  · rintro ⟨rfl, n', hpass, hout⟩
    induction before generalizing n with
    | nil =>
      obtain rfl : n = n' := hpass.foldl_eq
      simp [cutOutside, hout]
    | cons c before ih =>
      obtain ⟨hc, hpass⟩ := Passes.cons_iff.1 hpass
      rw [List.cons_append, cutOutside, if_neg (by simpa using hc), ih hpass]
      rfl

/-! ## Pieces -/

theorem splitOutside_append (h : Passes b separator n s n') (t : List Char) :
    splitOutside b separator n (s ++ t) = (s ++ (splitOutside b separator n' t).1, (splitOutside b separator n' t).2) := by
  induction s generalizing n with
  | nil =>
    obtain rfl : n = n' := h.foldl_eq
    rfl
  | cons c s ih =>
    obtain ⟨hc, hs⟩ := Passes.cons_iff.1 h
    rw [List.cons_append, splitOutside, ih hs]
    simp [hc]

theorem piecesOutside_of_passes (h : Passes b separator {} s n') : piecesOutside b separator s = [s] := by
  have hsplit := splitOutside_append h []
  rw [List.append_nil] at hsplit
  simp [piecesOutside, hsplit, splitOutside]

/-- The first separator outside ends the first piece. -/
theorem piecesOutside_append_cons (h : Passes b separator {} s {}) (hstep : Nesting.step b {} separator = {})
    (t : List Char) : piecesOutside b separator (s ++ separator :: t) = s :: piecesOutside b separator t := by
  simp [piecesOutside, splitOutside_append h, splitOutside, hstep, Nesting.isOutside]

theorem length_le_of_mem_piecesOutside : ∀ p ∈ piecesOutside b separator s, p.length ≤ s.length := by
  have hsplit (n : Nesting) (s : List Char) : ∀ p ∈ (splitOutside b separator n s).1 :: (splitOutside b separator n s).2,
      p.length ≤ s.length := by
    induction s generalizing n with
    | nil => simp [splitOutside]
    | cons c s ih =>
      obtain ⟨hfirst, hothers⟩ := List.forall_mem_cons.1 (ih (n.step b c))
      have hlonger : ∀ p ∈ (splitOutside b separator (n.step b c) s).2, p.length ≤ (c :: s).length :=
        fun p hp => Nat.le_succ_of_le (hothers p hp)
      simp only [splitOutside]
      split
      · exact List.forall_mem_cons.2 ⟨Nat.zero_le _, List.forall_mem_cons.2 ⟨Nat.le_succ_of_le hfirst, hlonger⟩⟩
      · exact List.forall_mem_cons.2 ⟨Nat.succ_le_succ hfirst, hlonger⟩
  exact hsplit {} s

theorem Nesting.eq_of_isOutside (h : n.isOutside = true) : n = {} := by
  obtain ⟨depth, quote⟩ := n
  rw [isOutside, Bool.and_eq_true, beq_iff_eq, Option.isNone_iff_eq_none] at h
  obtain ⟨rfl, rfl⟩ := h
  rfl

/-- If a text ends outside, so do its pieces. -/
theorem passes_of_mem_piecesOutside (hstep : Nesting.step b {} separator = {}) (hend : s.foldl (Nesting.step b) {} = {}) :
    ∀ p ∈ piecesOutside b separator s, Passes b separator {} p {} := by
  have hsplit (n : Nesting) (s : List Char) (hend : s.foldl (Nesting.step b) n = {}) :
      Passes b separator n (splitOutside b separator n s).1 {} ∧
        ∀ p ∈ (splitOutside b separator n s).2, Passes b separator {} p {} := by
    induction s generalizing n with
    | nil => exact ⟨⟨rfl, hend⟩, by simp [splitOutside]⟩
    | cons c s ih =>
      obtain ⟨hfirst, hothers⟩ := ih _ hend
      rw [splitOutside]
      simp only
      split
      · rename_i hc
        rw [Bool.and_eq_true, beq_iff_eq] at hc
        obtain rfl := Nesting.eq_of_isOutside hc.1
        rw [hc.2, hstep] at hfirst hothers ⊢
        exact ⟨.nil, List.forall_mem_cons.2 ⟨hfirst, hothers⟩⟩
      · rename_i hc
        exact ⟨Passes.cons_iff.2 ⟨by simpa using hc, hfirst⟩, hothers⟩
  exact List.forall_mem_cons.2 (hsplit {} s hend)

/-! ## Marks -/

/-- Whether the search takes notice of a character. -/
def Brackets.isMark (b : Brackets) (separator c : Char) : Bool :=
  c == '"' || c == '\'' || b.opening.contains c || b.closing.contains c || c == separator

theorem Nesting.quote_step (hn : ∀ q ∈ n.quote, q = '"' ∨ q = '\'') (c : Char) :
    ∀ q ∈ (n.step b c).quote, q = '"' ∨ q = '\'' := by
  rw [Nesting.step]
  repeat' split
  all_goals grind

/-- The search depends on the marks alone. -/
theorem Passes.filter_iff (hn : ∀ q ∈ n.quote, q = '"' ∨ q = '\'') :
    Passes b separator n (s.filter (b.isMark separator)) n' ↔ Passes b separator n s n' := by
  induction s generalizing n with
  | nil => rfl
  | cons c s ih =>
    by_cases hc : b.isMark separator c = true
    · rw [List.filter_cons_of_pos hc, cons_iff, cons_iff, ih (Nesting.quote_step hn c)]
    · rw [List.filter_cons_of_neg hc, cons_iff, ih hn]
      simp only [Brackets.isMark, Bool.or_eq_true, beq_iff_eq, not_or] at hc
      have hstep : n.step b c = n := by
        cases hquote : n.quote with
        | none => simp_all [Nesting.step]
        | some q =>
          have hne : c ≠ q := by
            rintro rfl
            rcases hn c hquote with rfl | rfl <;> simp at hc
          simp [Nesting.step, hquote, hne]
      rw [hstep]
      exact ⟨fun h => ⟨fun hsep => hc.2 hsep.2, h⟩, And.right⟩

/-- Texts with the same marks. -/
theorem Passes.congr (h : Passes b separator {} s n') (heq : t.filter (b.isMark separator) = s.filter (b.isMark separator)) :
    Passes b separator {} t n' := by
  rw [← filter_iff (by simp)] at h ⊢
  rwa [heq]

/-- A text without marks is passed, and the search stays outside. -/
theorem Passes.of_no_mark (h : s.any (b.isMark separator) = false) : Passes b separator {} s {} := by
  have hfilter : s.filter (b.isMark separator) = [] := by
    rw [List.any_eq_false] at h
    exact List.filter_eq_nil_iff.2 h
  exact nil.congr hfilter

/-! ## Quotes only -/

/-- No brackets. -/
def quotesOnly : Brackets := ⟨[], []⟩

/-- Quotes open and close whatever the brackets are. -/
theorem Nesting.quote_step_eq (b : Brackets) (n : Nesting) (c : Char) : (n.step b c).quote =
    n.quote.elim (if c = '"' ∨ c = '\'' then some c else none) fun q => if c = q then none else some q := by
  obtain ⟨depth, quote⟩ := n
  cases quote with
  | none =>
    simp only [step, Option.elim_none]
    repeat' split
    all_goals rfl
  | some q => by_cases hc : c = q <;> simp [step, hc]

theorem Nesting.quote_foldl_step (b b' : Brackets) (h : n.quote = n'.quote) (s : List Char) :
    (s.foldl (step b) n).quote = (s.foldl (step b') n').quote := by
  induction s generalizing n n' with
  | nil => exact h
  | cons c s ih => exact ih (by rw [quote_step_eq, quote_step_eq, h])

/-- Places with the same open quote behind a text have the same one before it: a quote changes places with none. -/
theorem Nesting.quote_eq_of_foldl (hn : ∀ q ∈ n.quote, q = '"' ∨ q = '\'') (hn' : ∀ q ∈ n'.quote, q = '"' ∨ q = '\'')
    (h : (s.foldl (step b) n).quote = (s.foldl (step b) n').quote) : n.quote = n'.quote := by
  induction s generalizing n n' with
  | nil => exact h
  | cons c s ih =>
    have hnext := ih (quote_step hn c) (quote_step hn' c) h
    rw [quote_step_eq, quote_step_eq] at hnext
    clear ih h
    cases hquote : n.quote with
    | none =>
      cases hquote' : n'.quote with
      | none => rfl
      | some q =>
        have hq := hn' q hquote'
        simp only [hquote, hquote', Option.elim_none, Option.elim_some] at hnext
        grind
    | some q =>
      have hq := hn q hquote
      cases hquote' : n'.quote with
      | none =>
        simp only [hquote, hquote', Option.elim_none, Option.elim_some] at hnext
        grind
      | some q' =>
        simp only [hquote, hquote', Option.elim_some] at hnext
        grind

namespace Passes

/-- Characters that are neither quotes nor the separator. -/
theorem plain (h : ∀ c ∈ s, c ≠ '"' ∧ c ≠ '\'' ∧ c ≠ separator) : Passes quotesOnly separator {} s {} :=
  neutral rfl fun c hc => ⟨(h c hc).1, (h c hc).2.1, nofun, nofun, fun _ => (h c hc).2.2⟩

/-- Inside a quote only the same quote counts. -/
theorem inside {depth : Nat} {q : Char} (h : q ∉ s) : Passes b separator ⟨depth, some q⟩ s ⟨depth, some q⟩ := by
  induction s with
  | nil => exact nil
  | cons c s ih =>
    rw [List.mem_cons, not_or] at h
    have hstep : Nesting.step b ⟨depth, some q⟩ c = ⟨depth, some q⟩ := by simp [Nesting.step, Ne.symm h.1]
    exact cons_iff.2 ⟨by simp [Nesting.isOutside], by rw [hstep]; exact ih h.2⟩

/-- A quoted text, whatever is in it but for its quote. -/
theorem quoted {depth : Nat} {q : Char} (hq : q = '"' ∨ q = '\'') (hsep : q ≠ separator) (h : q ∉ s) :
    Passes b separator ⟨depth, none⟩ (q :: s ++ [q]) ⟨depth, none⟩ := by
  refine cons_iff.2 ⟨fun hc => hsep hc.2, ?_⟩
  have hopen : Nesting.step b ⟨depth, none⟩ q = ⟨depth, some q⟩ := by simp [Nesting.step, hq]
  have hclose : Passes b separator ⟨depth, some q⟩ [q] ⟨depth, none⟩ :=
    cons_iff.2 ⟨by simp [Nesting.isOutside], by simpa [Nesting.step] using nil⟩
  rw [hopen]
  exact (inside h).append hclose

end Passes

/-- Without brackets, only a quote can surround a place. -/
theorem Passes.cases (h : Passes quotesOnly separator {} s n) :
    n = {} ∨ ∃ q, (q = '"' ∨ q = '\'') ∧ n = { quote := some q } := by
  have hrun (m : Nesting) (hm : m = {} ∨ ∃ q, (q = '"' ∨ q = '\'') ∧ m = { quote := some q }) (s : List Char) :
      s.foldl (Nesting.step quotesOnly) m = {} ∨
        ∃ q, (q = '"' ∨ q = '\'') ∧ s.foldl (Nesting.step quotesOnly) m = { quote := some q } := by
    induction s generalizing m with
    | nil => exact hm
    | cons c s ih =>
      refine ih _ ?_
      rcases hm with rfl | ⟨q, hq, rfl⟩
      · by_cases hc : c = '"' ∨ c = '\'' <;> simp [Nesting.step, quotesOnly, hc]
      · by_cases hc : c = q <;> simp [Nesting.step, hc, hq]
  exact h.foldl_eq ▸ hrun {} (.inl rfl) s

/-- A text that has neither brackets nor the separator outside quotes is passed at depth zero. -/
theorem Passes.of_quotesOnly (hn : n.depth = 0)
    (h : ∀ c, c ∈ b.opening ∨ c ∈ b.closing ∨ c = separator → cutOutside quotesOnly c n s = none) :
    Passes b separator n s (s.foldl (Nesting.step quotesOnly) n) := by
  induction s generalizing n with
  | nil => exact nil
  | cons c s ih =>
    have hpasses (d : Char) (hd : d ∈ b.opening ∨ d ∈ b.closing ∨ d = separator) := cons_iff.1 ⟨h d hd, rfl⟩
    have hbare (hquote : n.quote = none) (hc : c ∈ b.opening ∨ c ∈ b.closing ∨ c = separator) : False :=
      (hpasses c hc).1 ⟨by simp [Nesting.isOutside, hn, hquote], rfl⟩
    have hstep : n.step b c = n.step quotesOnly c := by
      cases hquote : n.quote with
      | none =>
        have hopening : c ∉ b.opening := fun hmem => hbare hquote (.inl hmem)
        have hclosing : c ∉ b.closing := fun hmem => hbare hquote (.inr (.inl hmem))
        simp [Nesting.step, hquote, hopening, hclosing, quotesOnly]
      | some q => simp [Nesting.step, hquote]
    have hdepth : (n.step quotesOnly c).depth = 0 := by
      rw [Nesting.step]
      repeat' split
      all_goals simp_all [quotesOnly]
    refine cons_iff.2 ⟨fun hc => hbare ?_ (.inr (.inr hc.2)), ?_⟩
    · rw [Nesting.eq_of_isOutside hc.1]
    · rw [hstep]
      exact ih hdepth fun d hd => (hpasses d hd).2.none_outside

theorem Passes.eq_outside (h : Passes quotesOnly separator {} s n) (hout : n.isOutside = true) : n = {} := by
  rcases h.cases with rfl | ⟨q, -, rfl⟩
  · rfl
  · cases hout

/-- A text without quotes ends as it begins. -/
theorem Passes.eq_of_plain (h : Passes quotesOnly separator {} (s ++ t) {}) (ht : '"' ∉ t ∧ '\'' ∉ t) :
    Passes quotesOnly separator {} s {} := by
  obtain ⟨n', hs, ht'⟩ := append_iff.1 h
  rcases hs.cases with rfl | ⟨q, hq, rfl⟩
  · exact hs
  · have hnot : q ∉ t := by rcases hq with rfl | rfl <;> simp [ht]
    cases (inside hnot).unique ht'

end EmailMarkup.Text
