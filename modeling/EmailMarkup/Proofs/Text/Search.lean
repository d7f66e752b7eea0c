import EmailMarkup.Text.Blank
import EmailMarkup.Text.Escape
import EmailMarkup.Text.Search
/-!
# Where searches stop

A search stops at the first place that fits. To know where that is in a text put together from pieces,
it is enough to know that no place inside the first piece fits, with the rest of the text behind it
(`cutBy_append`). A substitution works on a text piece by piece if what it does to a piece is the same
whatever follows (`Turns`).
-/
namespace EmailMarkup.Text

/-! ## At the front -/

theorem strip?_append (pat r : List Char) : strip? pat (pat ++ r) = some r :=
  strip?_eq_some_iff.2 rfl

theorem strip?_cons_of_ne {p c : Char} (h : p ≠ c) (ps s : List Char) : strip? (p :: ps) (c :: s) = none := by
  simp [strip?, h]

theorem stripFold?_cons_of_ne {p c : Char} (h : p.toLower ≠ c.toLower) (ps s : List Char) :
    stripFold? (p :: ps) (c :: s) = none := by
  rw [stripFold?, if_neg h]

/-- A text does not reach across a character that it does not hold. -/
theorem strip?_append_cons {pat : List Char} {d : Char} (h : d ∉ pat) (s r : List Char) :
    strip? pat (s ++ d :: r) = (strip? pat s).map (· ++ d :: r) := by
  induction pat generalizing s with
  | nil => rfl
  | cons p ps ih =>
    rw [List.mem_cons, not_or] at h
    cases s with
    | nil => exact strip?_cons_of_ne (Ne.symm h.1) ps r
    | cons c s =>
      by_cases hpc : p = c
      · simpa [strip?, hpc] using ih h.2 s
      · simp [strip?, hpc]

/-- A mark does not reach across a character that it holds in front only. -/
theorem strip?_cons_append_cons {p d : Char} {ps : List Char} (h : d ∉ ps) (c : Char) (s r : List Char) :
    strip? (p :: ps) (c :: s ++ d :: r) = (strip? (p :: ps) (c :: s)).map (· ++ d :: r) := by
  by_cases hpc : p = c
  · simpa [strip?, hpc] using strip?_append_cons h s r
  · simp [strip?, hpc]

/-- With enough characters there, what follows them does not count. -/
theorem strip?_append_right {pat s : List Char} (h : pat.length ≤ s.length) (r : List Char) :
    strip? pat (s ++ r) = (strip? pat s).map (· ++ r) := by
  induction pat generalizing s with
  | nil => rfl
  | cons p pat ih =>
    cases s with
    | nil => simp at h
    | cons c s =>
      rw [List.cons_append, strip?, strip?]
      split
      · exact ih (by simpa using h)
      · rfl

theorem stripFold?_append_right {pat s : List Char} (h : pat.length ≤ s.length) (r : List Char) :
    stripFold? pat (s ++ r) = (stripFold? pat s).map (· ++ r) := by
  induction pat generalizing s with
  | nil => rfl
  | cons p pat ih =>
    cases s with
    | nil => simp at h
    | cons c s =>
      rw [List.cons_append, stripFold?, stripFold?]
      split
      · exact ih (by simpa using h)
      · rfl

/-- A text that begins with `pat` does so before a character that is not in `pat`. -/
theorem length_le_of_stripFold? {pat s r rest : List Char} {c : Char} (hc : ∀ p ∈ pat, p.toLower ≠ c.toLower)
    (h : stripFold? pat (s ++ c :: rest) = some r) : pat.length ≤ s.length := by
  induction pat generalizing s with
  | nil => simp
  | cons p pat ih =>
    obtain ⟨hp, hpat⟩ := List.forall_mem_cons.1 hc
    cases s with
    | nil => simp [stripFold?, hp] at h
    | cons d s =>
      rw [List.cons_append, stripFold?] at h
      split at h
      · simpa using ih hpat h
      · cases h

theorem startsWith_append_of_mem {pat s : List Char} {c : Char} (hs : c ∈ s) (hc : c ∉ pat) (r : List Char) :
    startsWith pat (s ++ r) = startsWith pat s := by
  induction pat generalizing s with
  | nil => rfl
  | cons p pat ih =>
    cases s with
    | nil => simp at hs
    | cons d s =>
      rw [List.mem_cons, not_or] at hc
      simp only [startsWith, List.cons_append, strip?] at ih ⊢
      split
      · rename_i hpd
        have hcd : c ≠ d := hpd ▸ hc.1
        exact ih (by simpa [hcd] using hs) hc.2
      · rfl

theorem isSome_stripFold?_append_of_mem {pat s : List Char} {c : Char} (hs : c ∈ s) (hc : ∀ p ∈ pat, p.toLower ≠ c.toLower)
    (r : List Char) : (stripFold? pat (s ++ r)).isSome = (stripFold? pat s).isSome := by
  induction pat generalizing s with
  | nil => rfl
  | cons p pat ih =>
    obtain ⟨hp, hpat⟩ := List.forall_mem_cons.1 hc
    cases s with
    | nil => simp at hs
    | cons d s =>
      rw [List.cons_append, stripFold?, stripFold?]
      split
      · rename_i hpd
        have hcd : c ≠ d := fun he => hp (he ▸ hpd)
        exact ih (by simpa [hcd] using hs) hpat
      · rfl

theorem takeWhile_append_cons {p : Char → Bool} {xs : List Char} (hx : ∀ x ∈ xs, p x = true) {c : Char}
    (hc : p c = false) (r : List Char) : (xs ++ c :: r).takeWhile p = xs := by
  rw [List.takeWhile_append_of_pos hx, List.takeWhile_cons, hc]
  simp

theorem dropWhile_append_cons {p : Char → Bool} {xs : List Char} (hx : ∀ x ∈ xs, p x = true) {c : Char}
    (hc : p c = false) (r : List Char) : (xs ++ c :: r).dropWhile p = c :: r := by
  rw [List.dropWhile_append_of_pos hx, List.dropWhile_cons, hc]
  simp

/-- A text of characters in `p` and what follows it, which does not begin with one. -/
theorem span_append {p : Char → Bool} {xs r : List Char} (hx : ∀ x ∈ xs, p x = true) (hr : ∀ c ∈ r.head?, p c = false) :
    (xs ++ r).takeWhile p = xs ∧ (xs ++ r).dropWhile p = r := by
  rw [List.takeWhile_append_of_pos hx, List.dropWhile_append_of_pos hx]
  cases r with
  | nil => simp
  | cons c r => simp [hr c rfl]

theorem trimEnd_append {p : Char → Bool} {s t : List Char} (ht : ∀ c ∈ t.reverse, p c = true)
    (hs : ∀ c ∈ s.reverse.head?, p c = false) : trimEnd p (s ++ t) = s := by
  rw [trimEnd, List.reverse_append, (span_append ht hs).2, List.reverse_reverse]

theorem trimEnd_concat {p : Char → Bool} (s : List Char) (c : Char) :
    trimEnd p (s ++ [c]) = if p c then trimEnd p s else s ++ [c] := by
  rw [trimEnd, List.reverse_append, List.reverse_singleton, List.singleton_append, List.dropWhile_cons]
  split
  · rfl
  · simp

theorem trimBoth_append {p : Char → Bool} {s t : List Char} (ht : ∀ c ∈ t, p c = true) (hhead : ∀ c ∈ s.head?, p c = false)
    (hlast : ∀ c ∈ s.getLast?, p c = false) : trimBoth p (t ++ s) = s := by
  rw [trimBoth, trimStart, (span_append ht hhead).2]
  simpa using trimEnd_append (t := []) (by simp) (by simpa using hlast)

/-- Any text is one of characters in `p` and what follows it. -/
theorem exists_span (p : Char → Bool) (s : List Char) :
    ∃ xs r, s = xs ++ r ∧ (∀ x ∈ xs, p x = true) ∧ ∀ c ∈ r.head?, p c = false := by
  induction s with
  | nil => exact ⟨[], [], rfl, by simp, by simp⟩
  | cons c s ih =>
    cases hc : p c with
    | false => exact ⟨[], c :: s, rfl, by simp, by simpa using hc⟩
    | true =>
      obtain ⟨xs, r, rfl, hx, hr⟩ := ih
      exact ⟨c :: xs, r, rfl, by simpa [hc] using hx, hr⟩

/-- Two texts of characters in `p`, each with another character behind it, are one text if they agree so far. -/
theorem eq_of_append_cons_eq {p : Char → Bool} {xs ys r r' : List Char} {c d : Char} (hx : ∀ x ∈ xs, p x = true)
    (hy : ∀ y ∈ ys, p y = true) (hc : p c = false) (hd : p d = false) (h : xs ++ c :: r = ys ++ d :: r') : xs = ys := by
  rw [← takeWhile_append_cons hx hc r, h, takeWhile_append_cons hy hd]

/-- Two places in one text. -/
theorem append_cons_cases {a b s t : List Char} {x y : Char} (h : a ++ x :: s = b ++ y :: t) :
    (∃ u, b = a ++ x :: u ∧ s = u ++ y :: t) ∨ (a = b ∧ x = y ∧ s = t) ∨ ∃ u, a = b ++ y :: u ∧ t = u ++ x :: s := by
  induction a generalizing b with
  | nil =>
    cases b with
    | nil => exact .inr (.inl ⟨rfl, List.cons.inj h⟩)
    | cons d b =>
      obtain ⟨rfl, hs⟩ := List.cons.inj h
      exact .inl ⟨b, rfl, hs⟩
  | cons c a ih =>
    cases b with
    | nil =>
      obtain ⟨rfl, ht⟩ := List.cons.inj h
      exact .inr (.inr ⟨a, rfl, ht.symm⟩)
    | cons d b =>
      obtain ⟨rfl, hrest⟩ := List.cons.inj h
      rcases ih hrest with ⟨u, rfl, hs⟩ | ⟨rfl, hxy⟩ | ⟨u, rfl, ht⟩
      · exact .inl ⟨u, rfl, hs⟩
      · exact .inr (.inl ⟨rfl, hxy⟩)
      · exact .inr (.inr ⟨u, rfl, ht⟩)

theorem endsWith_concat (q c : Char) (s : List Char) : endsWith [q] (s ++ [c]) = (q == c) := by
  by_cases h : q = c <;> simp [endsWith, stripEnd?, strip?, h]

/-! ## Anywhere -/

theorem cutBy_eq_none_iff {strip : List Char → Option (List Char)} {s : List Char} :
    cutBy strip s = none ↔ ∀ t, t <:+ s → strip t = none := by
  induction s with
  | nil => simp [cutBy]
  | cons c s ih =>
    rw [cutBy]
    cases hs : strip (c :: s) with
    | some r =>
      simp only [reduceCtorEq, false_iff]
      intro h
      rw [h _ (List.suffix_refl _)] at hs
      cases hs
    | none =>
      simp only [Option.map_eq_none_iff, ih]
      constructor
      · intro h t ht
        rcases List.suffix_cons_iff.1 ht with rfl | ht
        · exact hs
        · exact h t ht
      · intro h t ht
        exact h t (ht.trans (List.suffix_cons c s))

/-- The first place is behind `s` if it is one and no place inside `s` is. -/
theorem cutBy_append {strip : List Char → Option (List Char)} {s tail r : List Char} (ht : strip tail = some r)
    (h : ∀ c t, c :: t <:+ s → strip (c :: t ++ tail) = none) : cutBy strip (s ++ tail) = some (s, r) := by
  induction s with
  | nil => cases tail <;> simp [cutBy, ht]
  | cons c s ih =>
    have hs := h c s (List.suffix_refl _)
    have ih := ih fun d t hd => h d t (hd.trans (List.suffix_cons c s))
    rw [List.cons_append] at hs ⊢
    rw [cutBy, hs]
    simp [ih]

/-- A search passes over characters at which it cannot stop. -/
theorem cutBy_pass {strip : List Char → Option (List Char)} {xs : List Char} (h : ∀ x ∈ xs, ∀ t, strip (x :: t) = none)
    (t : List Char) : cutBy strip (xs ++ t) = (cutBy strip t).map fun (before, after) => (xs ++ before, after) := by
  induction xs with
  | nil => simp
  | cons x xs ih =>
    obtain ⟨hx, hxs⟩ := List.forall_mem_cons.1 h
    rw [List.cons_append, cutBy, hx, ih hxs]
    simp [Function.comp_def]

theorem cutBy_eq_some_iff {strip : List Char → Option (List Char)} {s before after : List Char} :
    cutBy strip s = some (before, after) ↔ ∃ tail, s = before ++ tail ∧ strip tail = some after ∧
      ∀ c t, c :: t <:+ before → strip (c :: t ++ tail) = none := by
  constructor
  · intro h
    induction s generalizing before with
    | nil =>
      obtain ⟨r, hr, heq⟩ := Option.map_eq_some_iff.1 h
      obtain ⟨rfl, rfl⟩ := Prod.mk.inj heq
      exact ⟨[], rfl, hr, by simp⟩
    | cons c s ih =>
      rw [cutBy] at h
      cases hs : strip (c :: s) with
      | some r =>
        simp only [hs, Option.some.injEq, Prod.mk.injEq] at h
        obtain ⟨rfl, rfl⟩ := h
        exact ⟨c :: s, rfl, hs, by simp⟩
      | none =>
        simp only [hs] at h
        obtain ⟨⟨u, v⟩, hu, heq⟩ := Option.map_eq_some_iff.1 h
        obtain ⟨rfl, rfl⟩ := Prod.mk.inj heq
        obtain ⟨tail, rfl, htail, hnone⟩ := ih hu
        refine ⟨tail, rfl, htail, fun d t hd => ?_⟩
        rcases List.suffix_cons_iff.1 hd with heq | hd
        · rw [heq]
          exact hs
        · exact hnone d t hd
  · rintro ⟨tail, rfl, htail, hnone⟩
    exact cutBy_append htail hnone

/-- The first place stays the first whatever stands behind enough characters from it on. -/
theorem cutBy_append_right {strip : List Char → Option (List Char)} {k : Nat}
    (hstrip : ∀ s r, k ≤ s.length → strip (s ++ r) = (strip s).map (· ++ r)) {before mid rest after : List Char}
    (hmid : k ≤ mid.length) (h : cutBy strip (before ++ (mid ++ rest)) = some (before, after)) (r : List Char) :
    ∃ m, strip mid = some m ∧ cutBy strip (before ++ (mid ++ r)) = some (before, m ++ r) := by
  obtain ⟨tail, heq, htail, hnone⟩ := cutBy_eq_some_iff.1 h
  obtain rfl := List.append_cancel_left heq
  rw [hstrip mid rest hmid] at htail
  obtain ⟨m, hm, -⟩ := Option.map_eq_some_iff.1 htail
  refine ⟨m, hm, cutBy_append (by rw [hstrip mid r hmid, hm]; rfl) fun c t ht => ?_⟩
  have hlong : k ≤ (c :: t ++ mid).length := by
    rw [List.length_append]
    omega
  have hnone := hnone c t ht
  rw [← List.append_assoc, hstrip _ _ hlong, Option.map_eq_none_iff] at hnone ⊢
  exact hnone

theorem cut_append_right {pat s before after : List Char} (h : cut pat s = some (before, after)) (r : List Char) :
    cut pat (before ++ (pat ++ r)) = some (before, r) := by
  have hs := cut_eq_append h
  rw [hs, List.append_assoc] at h
  obtain ⟨m, hm, hcut⟩ := cutBy_append_right (fun _ r hk => strip?_append_right hk r) (Nat.le_refl pat.length) h r
  have hpat : strip? pat pat = some [] := by simpa using strip?_append pat []
  obtain rfl := Option.some.inj (hm.symm.trans hpat)
  exact hcut

/-- What follows a text does not change where it is cut. -/
theorem cut_append {pat s before after : List Char} (h : cut pat s = some (before, after)) (r : List Char) :
    cut pat (s ++ r) = some (before, after ++ r) := by
  have hcut := cut_append_right h (after ++ r)
  rwa [cut_eq_append h, List.append_assoc, List.append_assoc]

theorem cut_char {q : Char} {s : List Char} (h : q ∉ s) (rest : List Char) : cut [q] (s ++ q :: rest) = some (s, rest) := by
  refine cutBy_append (by simp [strip?]) fun c t hc => ?_
  have hne : q ≠ c := fun he => h (hc.subset (by simp [he]))
  exact strip?_cons_of_ne hne _ _

/-- A text in which a character stands once has one place where it is found. -/
theorem eq_of_split {c : Char} {a b a' b' : List Char} (ha : c ∉ a) (hb : c ∉ b) (h : a ++ c :: b = a' ++ c :: b') :
    a = a' ∧ b = b' := by
  have hcount := congrArg (List.count c) h
  simp only [List.count_append, List.count_cons_self, List.count_eq_zero.2 ha, List.count_eq_zero.2 hb] at hcount
  have ha' : c ∉ a' := List.count_eq_zero.1 (by omega)
  have hcut := (cut_char ha b).symm.trans ((congrArg (cut [c]) h).trans (cut_char ha' b'))
  exact Prod.mk.inj (Option.some.inj hcut)

theorem not_mem_of_cut {q : Char} {s before after : List Char} (h : cut [q] s = some (before, after)) :
    s = before ++ q :: after ∧ q ∉ before := by
  refine ⟨by simpa using cut_eq_append h, fun hq => ?_⟩
  obtain ⟨tail, -, -, hnone⟩ := cutBy_eq_some_iff.1 h
  obtain ⟨front, back, rfl⟩ := List.append_of_mem hq
  have hfound := hnone q back (List.suffix_append _ _)
  simp [strip?] at hfound

theorem cut_char_eq_none {q : Char} {s : List Char} (h : q ∉ s) : cut [q] s = none := by
  refine cutBy_eq_none_iff.2 fun t ht => ?_
  cases t with
  | nil => rfl
  | cons c t =>
    have hne : q ≠ c := fun he => h (ht.subset (by simp [he]))
    exact strip?_cons_of_ne hne _ _

theorem strip?_eq_none_of_occurs {pat s t : List Char} (h : occurs pat s = false) (ht : t <:+ s) : strip? pat t = none := by
  have hnone : cut pat s = none := by simpa [occurs] using h
  exact cutBy_eq_none_iff.1 hnone t ht

theorem occurs_iff {pat s : List Char} : occurs pat s = true ↔ pat <:+: s := by
  constructor
  · intro h
    obtain ⟨⟨before, after⟩, hcut⟩ := Option.isSome_iff_exists.1 h
    exact ⟨before, after, (cut_eq_append hcut).symm⟩
  · rintro ⟨before, after, rfl⟩
    rw [← Bool.not_eq_false]
    intro h
    have hnone : strip? pat (pat ++ after) = none := strip?_eq_none_of_occurs h (by simp)
    rw [strip?_append] at hnone
    cases hnone

theorem occurs_of_not_mem {pat s : List Char} {c : Char} (hc : c ∈ pat) (h : c ∉ s) : occurs pat s = false := by
  cases hcut : cut pat s with
  | none => simp [occurs, hcut]
  | some p => exact absurd (by simp [cut_eq_append hcut, hc]) h

theorem occurs_cons (pat : List Char) (c : Char) (s : List Char) :
    occurs pat (c :: s) = (startsWith pat (c :: s) || occurs pat s) := by
  unfold occurs startsWith cut
  rw [cutBy]
  cases strip? pat (c :: s) <;> simp

/-- There is none before the first occurrence. -/
theorem occurs_before_cut {pat s before after : List Char} (hpat : pat ≠ []) (h : cut pat s = some (before, after)) :
    occurs pat before = false := by
  rw [occurs, Option.isSome_eq_false_iff, Option.isNone_iff_eq_none, Option.eq_none_iff_forall_ne_some]
  rintro ⟨front, back⟩ hfront
  have hfirst := cut_append hfront (pat ++ after)
  have hs := cut_eq_append h
  rw [List.append_assoc] at hs
  rw [← hs, h] at hfirst
  obtain ⟨rfl, -⟩ := Prod.mk.inj (Option.some.inj hfirst)
  have hlength := cut_length hfront
  have hpos := List.length_pos_iff.2 hpat
  omega

/-- An end mark of the form `aab` cannot begin inside a text without end marks and end behind it. -/
theorem cut_mark {a b : Char} (hab : a ≠ b) {s : List Char} (h : occurs [a, a, b] s = false) (rest : List Char) :
    cut [a, a, b] (s ++ ([a, a, b] ++ rest)) = some (s, rest) := by
  refine cutBy_append (strip?_append _ _) fun c t ht => ?_
  have hnone := strip?_eq_none_of_occurs h ht
  match t with
  | [] => simp [strip?, Ne.symm hab]
  | [d] => simp [strip?, Ne.symm hab]
  | d :: e :: t => simpa [strip?] using hnone

/-- An end mark of the form `aab` is in none of two texts and does not stand across the place between them. -/
theorem occurs_mark_append {a b : Char} {s t : List Char} (hs : occurs [a, a, b] s = false) (ht : occurs [a, a, b] t = false)
    (h : s.getLast? ≠ some a ∨ (t.head? ≠ some a ∧ t.head? ≠ some b)) : occurs [a, a, b] (s ++ t) = false := by
  induction s with
  | nil => exact ht
  | cons c s ih =>
    rw [occurs_cons, Bool.or_eq_false_iff] at hs
    rw [List.cons_append, occurs_cons, Bool.or_eq_false_iff]
    match s with
    | [] =>
      refine ⟨?_, ht⟩
      rcases h with hlast | hhead
      · have hc : a ≠ c := fun he => hlast (by simp [he])
        simp [startsWith, strip?, hc]
      · cases t with
        | nil => simp [startsWith, strip?]
        | cons e t =>
          have he : a ≠ e := fun he => hhead.1 (by simp [he])
          simp [startsWith, strip?, he]
    | [d] =>
      refine ⟨?_, ih hs.2 (by simpa using h)⟩
      rcases h with hlast | hhead
      · have hd : a ≠ d := fun he => hlast (by simp [he])
        simp [startsWith, strip?, hd]
      · cases t with
        | nil => simp [startsWith, strip?]
        | cons e t =>
          have he : b ≠ e := fun he => hhead.2 (by simp [he])
          simp [startsWith, strip?, he]
    | d :: e :: s => exact ⟨by simpa [startsWith, strip?] using hs.1, ih hs.2 (by simpa using h)⟩

/-! ## Substitution -/

section

variable {step : List Char → Option (List Char × Nat)}

theorem substituteFrom_eq (k : Nat) (s : List Char) : substituteFrom step k s = substitute step (s.drop k) := by
  induction k generalizing s with
  | zero => rfl
  | succ k ih =>
    cases s with
    | nil => rfl
    | cons c s => exact ih s

theorem substitute_cons_of_none {c : Char} {s : List Char} (h : step (c :: s) = none) :
    substitute step (c :: s) = c :: substitute step s := by
  simp [substitute, substituteFrom, h]

theorem substitute_append_of_some {piece s out : List Char} (hne : piece ≠ [])
    (h : step (piece ++ s) = some (out, piece.length)) : substitute step (piece ++ s) = out ++ substitute step s := by
  cases piece with
  | nil => exact absurd rfl hne
  | cons c piece =>
    have hstep : substitute step (c :: (piece ++ s)) = out ++ substituteFrom step piece.length (piece ++ s) := by
      rw [List.cons_append] at h
      simp [substitute, substituteFrom, h]
    rw [List.cons_append, hstep, substituteFrom_eq, List.drop_left]

/-- Nothing changes if nothing is taken anywhere. -/
theorem substitute_eq_self {s : List Char} (h : ∀ c t, c :: t <:+ s → step (c :: t) = none) : substitute step s = s := by
  induction s with
  | nil => rfl
  | cons c s ih =>
    rw [substitute_cons_of_none (h c s (List.suffix_refl _)), ih fun d t ht => h d t (ht.trans (List.suffix_cons c s))]

/-- What a step takes is a part of the text, and not empty. -/
def TakesPiece (step : List Char → Option (List Char × Nat)) : Prop :=
  ∀ t p, step t = some p → ∃ piece rest, t = piece ++ rest ∧ piece ≠ [] ∧ p.2 = piece.length

theorem TakesPiece.le (h : TakesPiece step) {t : List Char} {p : List Char × Nat} (htake : step t = some p) :
    p.2 ≤ t.length := by
  obtain ⟨piece, rest, rfl, -, hlength⟩ := h _ _ htake
  rw [hlength, List.length_append]
  omega

/-- If everything put in begins with `m`, the result begins as the text did, up to the first `m`. -/
theorem substitute_eq_append {m : Char} (htakes : TakesPiece step)
    (hout : ∀ piece rest out, step (piece ++ rest) = some (out, piece.length) → out.head? = some m) {s u t : List Char}
    (hu : m ∉ u) (h : substitute step s = u ++ t) : ∃ s', s = u ++ s' ∧ substitute step s' = t := by
  induction u generalizing s with
  | nil => exact ⟨s, rfl, h⟩
  | cons c u ih =>
    rw [List.mem_cons, not_or] at hu
    cases s with
    | nil => cases h
    | cons d s =>
      cases htake : step (d :: s) with
      | none =>
        rw [substitute_cons_of_none htake] at h
        obtain ⟨rfl, htail⟩ := List.cons.inj h
        obtain ⟨s', rfl, hrest⟩ := ih hu.2 htail
        exact ⟨s', rfl, hrest⟩
      | some p =>
        obtain ⟨piece, rest, heq, hne, hlength⟩ := htakes _ _ htake
        have hstep : step (piece ++ rest) = some (p.1, piece.length) := by rw [← heq, htake, ← hlength]
        rw [heq, substitute_append_of_some hne hstep] at h
        obtain ⟨r, hr⟩ := List.head?_eq_some_iff.1 (hout _ _ _ hstep)
        rw [hr] at h
        exact absurd (List.cons.inj h).1 hu.1

/-- Induction along a substitution, which copies a character or takes a piece. -/
theorem substitute_induction {motive : List Char → List Char → Prop} (htakes : TakesPiece step) (nil : motive [] [])
    (copy : ∀ c s, step (c :: s) = none → motive s (substitute step s) → motive (c :: s) (c :: substitute step s))
    (take : ∀ piece rest out, piece ≠ [] → step (piece ++ rest) = some (out, piece.length) →
      motive rest (substitute step rest) → motive (piece ++ rest) (out ++ substitute step rest)) (s : List Char) :
    motive s (substitute step s) := by
  induction hn : s.length using Nat.strongRecOn generalizing s with
  | ind n ih =>
    cases s with
    | nil => exact nil
    | cons c s =>
      cases htake : step (c :: s) with
      | none =>
        rw [substitute_cons_of_none htake]
        exact copy c s htake (ih s.length (by simp [← hn]) s rfl)
      | some p =>
        obtain ⟨piece, rest, heq, hne, hlength⟩ := htakes _ _ htake
        have hshorter : rest.length < n := by
          have := List.length_pos_iff.2 hne
          rw [← hn, heq, List.length_append]
          omega
        have hstep : step (piece ++ rest) = some (p.1, piece.length) := by rw [← heq, htake, ← hlength]
        rw [heq, substitute_append_of_some hne hstep]
        exact take piece rest p.1 hne hstep (ih rest.length hshorter rest rfl)

/-- Two texts are treated each for itself if what the step takes in the first does not depend on the second. -/
theorem substitute_append {s t : List Char} (htakes : TakesPiece step)
    (h : ∀ u, u ≠ [] → u <:+ s → step (u ++ t) = step u) :
    substitute step (s ++ t) = substitute step s ++ substitute step t := by
  induction s using substitute_induction htakes with
  | nil => rfl
  | copy c s hnone ih =>
    have hnone' : step (c :: (s ++ t)) = none := by
      rw [← hnone]
      exact h (c :: s) (List.cons_ne_nil c s) (List.suffix_refl _)
    rw [List.cons_append, substitute_cons_of_none hnone', List.cons_append,
      ih fun u hu hs => h u hu (hs.trans (List.suffix_cons c s))]
  | take piece rest out hne hstep ih =>
    have hstep' : step (piece ++ (rest ++ t)) = some (out, piece.length) := by
      rw [← hstep, ← List.append_assoc]
      exact h (piece ++ rest) (List.append_ne_nil_of_left_ne_nil hne rest) (List.suffix_refl _)
    rw [List.append_assoc, substitute_append_of_some hne hstep', List.append_assoc,
      ih fun u hu hs => h u hu (hs.trans (List.suffix_append piece rest))]

/-- Whatever follows, the substitution turns `piece` into `out` and goes on behind it. -/
def Turns (step : List Char → Option (List Char × Nat)) (piece out : List Char) : Prop :=
  ∀ rest, substitute step (piece ++ rest) = out ++ substitute step rest

namespace Turns

variable {piece piece' out out' : List Char}

theorem nil : Turns step [] [] := fun _ => rfl

theorem append (h : Turns step piece out) (h' : Turns step piece' out') : Turns step (piece ++ piece') (out ++ out') := by
  intro rest
  rw [List.append_assoc, h, h', List.append_assoc]

/-- A character that is not taken. -/
theorem cons {c : Char} (hc : ∀ rest, step (c :: (piece ++ rest)) = none) (h : Turns step piece out) :
    Turns step (c :: piece) (c :: out) := by
  intro rest
  rw [List.cons_append, substitute_cons_of_none (hc rest), h, List.cons_append]

/-- Characters at which nothing is ever taken. -/
theorem copy (h : ∀ c ∈ piece, ∀ rest, step (c :: rest) = none) : Turns step piece piece := by
  induction piece with
  | nil => exact nil
  | cons c piece ih =>
    exact cons (fun rest => h c (by simp) _) (ih fun d hd => h d (by simp [hd]))

/-- A piece that is taken as a whole. -/
theorem taken (hne : piece ≠ []) (h : ∀ rest, step (piece ++ rest) = some (out, piece.length)) : Turns step piece out :=
  fun rest => substitute_append_of_some hne (h rest)

theorem substitute_eq (h : Turns step piece out) : substitute step piece = out := by
  have h := h []
  rwa [List.append_nil, show substitute step [] = [] from rfl, List.append_nil] at h

end Turns

end

theorem takesPiece_replaceAll {pat : List Char} (hpat : pat ≠ []) (new : List Char) :
    TakesPiece fun s => if startsWith pat s then some (new, pat.length) else none := by
  intro t p hp
  obtain ⟨hstart, hp⟩ := Option.ite_none_right_eq_some.1 hp
  obtain ⟨rest, hrest⟩ := Option.isSome_iff_exists.1 hstart
  obtain rfl := Option.some.inj hp
  exact ⟨pat, rest, strip?_eq_some_iff.1 hrest, hpat, rfl⟩

theorem replaceAll_append {pat : List Char} (hpat : pat ≠ []) (new s : List Char) :
    replaceAll pat new (pat ++ s) = new ++ replaceAll pat new s :=
  substitute_append_of_some hpat (by simp [startsWith, strip?_append])

theorem replaceAll_cons {pat : List Char} {c : Char} {s : List Char} (h : startsWith pat (c :: s) = false) (new : List Char) :
    replaceAll pat new (c :: s) = c :: replaceAll pat new s :=
  substitute_cons_of_none (by simp [h])

theorem replaceAll_char (q : Char) (new s : List Char) :
    replaceAll [q] new s = s.flatMap fun c => if c = q then new else [c] := by
  induction s with
  | nil => rfl
  | cons c s ih =>
    rw [List.flatMap_cons, ← ih]
    by_cases hc : c = q
    · rw [if_pos hc, hc]
      exact replaceAll_append (by simp) new s
    · rw [if_neg hc]
      exact replaceAll_cons (by simp [startsWith, strip?, Ne.symm hc]) new

theorem replaceAll_of_not_occurs {pat s : List Char} (h : occurs pat s = false) (new : List Char) :
    replaceAll pat new s = s := by
  refine substitute_eq_self fun c t ht => ?_
  simp [startsWith, strip?_eq_none_of_occurs h ht]

/-- A replacement by less makes a text shorter where it finds something. -/
theorem length_replaceAll {pat new : List Char} (hnew : new.length < pat.length) (s : List Char) :
    (replaceAll pat new s).length ≤ s.length ∧ (occurs pat s = true → (replaceAll pat new s).length < s.length) := by
  have hpat : pat ≠ [] := fun h => by simp [h] at hnew
  induction hn : s.length using Nat.strongRecOn generalizing s with
  | ind n ih =>
    cases s with
    | nil =>
      obtain ⟨p, pat, rfl⟩ := List.exists_cons_of_ne_nil hpat
      exact ⟨Nat.zero_le _, fun h => by cases h⟩
    | cons c s =>
      cases hstart : strip? pat (c :: s) with
      | some r =>
        have hs := strip?_eq_some_iff.1 hstart
        have hlength := strip?_length hstart
        obtain ⟨hle, -⟩ := ih r.length (by omega) r rfl
        rw [hs, replaceAll_append hpat, List.length_append]
        omega
      | none =>
        have hfirst : startsWith pat (c :: s) = false := by rw [startsWith, hstart]; rfl
        rw [List.length_cons] at hn
        obtain ⟨hle, hlt⟩ := ih s.length (by omega) s rfl
        rw [replaceAll_cons hfirst, List.length_cons, occurs_cons, hfirst, Bool.false_or]
        refine ⟨by omega, fun h => ?_⟩
        have := hlt h
        omega

theorem not_mem_replaceAll {pat new s : List Char} {c : Char} (hnew : c ∉ new) (hs : c ∉ s) : c ∉ replaceAll pat new s := by
  have hfrom (k : Nat) : c ∉ substituteFrom (fun s => if startsWith pat s then some (new, pat.length) else none) k s := by
    induction s generalizing k with
    | nil => simp [substituteFrom]
    | cons d s ih =>
      rw [List.mem_cons, not_or] at hs
      cases k with
      | succ k => exact ih hs.2 k
      | zero =>
        rw [substituteFrom]
        split
        · rename_i output taken hstep
          have houtput : output = new := by
            split at hstep
            · exact (congrArg Prod.fst (Option.some.inj hstep)).symm
            · cases hstep
          rw [houtput, List.mem_append, not_or]
          exact ⟨hnew, ih hs.2 _⟩
        · rw [List.mem_cons, not_or]
          exact ⟨hs.1, ih hs.2 0⟩
  exact hfrom 0

/-! ## Texts that stand apart -/

theorem startsWith_eq_true_iff {pat s : List Char} : startsWith pat s = true ↔ pat <+: s := by
  rw [startsWith, Option.isSome_iff_exists]
  constructor
  · rintro ⟨r, hr⟩
    exact ⟨r, (strip?_eq_some_iff.1 hr).symm⟩
  · rintro ⟨r, hr⟩
    exact ⟨r, strip?_eq_some_iff.2 hr.symm⟩

theorem endsWith_eq_true_iff {pat s : List Char} : endsWith pat s = true ↔ pat <:+ s := by
  rw [endsWith, stripEnd?, Option.isSome_map, ← startsWith, startsWith_eq_true_iff, List.reverse_prefix]

/-- What a replacement takes is an occurrence. -/
theorem replaceStep_eq_some {pat new piece rest out : List Char}
    (h : (if startsWith pat (piece ++ rest) then some (new, pat.length) else none) = some (out, piece.length)) :
    piece = pat ∧ out = new := by
  obtain ⟨hstart, heq⟩ := Option.ite_none_right_eq_some.1 h
  obtain ⟨rfl, hlength⟩ := Prod.mk.inj (Option.some.inj heq)
  obtain ⟨r, hr⟩ := startsWith_eq_true_iff.1 hstart
  exact ⟨(List.append_inj hr hlength).1.symm, rfl⟩

/-- No occurrence of `pat` begins in `s` and goes on in `t`. -/
def Apart (pat s t : List Char) : Prop :=
  ∀ u, u ≠ [] → u <:+ s → startsWith pat (u ++ t) = startsWith pat u

namespace Apart

variable {pat s t : List Char}

theorem of_split (h : ∀ u v, u ≠ [] → v ≠ [] → u <:+ s → v <+: t → pat ≠ u ++ v) : Apart pat s t := by
  intro u hu hs
  rw [Bool.eq_iff_iff, startsWith_eq_true_iff, startsWith_eq_true_iff]
  constructor
  · rintro ⟨r, hr⟩
    rcases List.append_eq_append_iff.1 hr with ⟨v, rfl, -⟩ | ⟨v, hpat, ht⟩
    · exact List.prefix_append pat v
    · by_cases hv : v = []
      · exact ⟨[], by simp [hpat, hv]⟩
      · exact absurd hpat (h u v hu hv hs ⟨r, ht.symm⟩)
  · exact fun hpat => hpat.trans (List.prefix_append u t)

/-- An occurrence that goes on has the last character of `s`, and not as its own last one. -/
theorem of_getLast? {q : Char} (hs : s.getLast? = some q) (hq : q ∉ pat.dropLast) : Apart pat s t := by
  refine of_split fun u v hu hv hsuffix _ hpat => hq ?_
  rw [hpat, List.dropLast_append_of_ne_nil hv]
  have hlast : u.getLast? = some q := by
    obtain ⟨r, rfl⟩ := hsuffix
    rw [List.getLast?_append, List.getLast?_eq_some_getLast hu, Option.some_or] at hs
    rwa [List.getLast?_eq_some_getLast hu]
  exact List.mem_append_left _ (List.mem_of_getLast? hlast)

/-- An occurrence that goes on has the first character of `t`. -/
theorem of_head? {q : Char} (ht : t.head? = some q) (hq : q ∉ pat) : Apart pat s t := by
  refine of_split fun u v _ hv _ hprefix hpat => hq ?_
  obtain ⟨c, v, rfl⟩ := List.exists_cons_of_ne_nil hv
  obtain ⟨r, rfl⟩ := hprefix
  obtain rfl : c = q := by simpa using ht
  simp [hpat]

/-- An occurrence that goes on has the first character of `t`, and not as its own first one. -/
theorem of_tail {q : Char} (ht : t.head? = some q) (hq : q ∉ pat.tail) : Apart pat s t := by
  refine of_split fun u v hu hv _ hprefix hpat => hq ?_
  obtain ⟨c, v, rfl⟩ := List.exists_cons_of_ne_nil hv
  obtain ⟨d, u, rfl⟩ := List.exists_cons_of_ne_nil hu
  obtain ⟨r, rfl⟩ := hprefix
  obtain rfl : c = q := by simpa using ht
  simp [hpat]

/-- An occurrence that goes on begins with a character of `s`. -/
theorem of_not_mem {q : Char} (hs : q ∉ s) : Apart (q :: pat) s t := by
  refine of_split fun u v hu _ hsuffix _ hpat => hs ?_
  obtain ⟨c, u, rfl⟩ := List.exists_cons_of_ne_nil hu
  obtain rfl : q = c := (List.cons.inj hpat).1
  exact hsuffix.subset (by simp)

theorem of_suffix {u : List Char} (h : Apart pat s t) (hu : u <:+ s) : Apart pat u t :=
  fun v hv hsuffix => h v hv (hsuffix.trans hu)

theorem cut_eq (h : Apart pat s t) (hs : occurs pat s = false) :
    cut pat (s ++ t) = (cut pat t).map fun (before, after) => (s ++ before, after) := by
  induction s with
  | nil => simp
  | cons c s ih =>
    have hfirst : strip? pat (c :: (s ++ t)) = none := by
      have hstart := h (c :: s) (List.cons_ne_nil c s) (List.suffix_refl _)
      rw [startsWith, startsWith, strip?_eq_none_of_occurs hs (List.suffix_refl _)] at hstart
      simpa using hstart
    have hrest := ih (h.of_suffix (List.suffix_cons c s)) (by rw [occurs_cons, Bool.or_eq_false_iff] at hs; exact hs.2)
    rw [cut] at hrest
    rw [List.cons_append, cut, cutBy, hfirst]
    simp only [hrest, Option.map_map]
    rfl

/-- An occurrence is behind `s` if there is none in `s`. -/
theorem eq_append_of_eq {before after : List Char} (h : Apart pat s t) (hs : occurs pat s = false)
    (heq : s ++ t = before ++ (pat ++ after)) : ∃ u, before = s ++ u ∧ t = u ++ (pat ++ after) := by
  rcases List.append_eq_append_iff.1 heq with ⟨u, hbefore, ht⟩ | ⟨u, hu, htail⟩
  · exact ⟨u, hbefore, ht⟩
  · by_cases hne : u = []
    · subst hne
      exact ⟨[], by simpa using hu.symm, htail.symm⟩
    · have hsuffix : u <:+ s := ⟨before, hu.symm⟩
      have hstart := h u hne hsuffix
      rw [← htail, startsWith, startsWith, strip?_append, strip?_eq_none_of_occurs hs hsuffix] at hstart
      cases hstart

/-- Texts that stand apart are treated each for itself. -/
theorem replaceAll_eq (hpat : pat ≠ []) (h : Apart pat s t) (new : List Char) :
    replaceAll pat new (s ++ t) = replaceAll pat new s ++ replaceAll pat new t :=
  substitute_append (takesPiece_replaceAll hpat new) fun u hu hs => by rw [h u hu hs]

end Apart

/-! ## Escaping -/

theorem mem_attributeChar {c d : Char} (h : d ∈ attributeChar c) : d ≠ '<' ∧ d ≠ '>' ∧ d ≠ '"' := by
  unfold attributeChar at h
  split at h
  all_goals simp only [List.mem_cons, List.not_mem_nil, or_false] at h
  all_goals grind

end EmailMarkup.Text
