import EmailMarkup.Head.Reader
import EmailMarkup.Proofs.Text.Blank
/-!
# Styles that end their element

A style is written into a style element, so what would end the element is taken out of it, in one pass from left to
right. What is left can end the element only if the content had a style end that whole style ends interrupt
(`closesStyle_withoutStyleEnd`): taking these out joins its parts.
-/
namespace EmailMarkup.Head

open EmailMarkup.Text

/-- The text ends the style element that it is written into. The case of letters does not count. -/
def ClosesStyle (s : List Char) : Prop := styleEnd <:+: s.map Char.toLower

instance : DecidablePred ClosesStyle := fun s => inferInstanceAs (Decidable (styleEnd <:+: s.map Char.toLower))

/-- A text with style ends in it, which is the first text without them, but for the case of letters. -/
inductive Woven : List Char → List Char → Prop
  | nil : Woven [] []
  | char {c : Char} {pat s : List Char} : Woven pat s → Woven (c.toLower :: pat) (c :: s)
  | mark {m pat s : List Char} : m.map Char.toLower = styleEnd → Woven pat s → Woven pat (m ++ s)

/-- Somewhere in the text there is a style end that whole style ends interrupt. -/
def Interrupted (s : List Char) : Prop :=
  ∃ w, w <:+: s ∧ Woven styleEnd w ∧ ¬styleEnd <+: w.map Char.toLower

theorem Interrupted.mono {s t : List Char} (h : Interrupted s) (hs : s <:+: t) : Interrupted t := by
  obtain ⟨w, hw, hwoven⟩ := h
  exact ⟨w, hw.trans hs, hwoven⟩

theorem Woven.length_le {pat w : List Char} (h : Woven pat w) : pat.length ≤ w.length := by
  induction h with
  | nil => exact Nat.le_refl _
  | char _ ih => simpa using ih
  | mark _ _ ih =>
    rw [List.length_append]
    omega

/-! ## One pass -/

/-- A style end in front. -/
def takeEnd? (s : List Char) : Option (List Char × Nat) :=
  (stripFold? styleEnd s).map fun _ => ([], styleEnd.length)

theorem isSome_stripFold?_iff {pat s : List Char} (hpat : pat.map Char.toLower = pat) :
    (stripFold? pat s).isSome = startsWith pat (s.map Char.toLower) := by
  induction pat generalizing s with
  | nil => rfl
  | cons p pat ih =>
    obtain ⟨hp, hpat⟩ := List.cons.inj hpat
    cases s with
    | nil => rfl
    | cons c s =>
      rw [stripFold?, List.map_cons, startsWith, strip?, hp]
      split
      · exact ih hpat
      · rfl

theorem takeEnd?_eq (s : List Char) :
    takeEnd? s = if startsWith styleEnd (s.map Char.toLower) then some ([], styleEnd.length) else none := by
  rw [← isSome_stripFold?_iff (by decide), takeEnd?]
  cases stripFold? styleEnd s <;> rfl

theorem startsWith_lower_iff {s : List Char} : startsWith styleEnd (s.map Char.toLower) = true ↔
    ∃ m rest, s = m ++ rest ∧ m.map Char.toLower = styleEnd := by
  rw [startsWith_eq_true_iff]
  constructor
  · rintro ⟨r, hr⟩
    obtain ⟨m, rest, rfl, hm, -⟩ := List.map_eq_append_iff.1 hr.symm
    exact ⟨m, rest, rfl, hm⟩
  · rintro ⟨m, rest, rfl, hm⟩
    exact ⟨rest.map Char.toLower, by rw [List.map_append, hm]⟩

/-- What is taken out is a style end. -/
theorem eq_of_takeEnd? {piece rest out : List Char} (h : takeEnd? (piece ++ rest) = some (out, piece.length)) :
    out = [] ∧ piece.map Char.toLower = styleEnd := by
  rw [takeEnd?_eq] at h
  obtain ⟨hstart, heq⟩ := Option.ite_none_right_eq_some.1 h
  obtain ⟨rfl, hlength⟩ := Prod.mk.inj (Option.some.inj heq)
  obtain ⟨m, rest', hsplit, hm⟩ := startsWith_lower_iff.1 hstart
  have hsame : piece.length = m.length := by rw [← hlength, ← hm, List.length_map]
  rw [(List.append_inj hsplit hsame).1]
  exact ⟨rfl, hm⟩

theorem takesPiece_takeEnd? : TakesPiece takeEnd? := by
  intro t p hp
  rw [takeEnd?_eq] at hp
  obtain ⟨hstart, heq⟩ := Option.ite_none_right_eq_some.1 hp
  obtain rfl := Option.some.inj heq
  obtain ⟨m, rest, rfl, hm⟩ := startsWith_lower_iff.1 hstart
  refine ⟨m, rest, rfl, ?_, by rw [← hm, List.length_map]⟩
  rintro rfl
  cases hm

theorem withoutStyleEnd_mark {m : List Char} (hm : m.map Char.toLower = styleEnd) (s : List Char) :
    withoutStyleEnd (m ++ s) = withoutStyleEnd s := by
  have hlength : styleEnd.length = m.length := by rw [← hm, List.length_map]
  have htake : takeEnd? (m ++ s) = some ([], m.length) := by
    rw [takeEnd?_eq, if_pos (startsWith_lower_iff.2 ⟨m, s, rfl, hm⟩), hlength]
  have hne : m ≠ [] := by
    rintro rfl
    cases hm
  exact substitute_append_of_some hne htake

theorem withoutStyleEnd_cons {c : Char} {s : List Char} (h : ¬styleEnd <+: (c :: s).map Char.toLower) :
    withoutStyleEnd (c :: s) = c :: withoutStyleEnd s := by
  have hnone : takeEnd? (c :: s) = none := by rw [takeEnd?_eq, if_neg (mt startsWith_eq_true_iff.1 h)]
  exact substitute_cons_of_none hnone

/-- Texts that stand apart are treated each for itself. -/
theorem withoutStyleEnd_append {s t : List Char} (h : Apart styleEnd (s.map Char.toLower) (t.map Char.toLower)) :
    withoutStyleEnd (s ++ t) = withoutStyleEnd s ++ withoutStyleEnd t := by
  have hstep : ∀ u, u ≠ [] → u <:+ s → takeEnd? (u ++ t) = takeEnd? u := by
    intro u hu hsuffix
    rw [takeEnd?_eq, takeEnd?_eq, List.map_append, h (u.map Char.toLower) (by simpa using hu) (hsuffix.map _)]
  exact substitute_append takesPiece_takeEnd? hstep

/-- Induction along a pass. -/
theorem withoutStyleEnd_induction {motive : List Char → List Char → Prop} (nil : motive [] [])
    (copy : ∀ c s, ¬styleEnd <+: (c :: s).map Char.toLower → motive s (withoutStyleEnd s) →
      motive (c :: s) (c :: withoutStyleEnd s))
    (take : ∀ m s, m.map Char.toLower = styleEnd → motive s (withoutStyleEnd s) → motive (m ++ s) (withoutStyleEnd s))
    (s : List Char) : motive s (withoutStyleEnd s) := by
  refine substitute_induction takesPiece_takeEnd? nil (fun c s hnone ih => copy c s ?_ ih)
    (fun m s out _ htake ih => ?_) s
  · intro hstart
    rw [takeEnd?_eq, if_pos (startsWith_eq_true_iff.2 hstart)] at hnone
    cases hnone
  · obtain ⟨rfl, hm⟩ := eq_of_takeEnd? htake
    exact take m s hm ih

/-! ## What a pass leaves -/

/-- What the result begins with is woven into the beginning of the text. -/
theorem exists_woven {pat s : List Char} (h : pat <+: (withoutStyleEnd s).map Char.toLower) :
    ∃ w, w <+: s ∧ Woven pat w := by
  induction s using withoutStyleEnd_induction generalizing pat with
  | nil =>
    obtain rfl := List.prefix_nil.1 h
    exact ⟨[], List.prefix_rfl, .nil⟩
  | copy c s _ ih =>
    cases pat with
    | nil => exact ⟨[], List.nil_prefix, .nil⟩
    | cons p pat =>
      obtain ⟨rfl, hrest⟩ := List.cons_prefix_cons.1 h
      obtain ⟨w, hw, hwoven⟩ := ih hrest
      exact ⟨c :: w, List.cons_prefix_cons.2 ⟨rfl, hw⟩, .char hwoven⟩
  | take m s hm ih =>
    obtain ⟨w, hw, hwoven⟩ := ih h
    exact ⟨m ++ w, (List.prefix_append_right_inj m).2 hw, .mark hm hwoven⟩

theorem interrupted_of_closesStyle {s : List Char} (h : ClosesStyle (withoutStyleEnd s)) : Interrupted s := by
  induction s using withoutStyleEnd_induction with
  | nil => exact absurd h (by decide)
  | copy c s hcopy ih =>
    rw [ClosesStyle, List.map_cons, List.infix_cons_iff] at h
    rcases h with hbegin | hrest
    · rw [← List.map_cons, ← withoutStyleEnd_cons hcopy] at hbegin
      obtain ⟨w, hw, hwoven⟩ := exists_woven hbegin
      exact ⟨w, hw.isInfix, hwoven, fun hstart => hcopy (hstart.trans (hw.map _))⟩
    · exact (ih hrest).mono (List.suffix_cons c s).isInfix
  | take m s _ ih => exact (ih h).mono (List.suffix_append m s).isInfix

/-- What is woven into the beginning of a text begins the result. -/
theorem Woven.begins {pat w : List Char} (h : Woven pat w) (hpat : '<' ∉ pat) (rest : List Char) :
    pat <+: (withoutStyleEnd (w ++ rest)).map Char.toLower := by
  induction h with
  | nil => exact List.nil_prefix
  | @char c pat s _ ih =>
    rw [List.mem_cons, not_or] at hpat
    -- Only a `<` begins a style end, and the text has none.
    have hcopy : ¬styleEnd <+: (c :: (s ++ rest)).map Char.toLower :=
      fun hstart => hpat.1 (List.cons_prefix_cons.1 hstart).1
    rw [List.cons_append, withoutStyleEnd_cons hcopy, List.map_cons, List.cons_prefix_cons]
    exact ⟨rfl, ih hpat.2⟩
  | mark hm _ ih =>
    rw [List.append_assoc, withoutStyleEnd_mark hm]
    exact ih hpat

theorem closesStyle_of_interrupted {s : List Char} (h : Interrupted s) : ClosesStyle (withoutStyleEnd s) := by
  obtain ⟨w, ⟨before, after, rfl⟩, hwoven, hbegin⟩ := h
  generalize hpat : styleEnd = pat at hwoven
  cases hwoven with
  | nil => cases hpat
  | @mark m _ w hm => exact absurd ⟨w.map Char.toLower, by rw [List.map_append, hm]⟩ hbegin
  | @char c pat w hrest =>
    obtain ⟨hc, rfl⟩ := List.cons.inj hpat
    have hcopy : ¬styleEnd <+: (c :: (w ++ after)).map Char.toLower := by
      intro hstart
      refine hbegin (List.prefix_of_prefix_length_le hstart ((List.prefix_append (c :: w) after).map _) ?_)
      simpa [styleEnd] using hrest.length_le
    -- No style end begins before the `<` and goes on behind it.
    have hapart : Apart styleEnd (before.map Char.toLower) ((c :: (w ++ after)).map Char.toLower) :=
      .of_tail (q := '<') (by simp [← hc]) (by decide)
    have hsplit : withoutStyleEnd (before ++ c :: (w ++ after)) =
        withoutStyleEnd before ++ c :: withoutStyleEnd (w ++ after) := by
      rw [withoutStyleEnd_append hapart, withoutStyleEnd_cons hcopy]
    have hfound : styleEnd <+: (c :: withoutStyleEnd (w ++ after)).map Char.toLower :=
      List.cons_prefix_cons.2 ⟨hc, hrest.begins (by decide) after⟩
    rw [List.append_assoc, List.cons_append, hsplit, ClosesStyle, List.map_append]
    exact hfound.isInfix.trans (List.suffix_append _ _).isInfix

/-- A pass leaves a style end exactly if one was interrupted by others. -/
theorem closesStyle_withoutStyleEnd {s : List Char} : ClosesStyle (withoutStyleEnd s) ↔ Interrupted s :=
  ⟨interrupted_of_closesStyle, closesStyle_of_interrupted⟩

/-! ## Reading a style -/

theorem ClosesStyle.not_blank {css : String} (h : ClosesStyle css.toList) : isBlankText css = false := by
  obtain ⟨c, hc, heq⟩ := List.mem_map.1 (h.subset (a := '<') (by decide))
  obtain rfl : c = '<' := (toLower_eq_iff (by decide) (by decide)).1 heq
  rw [isBlankText, List.all_eq_false]
  exact ⟨'<', hc, by decide⟩

/-- What adding a style adds ends its element exactly if the style does. -/
theorem exists_addStyleTo (l : List String) (css : String) : ∃ added, addStyleTo l css = l ++ added ∧
    ((∀ s ∈ added, ¬ClosesStyle s.toList) ↔ ¬ClosesStyle css.toList) := by
  unfold addStyleTo
  split
  · rename_i hblank
    exact ⟨[], by simp, by simpa using fun h : ClosesStyle css.toList => by simp [h.not_blank] at hblank⟩
  · exact ⟨[css], rfl, by simp⟩

/-- A style component stores a style that ends its element exactly if its content has an interrupted style end. -/
theorem readStyle_closes_iff (n : Node) (r : Reading) : ∃ added inlined,
    (readStyle n r).1.styles.styles = r.1.styles.styles ++ added ∧
    (readStyle n r).1.styles.inlineStyles = r.1.styles.inlineStyles ++ inlined ∧
    ((∀ css ∈ added ++ inlined, ¬ClosesStyle css.toList) ↔ ¬Interrupted (trim n.innerMarkup).toList) := by
  unfold readStyle
  extract_lets css
  have hcss : ClosesStyle css.toList ↔ Interrupted (trim n.innerMarkup).toList := by
    rw [String.toList_ofList]
    exact closesStyle_withoutStyleEnd
  rw [← hcss]
  clear_value css
  split
  · obtain ⟨inlined, heq, hclosed⟩ := exists_addStyleTo r.1.styles.inlineStyles css
    exact ⟨[], inlined, (List.append_nil _).symm, heq, hclosed⟩
  · obtain ⟨added, heq, hclosed⟩ := exists_addStyleTo r.1.styles.styles css
    exact ⟨added, [], heq, (List.append_nil _).symm, by rwa [List.append_nil]⟩

/-- A style end between the parts of another. -/
def nestedEnd : Node := .element "mj-style" .empty [.cdata "a</sty</stylele>b"]

theorem readStyle_nestedEnd : (readStyle nestedEnd ({}, {})).1.styles.styles = ["a</style>b"] ∧
    ClosesStyle "a</style>b".toList := by
  decide +kernel

end EmailMarkup.Head
