import Mathlib.Data.List.Infix
import EmailMarkup.Proofs.Template.Decoded
/-!
# Every ampersand starts a reference

Whether a text can be decoded is decided at its ampersands, each for itself: the text up to the next `;` has to be the name
of a reference (`exists_madeOf_iff`). A name that is refused is refused with the complaint that fits it
(`refusedAs_of_decodeFrom`). The names taken are those of the grammar and those with a plus in front of the digits, and no
name is both (`Denotes.not_signed`).
-/
namespace EmailMarkup.Template

open EmailMarkup.Text

/-- Every `&` of the text starts `&name;` with a name as `ok` asks. -/
def EachAmpersand (ok : List Char → Prop) (s : List Char) : Prop :=
  ∀ before after, s = before ++ '&' :: after → ∃ name rest, after = name ++ ';' :: rest ∧ ok name

/-- What stands behind an ampersand gives the complaint: no end, or a name that no reference has. -/
def RefusedAs (after : List Char) : Malformed → Prop
  | .referenceWithoutEnd => ';' ∉ after
  | .invalidCharacter text => ∃ digits rest, after = '#' :: digits ++ ';' :: rest ∧ ';' ∉ digits ∧
      text = String.ofList ('#' :: digits) ∧ ∀ c, ¬Accepts ('#' :: digits) c
  | .undeclaredEntity text => ∃ name rest, after = name ++ ';' :: rest ∧ ';' ∉ name ∧ name.head? ≠ some '#' ∧
      text = String.ofList name ∧ ∀ c, ¬Accepts name c
  | _ => False

/-! ## Names -/

section

variable {name : List Char} {c c' : Char}

theorem Denotes.plus_not_mem (h : Denotes name c) : '+' ∉ name := fun hmem => absurd (h.mem_chars hmem) (by decide)

/-- A name of the grammar has no plus. -/
theorem Denotes.not_signed (h : Denotes name c) : ¬DenotesSigned name c' := by
  intro hsigned
  obtain ⟨mark, digits, rfl, -⟩ := hsigned.exists_denotes
  exact h.plus_not_mem (by simp)

theorem Accepts.ampersand_not_mem (h : Accepts name c) : '&' ∉ name := fun hmem => absurd (h.mem_chars hmem) (by decide)

/-- A text starts with one reference at most: its first `;` ends it. -/
theorem Accepts.name_unique {name' rest rest' : List Char} (h : Accepts name c) (h' : Accepts name' c')
    (heq : name ++ ';' :: rest = name' ++ ';' :: rest') : name = name' := by
  have hcut := cut_char h.no_end rest
  rw [heq, cut_char h'.no_end] at hcut
  exact (Prod.mk.inj (Option.some.inj hcut)).1.symm

/-- A name that is not read is refused for what it looks like. -/
theorem refusedAs_of_character {rest : List Char} {what : Malformed} (hend : ';' ∉ name)
    (h : character name = .error what) : RefusedAs (name ++ ';' :: rest) what := by
  have hrefused (c : Char) : ¬Accepts name c := by
    intro hc
    rw [character_eq_ok_iff.2 hc] at h
    cases h
  unfold character at h
  split at h
  · rename_i digits
    split at h
    · cases h
    · cases h
      exact ⟨digits, rest, rfl, fun hmem => hend (List.mem_cons_of_mem _ hmem), rfl, hrefused⟩
  · rename_i hother
    have hhead : name.head? ≠ some '#' := by
      intro hhead
      obtain ⟨digits, rfl⟩ := List.head?_eq_some_iff.1 hhead
      exact hother digits rfl
    split at h
    all_goals cases h
    exact ⟨name, rest, rfl, hend, hhead, rfl, hrefused⟩

end

/-! ## Texts -/

namespace EachAmpersand

variable {ok : List Char → Prop} {s t : List Char}

theorem mono {ok' : List Char → Prop} (h : EachAmpersand ok s) (hok : ∀ name, ok name → ok' name) : EachAmpersand ok' s := by
  intro before after hs
  obtain ⟨name, rest, hafter, hname⟩ := h before after hs
  exact ⟨name, rest, hafter, hok name hname⟩

theorem of_append (h : EachAmpersand ok (t ++ s)) : EachAmpersand ok s := by
  intro before after hs
  exact h (t ++ before) after (by rw [hs, List.append_assoc])

end EachAmpersand

/-- The ampersands of a text made of parts are those that start its references. -/
theorem MadeOf.eachAmpersand {s : List Char} {parts : List Part} (h : MadeOf Part.Accepted s parts) :
    EachAmpersand (fun name => ∃ c, Accepts name c) s := by
  obtain ⟨hparts, rfl⟩ := h
  induction parts with
  | nil =>
    intro before after hs
    simp at hs
  | cons p parts ih =>
    obtain ⟨hp, hrest⟩ := List.forall_mem_cons.1 hparts
    intro before after hs
    rw [List.flatMap_cons] at hs
    cases p with
    | literal c =>
      cases before with
      | nil => exact absurd (List.cons.inj hs).1 hp
      | cons d before => exact ih hrest before after (List.cons.inj hs).2
    | reference name c =>
      replace hs : '&' :: (name ++ ';' :: parts.flatMap Part.text) = before ++ '&' :: after := by
        simpa [Part.text] using hs
      cases before with
      | nil => exact ⟨name, _, (List.cons.inj hs).2.symm, c, hp⟩
      | cons d before =>
        -- behind the first one, the next ampersand comes after the `;`
        rcases append_cons_cases (List.cons.inj hs).2 with ⟨u, -, hu⟩ | ⟨-, hne, -⟩ | ⟨u, hname, -⟩
        · exact ih hrest u after hu
        · exact absurd hne (by decide)
        · exact absurd (by simp [hname]) (Accepts.ampersand_not_mem hp)

/-- The induction is on the length, since a reference is taken off as a whole. -/
theorem EachAmpersand.exists_madeOf {s : List Char} (h : EachAmpersand (fun name => ∃ c, Accepts name c) s) :
    ∃ parts, MadeOf Part.Accepted s parts := by
  induction hn : s.length using Nat.strongRecOn generalizing s with
  | ind n ih =>
    cases s with
    | nil => exact ⟨[], by simp [MadeOf]⟩
    | cons c s =>
      by_cases hc : c = '&'
      · subst hc
        obtain ⟨name, rest, rfl, d, hd⟩ := h [] s rfl
        have hsplit : '&' :: (name ++ ';' :: rest) = (Part.reference name d).text ++ rest := by simp [Part.text]
        rw [hsplit] at h ⊢
        obtain ⟨parts, hparts⟩ := ih rest.length (by simp [← hn]; omega) h.of_append rfl
        exact ⟨_, hparts.cons hd⟩
      · obtain ⟨parts, hparts⟩ := ih s.length (by simp [← hn]) (h.of_append (t := [c])) rfl
        exact ⟨_, hparts.cons (p := .literal c) hc⟩

theorem exists_madeOf_iff {s : List Char} :
    (∃ parts, MadeOf Part.Accepted s parts) ↔ EachAmpersand (fun name => ∃ c, Accepts name c) s :=
  ⟨fun h => h.elim fun _ => MadeOf.eachAmpersand, EachAmpersand.exists_madeOf⟩

theorem exists_decode_eq_ok_iff {s : List Char} :
    (∃ v, decode s = .ok v) ↔ EachAmpersand (fun name => ∃ c, Accepts name c) s := by
  rw [← exists_madeOf_iff]
  constructor
  · rintro ⟨v, hv⟩
    obtain ⟨parts, hparts, -⟩ := decode_eq_ok_iff.1 hv
    exact ⟨parts, hparts⟩
  · rintro ⟨parts, hparts⟩
    exact ⟨_, hparts.decode⟩

/-- A step that failed, or one that went well before the rest failed. -/
theorem bind_eq_error {ε α β : Type} {x : Except ε α} {f : α → Except ε β} {e : ε} :
    x >>= f = .error e ↔ x = .error e ∨ ∃ a, x = .ok a ∧ f a = .error e := by
  cases x <;> simp [bind, Except.bind]

/-- Reading stops at the first ampersand that starts no reference. -/
theorem refusedAs_of_decodeFrom {k : Nat} {s : List Char} {what : Malformed} (h : decodeFrom k s = .error what) :
    ∃ before parts after, MadeOf Part.Accepted before parts ∧ s.drop k = before ++ '&' :: after ∧ RefusedAs after what := by
  induction s generalizing k with
  | nil =>
    rw [decodeFrom] at h
    cases h
  | cons c s ih =>
    cases k with
    | succ k => exact ih h
    | zero =>
      rw [decodeFrom] at h
      split at h
      · rename_i hc
        subst hc
        split at h
        · rename_i hcut
          cases h
          refine ⟨[], [], s, ⟨by simp, rfl⟩, rfl, fun hmem => ?_⟩
          have hsome := occurs_iff.2 ((List.singleton_infix_iff ';' s).2 hmem)
          simp [occurs, hcut] at hsome
        · rename_i name after hcut
          obtain ⟨hs, hend⟩ := not_mem_of_cut hcut
          rcases bind_eq_error.1 h with hd | ⟨d, hd, h⟩
          · exact ⟨[], [], s, ⟨by simp, rfl⟩, rfl, hs ▸ refusedAs_of_character hend hd⟩
          · obtain hv | ⟨_, -, h⟩ := bind_eq_error.1 h
            · obtain ⟨before, parts, rest, hmade, hsplit, hrefused⟩ := ih hv
              have hmade' := hmade.cons (p := .reference name d) (character_eq_ok_iff.1 hd)
              have hafter : s.drop (name.length + 1) = after := by rw [hs]; simp
              rw [hafter] at hsplit
              exact ⟨_, _, rest, hmade', by simp [hs, hsplit, Part.text], hrefused⟩
            · cases h
      · rename_i hc
        obtain hv | ⟨_, -, h⟩ := bind_eq_error.1 h
        · obtain ⟨before, parts, rest, hmade, hsplit, hrefused⟩ := ih hv
          exact ⟨_, _, rest, hmade.cons (p := .literal c) hc, congrArg (c :: ·) hsplit, hrefused⟩
        · cases h

/-- A text can be decoded exactly if each of its ampersands starts a reference that is read. The texts of the grammar are
those of them in which no reference has a plus in front of its digits. All other texts are refused at the first ampersand
that starts no reference, with the complaint that fits it. -/
theorem decode_ok_iff_ampersands (s : List Char) :
    ((∃ v, decode s = .ok v) ↔ EachAmpersand (fun name => ∃ c, Accepts name c) s) ∧
    (EachAmpersand (fun name => ∃ c, Denotes name c) s ↔ (∃ v, decode s = .ok v) ∧
      ∀ before name rest c, s = before ++ '&' :: (name ++ ';' :: rest) → ¬DenotesSigned name c) ∧
    ∀ what, decode s = .error what → ∃ before after, s = before ++ '&' :: after ∧ (∃ v, decode before = .ok v) ∧
      RefusedAs after what := by
  refine ⟨exists_decode_eq_ok_iff, ?_, fun what h => ?_⟩
  · rw [exists_decode_eq_ok_iff]
    constructor
    · intro h
      refine ⟨h.mono fun name hname => hname.imp fun _ => .inl, fun before name rest c hs hsigned => ?_⟩
      obtain ⟨name', rest', hsplit, c', hname'⟩ := h before _ hs
      obtain rfl := Accepts.name_unique (.inr hsigned) (.inl hname') hsplit
      exact hname'.not_signed hsigned
    · rintro ⟨h, hplus⟩ before after rfl
      obtain ⟨name, rest, rfl, c, hname⟩ := h before after rfl
      exact ⟨name, rest, rfl, c, hname.resolve_right (hplus before name rest c rfl)⟩
  · obtain ⟨before, parts, after, hmade, hs, hrefused⟩ := refusedAs_of_decodeFrom h
    exact ⟨before, after, hs, ⟨_, hmade.decode⟩, hrefused⟩

/-- A plus in front of the digits is no reference of the grammar, and is read. -/
theorem decode_plus : decode "&#+65;".toList = .ok ['A'] ∧
    ¬EachAmpersand (fun name => ∃ c, Denotes name c) "&#+65;".toList := by
  refine ⟨by decide, fun h => ?_⟩
  obtain ⟨name, rest, hsplit, c, hname⟩ := h [] "#+65;".toList (by decide)
  have hcut := cut_char hname.readable.no_end rest
  rw [← hsplit, show cut [';'] "#+65;".toList = some ("#+65".toList, []) by decide] at hcut
  obtain ⟨rfl, -⟩ := Prod.mk.inj (Option.some.inj hcut)
  exact hname.plus_not_mem (by decide)

end EmailMarkup.Template
