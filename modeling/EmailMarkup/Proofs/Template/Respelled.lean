import EmailMarkup.Proofs.Template.Settled
/-!
# Texts up to the spelling of their references

`Respelled` relates texts that agree but for the spelling of references to code points. Such texts agree up to the first
reference (`Respelled.front`), and no character outside of references is lost or moved across another (`Respelled.split`).

The passes that turn the names of characters into code points only respell. So no name of the table and no verbatim text
begins in the result where none began before, and a second pass changes nothing (`replaceEntities_replaceEntities`,
`replaceOutside_replaceOutside`).
-/
namespace EmailMarkup.Template

open EmailMarkup.Text

/-! ## References -/

/-- The text of a reference: letters, digits and `#` between its marks. -/
def IsReference (s : List Char) : Prop :=
  ∃ name, s = '&' :: (name ++ [';']) ∧ ∀ c ∈ name, c.isAlphanum = true ∨ c = '#'

/-- What is no letter, digit or mark is not in a reference. -/
theorem IsReference.not_mem {s : List Char} (h : IsReference s) {c : Char} (hc : c.isAlphanum = false)
    (hmark : c ∉ ['&', '#', ';']) : c ∉ s := by
  obtain ⟨name, rfl, hname⟩ := h
  simp only [List.mem_cons, List.not_mem_nil, or_false, not_or] at hmark
  simp only [List.mem_cons, List.mem_append, List.not_mem_nil, or_false, not_or]
  refine ⟨hmark.1, fun hm => ?_, hmark.2.2⟩
  rcases hname c hm with halpha | hhash
  · rw [hc] at halpha
    cases halpha
  · exact hmark.2.1 hhash

theorem isReference_of_entityCode? {name : List Char} {code : Nat} (h : entityCode? (String.ofList name) = some code) :
    IsReference ('&' :: (name ++ [';'])) :=
  ⟨name, rfl, fun c hc => .inl (isAlphanum_of_entityCode? h c hc)⟩

theorem isDigit_of_mem_toDigits {code : Nat} {c : Char} (h : c ∈ Nat.toDigits 10 code) : c.isDigit = true :=
  Nat.isDigit_of_mem_toDigits (by decide) (by decide) h

theorem isReference_numericReference (code : Nat) : IsReference (numericReference code) := by
  refine ⟨'#' :: Nat.toDigits 10 code, by simp [numericReference], fun c hc => ?_⟩
  rcases List.mem_cons.1 hc with rfl | hc
  · exact .inr rfl
  · exact .inl (by simp [Char.isAlphanum, isDigit_of_mem_toDigits hc])

/-- The text refers to the code point, by its number or by a name of the table. -/
def RefersTo (code : Nat) (s : List Char) : Prop :=
  s = numericReference code ∨ ∃ name, entityCode? (String.ofList name) = some code ∧ s = '&' :: (name ++ [';'])

theorem RefersTo.isReference {code : Nat} {s : List Char} (h : RefersTo code s) : IsReference s := by
  rcases h with rfl | ⟨name, hname, rfl⟩
  · exact isReference_numericReference code
  · exact isReference_of_entityCode? hname

/-! ## Respelled texts -/

/-- The texts agree but for references, and these refer to the same code points. -/
inductive Respelled : List Char → List Char → Prop
  | nil : Respelled [] []
  | keep {s t : List Char} (c : Char) (h : Respelled s t) : Respelled (c :: s) (c :: t)
  | swap {s t old new : List Char} {code : Nat} (hold : RefersTo code old) (hnew : RefersTo code new) (h : Respelled s t) :
      Respelled (old ++ s) (new ++ t)

namespace Respelled

variable {s t s' t' u : List Char}

theorem refl : ∀ s : List Char, Respelled s s
  | [] => nil
  | c :: s => keep c (refl s)

theorem symm (h : Respelled s t) : Respelled t s := by
  induction h with
  | nil => exact nil
  | keep c _ ih => exact keep c ih
  | swap hold hnew _ ih => exact swap hnew hold ih

theorem append (h : Respelled s t) (h' : Respelled s' t') : Respelled (s ++ s') (t ++ t') := by
  induction h with
  | nil => exact h'
  | keep c _ ih => exact keep c ih
  | swap hold hnew _ ih =>
    rw [List.append_assoc, List.append_assoc]
    exact swap hold hnew ih

theorem eq_nil (h : Respelled [] t) : t = [] := by
  generalize hs : ([] : List Char) = s at h
  cases h with
  | nil => rfl
  | keep => cases hs
  | swap hold =>
    obtain ⟨name, rfl, -⟩ := hold.isReference
    cases hs

/-- Text without references stands in front of both. -/
theorem front (h : Respelled (u ++ s) t) (hu : '&' ∉ u) : ∃ t', t = u ++ t' ∧ Respelled s t' := by
  induction u generalizing t with
  | nil => exact ⟨t, rfl, h⟩
  | cons c u ih =>
    rw [List.mem_cons, not_or] at hu
    generalize hs : c :: u ++ s = w at h
    cases h with
    | nil => cases hs
    | keep d h =>
      obtain ⟨rfl, rfl⟩ := List.cons.inj hs
      obtain ⟨t', rfl, hrest⟩ := ih h hu.2
      exact ⟨t', rfl, hrest⟩
    | swap hold =>
      obtain ⟨name, rfl, -⟩ := hold.isReference
      exact absurd (List.cons.inj hs).1.symm hu.1

/-- A character that is in no reference stands at the same place in both. -/
theorem split {c : Char} (hc : c.isAlphanum = false) (hmark : c ∉ ['&', '#', ';']) (h : Respelled (s ++ c :: s') t) :
    ∃ u u', t = u ++ c :: u' ∧ Respelled s u ∧ Respelled s' u' := by
  generalize hw : s ++ c :: s' = w at h
  induction h generalizing s with
  | nil => simp at hw
  | @keep w t d h ih =>
    cases s with
    | nil =>
      obtain ⟨rfl, rfl⟩ := List.cons.inj hw
      exact ⟨[], t, rfl, nil, h⟩
    | cons e s =>
      obtain ⟨rfl, hrest⟩ := List.cons.inj hw
      obtain ⟨u, u', rfl, hu, hu'⟩ := ih hrest
      exact ⟨e :: u, u', rfl, keep e hu, hu'⟩
  | @swap w t old new code hold hnew h ih =>
    rcases List.append_eq_append_iff.1 hw with ⟨part, hpart, hrest⟩ | ⟨part, hpart, hrest⟩
    · cases part with
      | nil =>
        obtain ⟨u, u', rfl, hu, hu'⟩ := ih (s := []) hrest
        rw [List.append_nil] at hpart
        obtain rfl := hu.eq_nil
        exact ⟨new, u', by simp, by simpa [hpart] using swap hold hnew nil, hu'⟩
      | cons d part =>
        obtain rfl : c = d := (List.cons.inj hrest).1
        exact absurd (by simp [hpart]) (hold.isReference.not_mem hc hmark)
    · obtain ⟨u, u', rfl, hu, hu'⟩ := ih hrest.symm
      exact ⟨new ++ u, u', by simp, by rw [hpart]; exact swap hold hnew hu, hu'⟩

end Respelled

/-! ## Passes that respell -/

section

variable {step : List Char → Option (List Char × Nat)}

theorem respelled_substitute (htakes : TakesPiece step) (hstep : ∀ piece rest out,
      step (piece ++ rest) = some (out, piece.length) → out = piece ∨ ∃ code, RefersTo code piece ∧ RefersTo code out)
    (s : List Char) : Respelled s (substitute step s) := by
  refine substitute_induction htakes .nil (fun c _ _ ih => .keep c ih) (fun piece rest out _ htake ih => ?_) s
  rcases hstep piece rest out htake with rfl | ⟨code, hold, hnew⟩
  · exact (Respelled.refl _).append ih
  · exact .swap hold hnew ih

/-- A second pass changes nothing if it takes nothing where the first took nothing, and leaves what the first put there. -/
theorem substitute_substitute (htakes : TakesPiece step)
    (hcopy : ∀ c s, step (c :: s) = none → step (c :: substitute step s) = none)
    (htake : ∀ piece rest out, piece ≠ [] → step (piece ++ rest) = some (out, piece.length) →
      substitute step (out ++ substitute step rest) = out ++ substitute step (substitute step rest)) (s : List Char) :
    substitute step (substitute step s) = substitute step s := by
  refine substitute_induction (motive := fun _ t => substitute step t = t) htakes rfl (fun c s hnone ih => ?_)
    (fun piece rest out hne hsome ih => ?_) s
  · rw [substitute_cons_of_none (hcopy c s hnone), ih]
  · rw [htake piece rest out hne hsome, ih]

end

theorem respelled_replaceEntities (s : List Char) : Respelled s (replaceEntities s) := by
  refine respelled_substitute takesPiece_entity? (fun piece rest out h => ?_) s
  obtain ⟨name, code, hcode, rfl, rfl⟩ := entity?_eq_some h
  exact .inr ⟨code, .inr ⟨name, hcode, rfl⟩, .inl rfl⟩

theorem respelled_replaceOutside (s : List Char) : Respelled s (replaceOutside s) := by
  refine respelled_substitute takesPiece_outsideStep (fun piece rest out h => ?_) s
  rcases outsideStep_eq_some h with ⟨rfl, -⟩ | ⟨name, code, hcode, rfl, rfl⟩
  · exact .inl rfl
  · exact .inr ⟨code, .inr ⟨name, hcode, rfl⟩, .inl rfl⟩

/-! ## Second passes -/

section

variable {s t : List Char} {c : Char}

/-- A name of the table does not begin where none began before. -/
theorem entity?_eq_none_of_respelled (h : Respelled s t) (hnone : entity? (c :: s) = none) : entity? (c :: t) = none := by
  rw [Option.eq_none_iff_forall_ne_some]
  intro p hp
  obtain ⟨name, rest, code, heq, hcode, -⟩ := entity?_eq hp
  obtain ⟨rfl, rfl⟩ := List.cons.inj heq
  have halpha := isAlphanum_of_entityCode? hcode
  have hplain : '&' ∉ name ++ [';'] := by simpa using fun hm => absurd (halpha _ hm) (by decide)
  have hend : ';' ∉ name := fun hm => absurd (halpha _ hm) (by decide)
  obtain ⟨s', rfl, -⟩ := Respelled.front (s := rest) (by simpa using h.symm) hplain
  rw [List.append_assoc, List.singleton_append, entity?_reference hend, hcode] at hnone
  cases hnone

/-- Text without references does not begin where it did not begin before. -/
theorem strip?_eq_none_of_respelled {p : Char} {ps : List Char} (hps : '&' ∉ ps) (h : Respelled s t)
    (hnone : strip? (p :: ps) (c :: s) = none) : strip? (p :: ps) (c :: t) = none := by
  rw [Option.eq_none_iff_forall_ne_some]
  intro r hr
  obtain ⟨rfl, rfl⟩ := List.cons.inj (strip?_eq_some_iff.1 hr)
  obtain ⟨s', rfl, -⟩ := h.symm.front hps
  rw [← List.cons_append, strip?_append] at hnone
  cases hnone

theorem outsideStep_eq_none_iff : outsideStep (c :: s) = none ↔ strip? cdataOpen (c :: s) = none ∧ entity? (c :: s) = none := by
  cases hopen : strip? cdataOpen (c :: s) with
  | none => simp [outsideStep_eq hopen]
  | some after =>
    have hverbatim : ∃ v, verbatim? (c :: s) = some v := by
      rw [verbatim?, hopen]
      cases hcut : cut cdataClose after <;> simp [hcut]
    obtain ⟨v, hv⟩ := hverbatim
    simp [outsideStep, hv]

end

theorem numericReference_eq (code : Nat) : numericReference code = '&' :: ('#' :: Nat.toDigits 10 code ++ [';']) := by
  simp [numericReference]

/-- A code point is no name of the table, and holds no marks. -/
theorem numericName (code : Nat) : entityCode? (String.ofList ('#' :: Nat.toDigits 10 code)) = none ∧
    ∀ c ∈ [';', '&', '<'], c ∉ '#' :: Nat.toDigits 10 code := by
  constructor
  · rw [Option.eq_none_iff_forall_ne_some]
    intro n hn
    exact absurd (isAlphanum_of_entityCode? hn '#' (by simp)) (by decide)
  · intro c hc hm
    rcases List.mem_cons.1 hm with rfl | hm
    · exact absurd hc (by decide)
    · have hdigit := isDigit_of_mem_toDigits hm
      simp only [List.mem_cons, List.not_mem_nil, or_false] at hc
      rcases hc with rfl | rfl | rfl <;> exact absurd hdigit (by decide)

theorem keeps_numericReference (code : Nat) : Turns outsideStep (numericReference code) (numericReference code) := by
  obtain ⟨hcode, hmarks⟩ := numericName code
  rw [numericReference_eq]
  exact keeps_reference _ (hmarks _ (by decide)) (hmarks _ (by decide)) (hmarks _ (by decide)) hcode

/-- A reference that is not in the table stays, verbatim or not. -/
theorem entity?_keeps_reference {name : List Char} (hend : ';' ∉ name) (hamp : '&' ∉ name)
    (h : entityCode? (String.ofList name) = none) : Turns entity? ('&' :: (name ++ [';'])) ('&' :: (name ++ [';'])) := by
  refine .cons (fun rest => ?_) (.copy fun c hc rest => entity?_of_ne ?_ rest)
  · rw [List.append_assoc, List.singleton_append, entity?_reference hend, h]
    rfl
  · rintro rfl
    exact absurd hc (by simp [hamp])

/-- Naming no character of the table any more, the text stays as it is. -/
theorem replaceEntities_replaceEntities (s : List Char) : replaceEntities (replaceEntities s) = replaceEntities s := by
  refine substitute_substitute takesPiece_entity? (fun c s => ?_) (fun piece rest out _ h => ?_) s
  · exact entity?_eq_none_of_respelled (respelled_replaceEntities s)
  · obtain ⟨name, code, -, -, rfl⟩ := entity?_eq_some h
    obtain ⟨hcode, hmarks⟩ := numericName code
    rw [numericReference_eq]
    exact entity?_keeps_reference (hmarks _ (by decide)) (hmarks _ (by decide)) hcode _

/-- Verbatim text is the same whatever follows, if it has an end. -/
theorem verbatim?_append {v rest : List Char} (h : verbatim? (v ++ rest) = some v) :
    rest = [] ∨ ∀ rest', verbatim? (v ++ rest') = some v := by
  obtain ⟨after, hafter, h⟩ := Option.bind_eq_some_iff.1 h
  split at h
  · have heq : v ++ rest = v := Option.some.inj h
    exact .inl (by simpa using heq)
  · rename_i inside r hcut
    obtain rfl : cdataOpen ++ inside ++ cdataClose = v := Option.some.inj h
    refine .inr fun rest' => ?_
    rw [verbatim?, List.append_assoc, List.append_assoc, strip?_append]
    simp [cut_append_right hcut rest']

/-- Outside of verbatim text no character of the table is named any more, and verbatim text is where it was. -/
theorem replaceOutside_replaceOutside (s : List Char) : replaceOutside (replaceOutside s) = replaceOutside s := by
  refine substitute_substitute takesPiece_outsideStep (fun c s hnone => ?_) (fun piece rest out hne h => ?_) s
  · have hspelled := respelled_replaceOutside s
    obtain ⟨hopen, hentity⟩ := outsideStep_eq_none_iff.1 hnone
    exact outsideStep_eq_none_iff.2 ⟨strip?_eq_none_of_respelled (by decide) hspelled hopen,
      entity?_eq_none_of_respelled hspelled hentity⟩
  · rcases outsideStep_eq_some h with ⟨rfl, hverbatim⟩ | ⟨name, code, -, -, rfl⟩
    · rcases verbatim?_append hverbatim with rfl | hany
      · exact substitute_append_of_some hne h
      · exact substitute_append_of_some hne (by rw [outsideStep, hany]; rfl)
    · exact keeps_numericReference code _

end EmailMarkup.Template
