/-!
# Finding text in text

Texts are lists of characters here, so that what is left to read is always a suffix. `strip?` reads
a given text off the front; `cut` splits at its first occurrence; both have variants that ignore the
case of ASCII letters.
-/
namespace EmailMarkup.Text

/-! ## At the front -/

/-- What follows `pat` when the text begins with it. -/
def strip? : List Char → List Char → Option (List Char)
  | [], s => some s
  | _ :: _, [] => none
  | p :: ps, c :: s => if p = c then strip? ps s else none

def startsWith (pat s : List Char) : Bool := (strip? pat s).isSome

/-- `strip?` up to the case of ASCII letters. -/
def stripFold? : List Char → List Char → Option (List Char)
  | [], s => some s
  | _ :: _, [] => none
  | p :: ps, c :: s => if p.toLower = c.toLower then stripFold? ps s else none

/-- What precedes `pat` when the text ends with it. -/
def stripEnd? (pat s : List Char) : Option (List Char) :=
  (strip? pat.reverse s.reverse).map List.reverse

def endsWith (pat s : List Char) : Bool := (stripEnd? pat s).isSome

/-! ## Anywhere -/

/-- Splits a text at the first suffix that `strip` accepts, into what stands before that suffix and
what `strip` leaves of it. -/
def cutBy (strip : List Char → Option (List Char)) : List Char → Option (List Char × List Char)
  | [] => (strip []).map fun r => ([], r)
  | c :: s =>
    match strip (c :: s) with
    | some r => some ([], r)
    | none => (cutBy strip s).map fun (before, after) => (c :: before, after)

/-- The text before and after the first occurrence of `pat`. -/
def cut (pat s : List Char) : Option (List Char × List Char) := cutBy (strip? pat) s

/-- `cut` up to the case of ASCII letters. -/
def cutFold (pat s : List Char) : Option (List Char × List Char) := cutBy (stripFold? pat) s

def occurs (pat s : List Char) : Bool := (cut pat s).isSome

/-! ## Substitution -/

/-- Copies a text from left to right. Where `step` takes some characters off the front of what is
left, its output stands in their place. The counter is how many of the characters taken are still to
be passed over. -/
def substituteFrom (step : List Char → Option (List Char × Nat)) : Nat → List Char → List Char
  | _, [] => []
  | k + 1, _ :: s => substituteFrom step k s
  | 0, c :: s =>
    match step (c :: s) with
    | some (output, taken) => output ++ substituteFrom step (taken - 1) s
    | none => c :: substituteFrom step 0 s

def substitute (step : List Char → Option (List Char × Nat)) (s : List Char) : List Char :=
  substituteFrom step 0 s

/-- Replaces the occurrences of a non-empty `pat` by `new`, from left to right. -/
def replaceAll (pat new s : List Char) : List Char :=
  substitute (fun s => if startsWith pat s then some (new, pat.length) else none) s

/-! ## On strings -/

def contains (s needle : String) : Bool := occurs needle.toList s.toList

def replace (s pat new : String) : String :=
  String.ofList (replaceAll pat.toList new.toList s.toList)

/-- `s` with its ASCII capitals made small. -/
def lower (s : String) : String := String.ofList (s.toList.map Char.toLower)

/-- Whether two texts agree up to the case of ASCII letters. -/
def sameLetters (s t : String) : Bool := lower s == lower t

/-- `s` without the trailing text `pat`, when it ends with it. -/
def dropEnd? (pat s : String) : Option String :=
  (stripEnd? pat.toList s.toList).map String.ofList

/-- `s` without the leading text `pat`, when it begins with it. -/
def dropStart? (pat s : String) : Option String :=
  (strip? pat.toList s.toList).map String.ofList

/-! ## What the splits leave -/

theorem strip?_eq_some_iff {pat s r : List Char} : strip? pat s = some r ↔ s = pat ++ r := by
  induction pat generalizing s with
  | nil => simp [strip?, eq_comm]
  | cons p ps ih =>
    cases s with
    | nil => simp [strip?]
    | cons c s =>
      by_cases h : p = c
      · simp [strip?, h, ih]
      · simp [strip?, h, Ne.symm h]

theorem strip?_length {pat s r : List Char} (h : strip? pat s = some r) :
    r.length + pat.length = s.length := by
  rw [strip?_eq_some_iff.1 h, List.length_append, Nat.add_comm]

theorem cutBy_length {strip : List Char → Option (List Char)} {k : Nat}
    (hk : ∀ s r, strip s = some r → r.length + k = s.length) {s before after : List Char}
    (h : cutBy strip s = some (before, after)) :
    before.length + k + after.length = s.length := by
  induction s generalizing before with
  | nil =>
    obtain ⟨r, hr, e⟩ := Option.map_eq_some_iff.1 h
    obtain ⟨rfl, rfl⟩ := Prod.mk.inj e
    have := hk _ _ hr
    simp only [List.length_nil] at this ⊢
    omega
  | cons c s ih =>
    rw [cutBy] at h
    split at h
    · rename_i r hr
      obtain ⟨rfl, rfl⟩ := Prod.mk.inj (Option.some.inj h)
      have := hk _ _ hr
      simp only [List.length_nil]
      omega
    · obtain ⟨⟨b, a⟩, hb, e⟩ := Option.map_eq_some_iff.1 h
      obtain ⟨rfl, rfl⟩ := Prod.mk.inj e
      have := ih hb
      simp only [List.length_cons]
      omega

theorem cut_length {pat s before after : List Char} (h : cut pat s = some (before, after)) :
    before.length + pat.length + after.length = s.length :=
  cutBy_length (fun _ _ => strip?_length) h

theorem cut_eq_append {pat s before after : List Char} (h : cut pat s = some (before, after)) :
    s = before ++ pat ++ after := by
  induction s generalizing before with
  | nil =>
    obtain ⟨r, hr, e⟩ := Option.map_eq_some_iff.1 h
    obtain ⟨rfl, rfl⟩ := Prod.mk.inj e
    simpa using strip?_eq_some_iff.1 hr
  | cons c s ih =>
    rw [cut, cutBy] at h
    split at h
    · rename_i r hr
      obtain ⟨rfl, rfl⟩ := Prod.mk.inj (Option.some.inj h)
      simpa using strip?_eq_some_iff.1 hr
    · obtain ⟨⟨b, a⟩, hb, e⟩ := Option.map_eq_some_iff.1 h
      obtain ⟨rfl, rfl⟩ := Prod.mk.inj e
      have := ih hb
      simp_all

end EmailMarkup.Text
