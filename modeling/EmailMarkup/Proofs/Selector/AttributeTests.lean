import EmailMarkup.Proofs.Text.Blank
import EmailMarkup.Selector.Match
import EmailMarkup.Selector.Reader
/-!
# What attribute tests represent

Selectors say of each operator which values it represents: a word is not empty and holds no blank, and the empty text is
neither the start nor the end nor a part of a value. `AttributeTest.Represents` states this on the characters of the
values. Matching agrees with it except for the last three operators with the empty text, which it finds in every value
(`AttributeTest.holds_iff_represents`).
-/
namespace EmailMarkup

open EmailMarkup.Text

/-- Which values a comparison with `value` represents. -/
def Comparison.Represents (value actual : List Char) : Comparison → Prop
  | equals => actual = value
  | word => value ≠ [] ∧ (∀ c ∈ value, isAsciiBlank c = false) ∧ IsStretch isAsciiBlank value actual
  | dash => actual = value ∨ value ++ ['-'] <+: actual
  | start => value ≠ [] ∧ value <+: actual
  | finish => value ≠ [] ∧ value <:+ actual
  | part => value ≠ [] ∧ value <:+: actual

/-- Which elements a test represents: those that have the attribute, with a value that the comparison represents. -/
def AttributeTest.Represents (test : AttributeTest) (a : Attributes) : Prop :=
  ∃ actual, a.get? test.name = some actual ∧
    ∀ comparison value, test.comparison = some (comparison, value) → comparison.Represents value.toList actual.toList

/-- Whether the test asks for the empty text at the start, at the end or inside of a value. -/
def AttributeTest.IsHollow (test : AttributeTest) : Prop :=
  ∃ comparison ∈ [Comparison.start, .finish, .part], test.comparison = some (comparison, "")

instance (test : AttributeTest) : Decidable test.IsHollow := inferInstanceAs (Decidable (∃ _ ∈ _, _))

/-! ## Comparisons -/

theorem mem_asciiWords_iff {value actual : String} : value ∈ asciiWords actual ↔
    value.toList ≠ [] ∧ (∀ c ∈ value.toList, isAsciiBlank c = false) ∧
      IsStretch isAsciiBlank value.toList actual.toList := by
  rw [← mem_wordsBy_iff, asciiWords, List.mem_map]
  constructor
  · rintro ⟨w, hw, rfl⟩
    rwa [String.toList_ofList]
  · exact fun hw => ⟨value.toList, hw, String.ofList_toList⟩

/-- A comparison holds of the values that it represents and, with the empty text for a part of the value, of all. -/
theorem Comparison.holds_iff (comparison : Comparison) (value actual : String) : comparison.holds value actual = true ↔
    comparison.Represents value.toList actual.toList ∨ comparison ∈ [start, finish, part] ∧ value = "" := by
  cases comparison with
  | equals => simp [holds, Represents, String.toList_inj]
  | word => simp [holds, Represents, mem_asciiWords_iff]
  | dash => simp [holds, Represents, startsWith_eq_true_iff, String.toList_inj]
  | start =>
    by_cases hvalue : value = ""
    · simp [holds, hvalue, startsWith_eq_true_iff]
    · simp [holds, Represents, startsWith_eq_true_iff, hvalue]
  | finish =>
    by_cases hvalue : value = ""
    · simp [holds, hvalue, endsWith_eq_true_iff]
    · simp [holds, Represents, endsWith_eq_true_iff, hvalue]
  | part =>
    by_cases hvalue : value = ""
    · simp [holds, hvalue, contains, occurs_iff]
    · simp [holds, Represents, contains, occurs_iff, hvalue]

/-! ## Tests -/

/-- Every element that has an attribute satisfies a hollow test on it, and none is represented by it. -/
theorem AttributeTest.IsHollow.not_represents {test : AttributeTest} (h : test.IsHollow) (a : Attributes) :
    ¬test.Represents a := by
  rintro ⟨actual, -, hactual⟩
  obtain ⟨comparison, hmem, hcomparison⟩ := h
  have hrepresents := hactual comparison "" hcomparison
  simp only [List.mem_cons, List.not_mem_nil, or_false] at hmem
  rcases hmem with rfl | rfl | rfl <;> exact hrepresents.1 rfl

theorem AttributeTest.holds_iff (test : AttributeTest) (a : Attributes) : test.holds a = true ↔
    test.Represents a ∨ test.IsHollow ∧ (a.get? test.name).isSome = true := by
  obtain ⟨name, comparison⟩ := test
  cases comparison with
  | none => simp [holds, Represents, IsHollow, Option.isSome_iff_exists]
  | some compared =>
    obtain ⟨comparison, value⟩ := compared
    cases hget : a.get? name with
    | none => simp [holds, Represents, hget]
    | some actual =>
      have hhollow : (AttributeTest.mk name (some (comparison, value))).IsHollow ↔
          comparison ∈ [.start, .finish, .part] ∧ value = "" := by
        constructor
        · rintro ⟨other, hmem, heq⟩
          obtain ⟨rfl, rfl⟩ := Prod.mk.inj (Option.some.inj heq)
          exact ⟨hmem, rfl⟩
        · rintro ⟨hmem, rfl⟩
          exact ⟨comparison, hmem, rfl⟩
      rw [hhollow]
      simp [holds, Represents, hget, Comparison.holds_iff]

/-- An element satisfies a test exactly if the test represents it, or if the test is hollow and the element has the
attribute. So the tests that are satisfied by the elements they represent, and by no others, are those that are not
hollow. -/
theorem AttributeTest.holds_iff_represents (test : AttributeTest) :
    (∀ tag a, (Simple.attr test).holds tag a = true ↔
      test.Represents a ∨ test.IsHollow ∧ (a.get? test.name).isSome = true) ∧
    ((∀ tag a, (Simple.attr test).holds tag a = true ↔ test.Represents a) ↔ ¬test.IsHollow) := by
  have hholds (tag : String) (a : Attributes) : (Simple.attr test).holds tag a = true ↔
      test.Represents a ∨ test.IsHollow ∧ (a.get? test.name).isSome = true := test.holds_iff a
  refine ⟨hholds, fun hall hhollow => ?_, fun hnot tag a => ?_⟩
  · have hset : (Attributes.get? ⟨[(test.name, "")]⟩ test.name).isSome = true := by simp [Attributes.get?]
    have htrue := (hholds "" ⟨[(test.name, "")]⟩).2 (.inr ⟨hhollow, hset⟩)
    exact hhollow.not_represents _ ((hall _ _).1 htrue)
  · rw [hholds]
    simp [hnot]

/-- The selector `[a^=""]` can be read, and it is satisfied by an element that it does not represent. -/
theorem holds_hollow_start :
    Selector.parse? "[a^=\"\"]" = some ⟨[.attr ⟨"a", some (.start, "")⟩], []⟩ ∧
    (Simple.attr ⟨"a", some (.start, "")⟩).holds "p" ⟨[("a", "x")]⟩ = true ∧
    ¬AttributeTest.Represents ⟨"a", some (.start, "")⟩ ⟨[("a", "x")]⟩ :=
  ⟨by decide +kernel, by decide +kernel, AttributeTest.IsHollow.not_represents (by decide) _⟩

end EmailMarkup
