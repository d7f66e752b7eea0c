import EmailMarkup.Number.Shortest
/-!
# The characters of numbers

A number is written with digits, a sign and a point, or as one of the words for what is no finite number. So it holds
no mark of markup and no unit, whatever the number is.
-/
namespace EmailMarkup.Number

/-- The characters with which numbers are written. -/
def IsNumberChar (c : Char) : Prop := c.isDigit = true ∨ c ∈ ['-', '.', 'N', 'a', 'i', 'n', 'f']

instance : DecidablePred IsNumberChar := fun c =>
  inferInstanceAs (Decidable (c.isDigit = true ∨ c ∈ ['-', '.', 'N', 'a', 'i', 'n', 'f']))

theorem isDigit_of_mem_repr {n : Nat} {c : Char} (hc : c ∈ n.repr.toList) : c.isDigit = true := by
  rw [Nat.toList_repr] at hc
  exact Nat.isDigit_of_mem_toDigits (by decide) (by decide) hc

theorem mem_toString {n : Int} {c : Char} (hc : c ∈ (toString n).toList) : IsNumberChar c := by
  change c ∈ (Int.repr n).toList at hc
  cases n with
  | ofNat n => exact .inl (isDigit_of_mem_repr hc)
  | negSucc n =>
    rw [Int.repr, String.toList_append, List.mem_append] at hc
    rcases hc with hc | hc
    · exact .inr (by simp_all)
    · exact .inl (isDigit_of_mem_repr hc)

theorem mem_positional {digits : Nat} {place : Int} {c : Char} (hc : c ∈ (positional digits place).toList) :
    IsNumberChar c := by
  have hdigit {d : Char} (hd : d ∈ Nat.toDigits 10 digits) : d.isDigit = true :=
    Nat.isDigit_of_mem_toDigits (by decide) (by decide) hd
  have hzero {d : Char} {k : Nat} (hd : d ∈ List.replicate k '0') : d.isDigit = true := by
    rw [List.eq_of_mem_replicate hd]
    decide
  unfold positional at hc
  extract_lets ds behind ds' whole fraction at hc
  have hds {d : Char} (hd : d ∈ ds') : d.isDigit = true := (List.mem_append.1 hd).elim hzero hdigit
  have hwhole {d : Char} (hd : d ∈ whole) : d.isDigit = true := hds (List.mem_of_mem_take hd)
  have hfraction {d : Char} (hd : d ∈ fraction) : d.isDigit = true := by
    have hdrop := (List.dropWhile_sublist _).subset (List.mem_reverse.1 hd)
    exact hds (List.mem_of_mem_drop (List.mem_reverse.1 hdrop))
  split at hc
  · rw [String.toList_ofList, List.mem_append] at hc
    exact .inl (hc.elim hdigit hzero)
  · split at hc
    · rw [String.toList_ofList] at hc
      exact .inl (hwhole hc)
    · simp only [String.toList_ofList, List.mem_append, List.mem_singleton] at hc
      rcases hc with (hc | rfl) | hc
      · exact .inl (hwhole hc)
      · exact .inr (by decide)
      · exact .inl (hfraction hc)

theorem mem_text {x : Float} {c : Char} (hc : c ∈ (text x).toList) : IsNumberChar c := by
  have hword {s : String} (hs : ∀ d ∈ s.toList, d ∈ ['-', '.', 'N', 'a', 'i', 'n', 'f']) (hc : c ∈ s.toList) :
      IsNumberChar c := .inr (hs c hc)
  unfold text at hc
  split at hc
  · exact hword (by simp) hc
  · split at hc
    · exact hword (by simp) hc
    · exact hword (by simp) hc
  · rename_i negative mantissa exponent _
    extract_lets magnitude at hc
    have hmagnitude (hm : c ∈ magnitude.toList) : IsNumberChar c := by
      unfold magnitude at hm
      split at hm
      · rw [show c = '0' by simpa using hm]
        exact .inl (by decide)
      · exact mem_positional hm
    split at hc
    · rw [String.toList_append, List.mem_append] at hc
      exact hc.elim (hword (by simp)) hmagnitude
    · exact hmagnitude hc

theorem mem_widthText {x : Float} {c : Char} (hc : c ∈ (widthText x).toList) : IsNumberChar c := by
  unfold widthText at hc
  split at hc
  · exact mem_toString hc
  · exact mem_text hc

end EmailMarkup.Number
