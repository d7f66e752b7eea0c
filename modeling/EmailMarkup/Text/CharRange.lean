/-!
# Character classes as ranges of code points
-/
namespace EmailMarkup.Text

/-- Whether a code point lies in one of the closed ranges of an ascending list. The search stops at
the first range that ends at or after it. -/
def inRanges (n : Nat) : List (Nat × Nat) → Bool
  | [] => false
  | (lo, hi) :: rest => if n ≤ hi then lo ≤ n else inRanges n rest

end EmailMarkup.Text
