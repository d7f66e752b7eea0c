import EmailMarkup.Layout.Columns
import EmailMarkup.Proofs.Text.Blank
import Mathlib.Algebra.Field.Rat
import Mathlib.Tactic.FieldSimp
import Mathlib.Tactic.Ring
/-!
# Columns that fill their row

Doubles round, so the laws of the layout are laws of the same definitions over the rational numbers. There the columns
of a row that share what the others leave fill it exactly, as soon as one of them has no width of its own
(`columnPixels_fills`). The argument is that a sum over the row is the sum of the widths that are declared, plus one
share for each column without one (`sum_map_getD`).
-/
namespace EmailMarkup.Layout

open EmailMarkup.Number

/-! ## Columns without a width of their own -/

/-- Whether a column has no width of its own: none is declared, or a blank one. -/
def isAuto (width : Option String) : Bool := width.all Text.isBlankText

theorem isEmpty_trim (s : String) : (Text.trim s).isEmpty = Text.isBlankText s := by
  have hempty : (Text.trim s).isEmpty = (Text.trimBoth Text.isBlank s.toList).isEmpty := by
    rw [Bool.eq_iff_iff, String.isEmpty_iff, List.isEmpty_iff, ← String.toList_eq_nil_iff, Text.trim,
      String.toList_ofList]
  rw [hempty, Bool.eq_iff_iff, List.isEmpty_iff, Text.isBlankText, List.all_eq_true]
  constructor
  · intro hnil c hc
    by_contra hblank
    have hmem := Text.mem_trimBoth hc (Bool.eq_false_iff.2 hblank)
    rw [hnil] at hmem
    cases hmem
  · intro hblank
    have hall := Text.trimBoth_append (p := Text.isBlank) (s := []) hblank (by simp) (by simp)
    rwa [List.append_nil] at hall

namespace ColumnWidth

variable {α : Type} [Measure α]

theorem parse_eq_auto_iff (width : Option String) : (parse width : ColumnWidth α) = auto ↔ isAuto width = true := by
  cases width with
  | none => simp [parse, isAuto]
  | some s =>
    simp only [parse, Option.map_some, isEmpty_trim, isAuto, Option.all_some]
    cases Text.isBlankText s with
    | true => simp
    | false =>
      simp only [Bool.false_eq_true, if_false, iff_false]
      split <;> simp

theorem resolve_eq_none_iff (total : α) (c : ColumnWidth α) : c.resolve total = none ↔ c = auto := by
  cases c <;> simp [resolve]

/-- The columns without a width of their own are those that get a share. -/
theorem resolve_parse_eq_none_iff (total : α) (width : Option String) :
    (parse width).resolve total = none ↔ isAuto width = true := by
  rw [resolve_eq_none_iff, parse_eq_auto_iff]

end ColumnWidth

section

variable {α : Type} [Measure α]

def resolved (widths : List (Option String)) (total : α) : List (Option α) :=
  widths.map fun w => (ColumnWidth.parse w).resolve total

theorem columnPixels_eq (widths : List (Option String)) (total : α) (policy : Distribution) :
    columnPixels widths total policy =
      (resolved widths total).map fun w => w.getD (autoWidth total policy (resolved widths total)) :=
  rfl

theorem getElem?_columnPixels {widths : List (Option String)} {i : Nat} {w : Option String} (h : widths[i]? = some w)
    (total : α) (policy : Distribution) : (columnPixels widths total policy)[i]? =
      some (((ColumnWidth.parse w).resolve total).getD (autoWidth total policy (resolved widths total))) := by
  simp [columnPixels_eq, resolved, h]

theorem length_columnPixels (widths : List (Option String)) (total : α) (policy : Distribution) :
    (columnPixels widths total policy).length = widths.length := by
  simp [columnPixels_eq, resolved]

/-- A column with a width of its own has it, whatever the others have. -/
theorem columnPixels_explicit {widths : List (Option String)} {i : Nat} {w : Option String} (h : widths[i]? = some w)
    (hw : isAuto w = false) (total : α) (policy : Distribution) : ∃ own,
      (ColumnWidth.parse w).resolve total = some own ∧ (columnPixels widths total policy)[i]? = some own := by
  cases hown : (ColumnWidth.parse w).resolve total with
  | none => simp [(ColumnWidth.resolve_parse_eq_none_iff total w).1 hown] at hw
  | some own => exact ⟨own, rfl, by rw [getElem?_columnPixels h, hown, Option.getD_some]⟩

/-- All columns without a width of their own have the same one. -/
theorem columnPixels_auto {widths : List (Option String)} {i : Nat} {w : Option String} (h : widths[i]? = some w)
    (hw : isAuto w = true) (total : α) (policy : Distribution) :
    (columnPixels widths total policy)[i]? = some (autoWidth total policy (resolved widths total)) := by
  rw [getElem?_columnPixels h, (ColumnWidth.resolve_parse_eq_none_iff total w).2 hw, Option.getD_none]

end

/-! ## Exact lengths -/

instance : Measure ℚ where
  ofNat n := n
  ofNumeral?
    | .decimal negative digits exponent => some ((if negative then -(digits : ℚ) else digits) * (10 : ℚ) ^ exponent)
    | .infinity _ | .undefined => none
  nothing := 0

theorem foldl_add_eq (lengths : List ℚ) (x : ℚ) : lengths.foldl (· + ·) x = x + sum lengths := by
  induction lengths generalizing x with
  | nil => exact (add_zero x).symm
  | cons y rest ih =>
    have hsum : sum (y :: rest) = rest.foldl (· + ·) (0 + y) := rfl
    rw [List.foldl_cons, ih, hsum, ih, zero_add, add_assoc]

theorem sum_cons (x : ℚ) (lengths : List ℚ) : sum (x :: lengths) = x + sum lengths := by
  have hsum : sum (x :: lengths) = lengths.foldl (· + ·) (0 + x) := rfl
  rw [hsum, foldl_add_eq, zero_add]

/-- The columns take what is declared and one share for each that declares nothing. -/
theorem sum_map_getD (columns : List (Option ℚ)) (share : ℚ) : sum (columns.map fun w => w.getD share) =
    sum (columns.filterMap id) + columns.countP Option.isNone * share := by
  induction columns with
  | nil => simp [sum]
  | cons w rest ih =>
    cases w with
    | none =>
      rw [List.map_cons, sum_cons, ih]
      simp only [List.filterMap_cons_none, id, Option.getD_none, List.countP_cons, Option.isNone_none, if_true]
      push_cast
      ring
    | some x =>
      rw [List.map_cons, sum_cons, ih, List.filterMap_cons_some (f := id) rfl, sum_cons]
      simp only [id, Option.getD_some, List.countP_cons, Option.isNone_some, Bool.false_eq_true, if_false, add_zero]
      ring

/-- The columns that share what the others leave fill the row. -/
theorem sum_equalRemainder (total : ℚ) {columns : List (Option ℚ)} (h : none ∈ columns) :
    sum (columns.map fun w => w.getD (autoWidth total .equalRemainder columns)) = total := by
  have hcount : (columns.countP Option.isNone : ℚ) ≠ 0 := by
    rw [Nat.cast_ne_zero, ← Nat.pos_iff_ne_zero, List.countP_pos_iff]
    exact ⟨none, h, rfl⟩
  have hshare : autoWidth total .equalRemainder columns =
      (total - sum (columns.filterMap id)) / (columns.countP Option.isNone : ℚ) := rfl
  rw [sum_map_getD, hshare]
  field_simp
  ring

/-- The percentages of equal columns make equal parts of the row. -/
theorem autoWidth_equalPercentage (total : ℚ) (columns : List (Option ℚ)) :
    autoWidth total .equalPercentage columns = total / columns.length := by
  have hshare : autoWidth total .equalPercentage columns =
      (100 : ℚ) / (columns.length : ℚ) * total / (100 : ℚ) := rfl
  rw [hshare]
  ring

/-- The columns of a row of width `total`, where each has the width it declares and those that declare none have equal
parts of what is left. -/
structure Fills (widths : List (Option String)) (total : ℚ) (pixels : List ℚ) : Prop where
  length_eq : pixels.length = widths.length
  explicit : ∀ (i : Nat) w, widths[i]? = some w → isAuto w = false →
    ∃ own, (ColumnWidth.parse w).resolve total = some own ∧ pixels[i]? = some own
  automatic : ∃ share, ∀ (i : Nat) w, widths[i]? = some w → isAuto w = true → pixels[i]? = some share
  sum_eq : sum pixels = total

/-- Columns that share what the others leave fill their row; columns with equal percentages have widths that depend on
the row and the number of columns only. -/
theorem columnPixels_fills (widths : List (Option String)) (total : ℚ) (h : ∃ w ∈ widths, isAuto w = true) :
    Fills widths total (columnPixels widths total .equalRemainder) ∧
      ∀ (i : Nat) w, widths[i]? = some w → isAuto w = true →
        (columnPixels widths total .equalPercentage)[i]? = some (total / widths.length) := by
  refine ⟨⟨length_columnPixels .., ?_, ⟨autoWidth total .equalRemainder (resolved widths total), ?_⟩, ?_⟩, ?_⟩
  · intro i w hi hw
    exact columnPixels_explicit hi hw total _
  · intro i w hi hw
    exact columnPixels_auto hi hw total _
  · obtain ⟨w, hw, hauto⟩ := h
    rw [columnPixels_eq]
    refine sum_equalRemainder total (List.mem_map.2 ⟨w, hw, ?_⟩)
    exact (ColumnWidth.resolve_parse_eq_none_iff total w).2 hauto
  · intro i w hi hw
    rw [columnPixels_auto hi hw, autoWidth_equalPercentage, resolved, List.length_map]

def mixedWidths : List (Option String) := [some "50%", some "abc", some "0px", none, some " "]

/-- The two columns without a width get half of what the percentage leaves, or a fifth of the row. -/
theorem columnPixels_fills_mixed :
    isAuto (some "abc") = false ∧ isAuto (some "0px") = false ∧ isAuto none = true ∧ isAuto (some " ") = true ∧
      Fills mixedWidths 600 [300, 0, 0, 150, 150] ∧
      (columnPixels mixedWidths (600 : ℚ) .equalPercentage)[4]? = some 120 := by
  obtain ⟨hfills, hequal⟩ := columnPixels_fills mixedWidths 600 ⟨none, by decide, rfl⟩
  have hpixels : columnPixels mixedWidths (600 : ℚ) .equalRemainder = [300, 0, 0, 150, 150] := by decide +kernel
  have hfifth : (600 : ℚ) / (mixedWidths.length : ℚ) = 120 := by norm_num [mixedWidths]
  rw [hpixels] at hfills
  refine ⟨by decide +kernel, by decide +kernel, rfl, by decide +kernel, hfills, ?_⟩
  rw [hequal 4 (some " ") rfl (by decide +kernel), hfifth]

end EmailMarkup.Layout
