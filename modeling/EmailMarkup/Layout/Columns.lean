import EmailMarkup.Layout.Length
import EmailMarkup.Number.Shortest
/-!
# Columns side by side

Sibling columns share the width of their row. A column has a width of its own, in percent of the row
or in pixels, or it is automatic and takes its part of the rest.
-/
namespace EmailMarkup.Layout

open EmailMarkup.Number

inductive ColumnWidth (α : Type) where
  | auto
  | percent (value : α)
  | pixels (value : α)
  deriving Repr

/-- How automatic columns are sized: an equal share of the whole row, or an equal share of what the
other columns leave. -/
inductive Distribution where
  | equalPercentage
  | equalRemainder
  deriving DecidableEq, Repr

namespace ColumnWidth

variable {α : Type} [Measure α]

/-- Reads a declared width. A missing or blank one is automatic. -/
def parse (width : Option String) : ColumnWidth α :=
  match width.map Text.trim with
  | none => auto
  | some value =>
    if value.isEmpty then auto
    else match Text.dropEnd? "%" value with
      | some share => percent (Layout.pixels share zero)
      | none => pixels (Layout.pixels value zero)

/-- The pixels of a column with a width of its own in a row of width `total`. -/
def resolve (total : α) : ColumnWidth α → Option α
  | auto => none
  | percent share => some (hundredths total share)
  | pixels value => some value

end ColumnWidth

/-- The sum of lengths, from left to right. -/
def sum {α : Type} [Measure α] (lengths : List α) : α := lengths.foldl (· + ·) Measure.nothing

/-- The width of an automatic column among `columns`, given by what each column resolves to. -/
def autoWidth {α : Type} [Measure α] (total : α) (policy : Distribution) (columns : List (Option α)) :
    α :=
  match policy with
  | .equalPercentage =>
    Measure.ofNat 100 / Measure.ofNat columns.length * total / Measure.ofNat 100
  | .equalRemainder =>
    (total - sum (columns.filterMap id)) / Measure.ofNat (columns.countP Option.isNone)

def columnPixels {α : Type} [Measure α] (widths : List (Option String)) (total : α)
    (policy : Distribution) : List α :=
  let columns := widths.map fun w => (ColumnWidth.parse w).resolve total
  columns.map fun w => w.getD (autoWidth total policy columns)

/-- The responsive width of each column: a share in percent without its sign, an equal share for an
automatic column, any other declared width as it stands. -/
def columnSpecs (widths : List (Option String)) : List String :=
  let share := widthText (100 / Float.ofNat (max widths.length 1))
  widths.map fun width =>
    match width.map Text.trim with
    | none => share
    | some value =>
      if value.isEmpty then share
      else match Text.dropEnd? "%" value with
        | some percent => Text.trim percent
        | none => value

end EmailMarkup.Layout
