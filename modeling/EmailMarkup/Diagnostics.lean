import EmailMarkup.Text.Search
/-!
# Warnings of a compile

A warning names the component that raised it. The list of warnings keeps the order of first
occurrence, and a warning whose shown text is already there is not recorded again.
-/
namespace EmailMarkup

structure Diagnostic where
  component : String
  message : String
  deriving DecidableEq, Repr

/-- The text of a warning: its component in brackets, then its message. -/
def Diagnostic.shown (d : Diagnostic) : String := s!"[{d.component}] {d.message}"

theorem Diagnostic.map_shown_nil : [] = [].map Diagnostic.shown := rfl

/-- The warnings of one compile, in order of first occurrence, and the texts they are shown with. -/
structure Diagnostics where
  entries : List Diagnostic := []
  seen : List String := []
  seen_eq : seen = entries.map Diagnostic.shown := by exact Diagnostic.map_shown_nil
  deriving DecidableEq, Repr

namespace Diagnostics

/-- Records a warning unless its shown text was seen. -/
def warn (ds : Diagnostics) (component message : String) : Diagnostics :=
  let d : Diagnostic := ⟨component, message⟩
  if ds.seen.contains d.shown then ds
  else ⟨ds.entries ++ [d], ds.seen ++ [d.shown], by rw [ds.seen_eq, List.map_append]; rfl⟩

/-- What was seen is what is shown of the entries. -/
theorem entries_warn (ds : Diagnostics) (component message : String) :
    (ds.warn component message).entries =
      if ∃ e ∈ ds.entries, e.shown = Diagnostic.shown ⟨component, message⟩ then ds.entries
      else ds.entries ++ [⟨component, message⟩] := by
  have hseen : ds.seen.contains (Diagnostic.shown ⟨component, message⟩) = true ↔
      ∃ e ∈ ds.entries, e.shown = Diagnostic.shown ⟨component, message⟩ := by
    rw [ds.seen_eq, List.contains_iff_mem, List.mem_map]
  rw [warn]
  by_cases h : ∃ e ∈ ds.entries, e.shown = Diagnostic.shown ⟨component, message⟩
  · rw [if_pos h, if_pos (hseen.2 h)]
  · rw [if_neg h, if_neg (mt hseen.1 h)]

/-- Whether the message of some warning holds `needle`. -/
def mentions (ds : Diagnostics) (needle : String) : Bool :=
  ds.entries.any fun d => Text.contains d.message needle

end Diagnostics

end EmailMarkup
