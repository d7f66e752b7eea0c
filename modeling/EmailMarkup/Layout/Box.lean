import EmailMarkup.Layout.Length
/-!
# Boxes

How much width the padding and the side borders of a box take from its content.
-/
namespace EmailMarkup.Layout

structure Box where
  padding : Edges
  borderLeft : Float
  borderRight : Float

/-- The width of a border: its first word, nothing for a blank border or `none`. -/
def borderWidth (border : Option String) : Float :=
  match border.map Text.trim with
  | none => 0
  | some value =>
    if value = "none" then 0
    else match Text.words value with
      | [] => 0
      | width :: _ => pixels width 0

namespace Box

/-- The box of the given attributes. The shorthand border counts on both sides when neither side has
a border of its own. -/
def ofAttributes (padding border left right : Option String) : Box :=
  let padding := (padding.map Edges.parse).getD {}
  let left := borderWidth left
  let right := borderWidth right
  if left == 0 && right == 0 then ⟨padding, borderWidth border, borderWidth border⟩
  else ⟨padding, left, right⟩

def horizontal (b : Box) : Float :=
  b.padding.left + b.padding.right + b.borderLeft + b.borderRight

/-- The height taken by the padding. -/
def vertical (b : Box) : Float := b.padding.top + b.padding.bottom

end Box

end EmailMarkup.Layout
