import EmailMarkup.Cascade
import EmailMarkup.Component.Builtin
import EmailMarkup.Head.Basic
import EmailMarkup.Text.Search
/-!
# Fonts in use

A web font is linked when some component of the body names it. Some fonts have a known address; the
head can give others, or another address.
-/
namespace EmailMarkup.Head

/-- The fonts with a known address. -/
def knownFonts : List Font :=
  [⟨"Open Sans", "https://fonts.googleapis.com/css?family=Open+Sans:300,400,500,700"⟩,
    ⟨"Droid Sans", "https://fonts.googleapis.com/css?family=Droid+Sans:300,400,500,700"⟩,
    ⟨"Lato", "https://fonts.googleapis.com/css?family=Lato:300,400,500,700"⟩,
    ⟨"Roboto", "https://fonts.googleapis.com/css?family=Roboto:300,400,500,700"⟩,
    ⟨"Ubuntu", "https://fonts.googleapis.com/css?family=Ubuntu:300,400,500,700"⟩]

namespace StyleBook

/-- The fonts that can be linked: the known ones, then those that only the head knows, by name. -/
def availableFonts (b : StyleBook) : List Font :=
  let own := b.addresses.filter fun e => !knownFonts.any fun f => f.name == e.1
  (knownFonts.map fun f => { f with address := (b.address? f.name).getD f.address }) ++
    (own.mergeSort fun x y => !(y.1 < x.1)).map fun (name, address) => ⟨name, address⟩

/-- Links a font if it is among the families and not linked yet. -/
def linkFont (family : String) (b : StyleBook) (f : Font) : StyleBook :=
  if Text.contains family f.name && !b.hasFont f.name then b.addFont f.name f.address else b

def linkFamily (b : StyleBook) (family : String) : StyleBook :=
  b.availableFonts.foldl (linkFont family) b

end StyleBook

/-- The families that the built-in components of a subtree name. -/
def families (rules : AttributeRules) (n : Node) : List String :=
  n.preorder.filterMap fun n => do
    let b ← n.tag?.bind Builtin.ofTag?
    (Cascade.mk n rules b.defaults).nonEmpty? "font-family"

/-- Links the fonts that the body names. -/
def linkFonts (h : Head) (body : Node) : Head :=
  { h with styles := (families h.rules body).foldl StyleBook.linkFamily h.styles }

end EmailMarkup.Head
