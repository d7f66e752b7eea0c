import EmailMarkup.Attributes
/-!
# Attributes set in the head

The head of a template can give attributes to all elements of a tag, to elements of a named class,
and to elements of the finished HTML that a selector describes. Setting attributes for the same key
again adds to them, a later value winning.
-/
namespace EmailMarkup.Head

/-- Attributes by key, in the order in which the keys first came. -/
abbrev AttributeTable := List (String × Attributes)

def AttributeTable.add (table : AttributeTable) (key : String) (new : Attributes) : AttributeTable :=
  match table with
  | [] => [(key, Attributes.empty.merge new)]
  | (k, a) :: rest => if k = key then (k, a.merge new) :: rest else (k, a) :: add rest key new

/-- The attributes that the head sets. -/
structure AttributeRules where
  /-- By tag, or by the name for all tags. -/
  defaults : AttributeTable := []
  /-- By class. -/
  classes : AttributeTable := []
  /-- By selector. -/
  html : AttributeTable := []
  deriving DecidableEq, Repr, Inhabited

/-- Stands for every tag. -/
def everyTag : String := "mj-all"

/-- The attribute that names the classes of a node. -/
def classAttribute : String := "mj-class"

namespace AttributeRules

def addDefaults (r : AttributeRules) (tag : String) (a : Attributes) : AttributeRules :=
  { r with defaults := r.defaults.add tag a }

def addClass (r : AttributeRules) (name : String) (a : Attributes) : AttributeRules :=
  { r with classes := r.classes.add name a }

def addHtml (r : AttributeRules) (selector : String) (a : Attributes) : AttributeRules :=
  { r with html := r.html.add selector a }

def defaults? (r : AttributeRules) (tag : String) : Option Attributes := r.defaults.lookup tag

def class? (r : AttributeRules) (name : String) : Option Attributes := r.classes.lookup name

end AttributeRules

end EmailMarkup.Head
