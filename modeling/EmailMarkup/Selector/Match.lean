import EmailMarkup.Forest.Walk
import EmailMarkup.Selector.Basic
import EmailMarkup.Text.Blank
import EmailMarkup.Text.Search
/-!
# Matching elements

Whether a selector describes an element of a forest. The chain is followed from the element
outwards, and where several elements can take a place all of them are tried, so that `a b > c` is
found also if the nearest `b` is not below an `a`.
-/
namespace EmailMarkup

open EmailMarkup.Text

def Attributes.classes (a : Attributes) : List String :=
  match a.get? "class" with
  | some value => asciiWords value
  | none => []

def Comparison.holds (comparison : Comparison) (value actual : String) : Bool :=
  match comparison with
  | equals => actual == value
  | word => (asciiWords actual).contains value
  | dash => actual == value || startsWith (value.toList ++ ['-']) actual.toList
  | start => startsWith value.toList actual.toList
  | finish => endsWith value.toList actual.toList
  | part => contains actual value

def AttributeTest.holds (test : AttributeTest) (a : Attributes) : Bool :=
  match test.comparison, a.get? test.name with
  | none, actual => actual.isSome
  | some (comparison, value), some actual => comparison.holds value actual
  | some _, none => false

/-- Whether an element satisfies a condition. A pseudo-class or pseudo-element never holds. -/
def Simple.holds (s : Simple) (name : String) (a : Attributes) : Bool :=
  match s with
  | tag expected => sameLetters name expected
  | className c => a.classes.contains c
  | id value => a.get? "id" == some value
  | any => true
  | pseudoClass _ | pseudoElement _ => false
  | attr test => test.holds a

/-- Whether a node is an element that satisfies all conditions. -/
def Compound.holds (c : Compound) (f : Forest) (id : Nat) : Bool :=
  match f.element? id with
  | some (tag, a) => c.all fun s => s.holds tag a
  | none => false

/-- The elements that stand in a relation to a node, nearest first. -/
def Combinator.candidates (combinator : Combinator) (f : Forest) (id : Nat) : List Nat :=
  match combinator with
  | descendant => f.ancestors id
  | child => (f.parent? id).toList
  | next => ((f.precedingSiblings id).filter f.isElement).take 1
  | following => (f.precedingSiblings id).filter f.isElement

/-- Whether the chain can be followed from a node outwards. -/
def Selector.chainHolds (f : Forest) : List (Combinator × Compound) → Nat → Bool
  | [], _ => true
  | (combinator, compound) :: rest, id =>
    (combinator.candidates f id).any fun candidate =>
      compound.holds f candidate && chainHolds f rest candidate

def Selector.holds (s : Selector) (f : Forest) (id : Nat) : Bool :=
  Compound.holds s.subject f id && chainHolds f s.chain id

/-- How specific the most specific selector is among those that describe the element. -/
def Selector.bestMatch? (l : List Selector) (f : Forest) (id : Nat) : Option Specificity :=
  Specificity.max? ((l.filter fun s => s.holds f id).map Selector.specificity)

end EmailMarkup
