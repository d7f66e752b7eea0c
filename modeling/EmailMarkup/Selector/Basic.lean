/-!
# Selectors

A selector describes elements by their tag, class, identifier and attributes, and by the elements
around them. It is a compound of simple conditions on the element itself, the *subject*, with a chain
of further compounds, from the subject outwards, each with its relation to the one before.
-/
namespace EmailMarkup

/-! ## Parts -/

inductive Comparison where
  | equals
  | word
  | dash
  | start
  | finish
  | part
  deriving DecidableEq, Repr

/-- A condition on an attribute: that it is set or, with a comparison, how its value compares. -/
structure AttributeTest where
  /-- In small letters. -/
  name : String
  comparison : Option (Comparison × String)
  deriving DecidableEq, Repr

/-- A condition on one element. -/
inductive Simple where
  | tag (name : String)
  | className (name : String)
  | id (name : String)
  | any
  | pseudoClass (name : String)
  | pseudoElement (name : String)
  | attr (test : AttributeTest)
  deriving DecidableEq, Repr

/-- Conditions on the same element. -/
abbrev Compound := List Simple

inductive Combinator where
  | descendant
  | child
  | next
  | following
  deriving DecidableEq, Repr

/-- A compound for the element itself, and what stands around it, nearest first. -/
structure Selector where
  subject : Compound
  chain : List (Combinator × Compound)
  deriving DecidableEq, Repr

/-! ## Specificity -/

/-- How specific a selector is: the number of identifiers, of classes and the like, and of tags and
the like. The counts have no bound here; they fit into 32 bits for every selector that is read from a
text of fewer than `2 ^ 32` characters. -/
structure Specificity where
  ids : Nat := 0
  classes : Nat := 0
  tags : Nat := 0
  deriving DecidableEq, Repr

namespace Specificity

def add (a b : Specificity) : Specificity := ⟨a.ids + b.ids, a.classes + b.classes, a.tags + b.tags⟩

/-- Whether `a` is at most as specific as `b`: identifiers count before classes, classes before
tags. -/
def le (a b : Specificity) : Bool :=
  a.ids < b.ids || (a.ids == b.ids &&
    (a.classes < b.classes || (a.classes == b.classes && a.tags ≤ b.tags)))

def max? : List Specificity → Option Specificity
  | [] => none
  | a :: rest => some (rest.foldl (fun best b => if best.le b then b else best) a)

def sum (l : List Specificity) : Specificity := l.foldl add {}

end Specificity

namespace Simple

/-- Whether the condition is on more than the element, so that no `style` attribute can express
it. -/
def isPseudo : Simple → Bool
  | pseudoClass _ | pseudoElement _ => true
  | _ => false

def specificity : Simple → Specificity
  | id _ => ⟨1, 0, 0⟩
  | className _ | pseudoClass _ | attr _ => ⟨0, 1, 0⟩
  | tag _ | pseudoElement _ => ⟨0, 0, 1⟩
  | any => {}

end Simple

namespace Selector

/-- All compounds, the subject first. -/
def compounds (s : Selector) : List Compound := s.subject :: s.chain.map Prod.snd

def specificity (s : Selector) : Specificity :=
  .sum (s.compounds.flatten.map Simple.specificity)

/-- Whether the selector is about one element only. -/
def isSimple (s : Selector) : Bool := s.chain.isEmpty

def hasPseudo (s : Selector) : Bool := s.compounds.flatten.any Simple.isPseudo

end Selector

end EmailMarkup
