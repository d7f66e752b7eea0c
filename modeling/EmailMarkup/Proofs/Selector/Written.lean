import EmailMarkup.Proofs.Text.Nesting
import EmailMarkup.Selector.Reader
/-!
# Selectors as text

`Selector.text` writes a selector from the outermost compound to the subject, and `listText` several of them with commas
between them. `WellFormed` says which selectors can be written: their names are names, a tag or `*` stands first in its
compound, a quoted value holds no double quote, and the argument of a pseudo-class holds neither quotes nor square
brackets and closes the parentheses it opens.
-/
namespace EmailMarkup

open EmailMarkup.Text

/-! ## Texts -/

def Comparison.text : Comparison → List Char
  | equals => ['=']
  | word => ['~', '=']
  | dash => ['|', '=']
  | start => ['^', '=']
  | finish => ['$', '=']
  | part => ['*', '=']

def AttributeTest.text (test : AttributeTest) : List Char :=
  match test.comparison with
  | none => test.name.toList
  | some (comparison, value) => test.name.toList ++ (comparison.text ++ '"' :: (value.toList ++ ['"']))

def Simple.text : Simple → List Char
  | tag name => name.toList
  | className name => '.' :: name.toList
  | id name => '#' :: name.toList
  | any => ['*']
  | pseudoClass name => ':' :: name.toList
  | pseudoElement name => ':' :: ':' :: name.toList
  | attr test => '[' :: (test.text ++ [']'])

def Compound.text (c : Compound) : List Char := c.flatMap Simple.text

/-- What stands between two compounds. -/
def Combinator.text : Combinator → List Char
  | descendant => [' ']
  | child => [' ', '>', ' ']
  | next => [' ', '+', ' ']
  | following => [' ', '~', ' ']

namespace Selector

/-- The compounds of a chain, the outermost first, each with the combinator behind it. -/
def chainText : List (Combinator × Compound) → List Char
  | [] => []
  | (combinator, compound) :: outer => chainText outer ++ (Compound.text compound ++ combinator.text)

def text (s : Selector) : List Char := chainText s.chain ++ Compound.text s.subject

def listText (l : List Selector) : List Char := [',', ' '].intercalate (l.map text)

/-! ## Selectors that can be written -/

/-- Letters, digits, the dash and the underscore. -/
def isIdentChar (c : Char) : Bool := c.isAlphanum || c == '-' || c == '_'

/-- A name of such characters. -/
def IsIdent (s : List Char) : Prop := s ≠ [] ∧ ∀ c ∈ s, isIdentChar c = true

instance (s : List Char) : Decidable (IsIdent s) :=
  decidable_of_iff (s ≠ [] ∧ s.all isIdentChar = true) (by rw [IsIdent, List.all_eq_true])

def IsLowerIdent (s : List Char) : Prop := IsIdent s ∧ ∀ c ∈ s, c.isUpper = false

instance (s : List Char) : Decidable (IsLowerIdent s) :=
  decidable_of_iff (IsIdent s ∧ s.all (!Char.isUpper ·) = true) (by simp [IsLowerIdent])

/-- The characters that may not stand in the argument of a pseudo-class. -/
def outsideArguments : List Char := ['"', '\'', '[', ']']

/-- A text in which every parenthesis is closed. -/
inductive Balanced : List Char → Prop
  | nil : Balanced []
  | char {c : Char} {s : List Char} (hopen : c ≠ '(') (hclose : c ≠ ')') (hc : c ∉ outsideArguments) (hs : Balanced s) :
      Balanced (c :: s)
  | group {s t : List Char} (hs : Balanced s) (ht : Balanced t) : Balanced ('(' :: (s ++ ')' :: t))

/-- The argument of a pseudo-class with its parentheses, or nothing. -/
def IsArgument (s : List Char) : Prop := s = [] ∨ ∃ inside, s = '(' :: (inside ++ [')']) ∧ Balanced inside

/-- The name of a pseudo-class or pseudo-element, with its argument if it has one. -/
def IsPseudoName (s : List Char) : Prop :=
  ∃ name argument, s = name ++ argument ∧ IsLowerIdent name ∧ IsArgument argument

end Selector

open Selector

def Simple.WellFormed : Simple → Prop
  | tag name => ∃ c r, name.toList = c :: r ∧ (c.isAlpha = true ∨ c = '_') ∧ ∀ d ∈ r, isIdentChar d = true
  | className name | id name => IsIdent name.toList
  | any => True
  | pseudoClass name => IsPseudoName name.toList ∧ name ∉ singleColonElements
  | pseudoElement name => IsPseudoName name.toList
  | attr test => IsLowerIdent test.name.toList ∧ ∀ comparison value, test.comparison = some (comparison, value) →
      '"' ∉ value.toList

/-- Whether a condition can only stand first in its compound. -/
def Simple.isLeading : Simple → Bool
  | tag _ | any => true
  | _ => false

structure Compound.WellFormed (c : Compound) : Prop where
  ne_nil : c ≠ []
  simple : ∀ s ∈ c, s.WellFormed
  leading : ∀ s ∈ c.tail, s.isLeading = false

/-! ## Kinds of conditions -/

def Simple.countsAsId : Simple → Bool
  | id _ => true
  | _ => false

/-- Classes, attribute tests and pseudo-classes. -/
def Simple.countsAsClass : Simple → Bool
  | className _ | attr _ | pseudoClass _ => true
  | _ => false

/-- Tags and pseudo-elements. -/
def Simple.countsAsTag : Simple → Bool
  | tag _ | pseudoElement _ => true
  | _ => false

def Selector.WellFormed (s : Selector) : Prop := ∀ c ∈ s.compounds, Compound.WellFormed c

end EmailMarkup
