import EmailMarkup.Template.Basic
/-!
# What the reader returns

The reader keeps the open elements on a stack. Whatever follows in the text, each of them ends up
in the node that is returned, with the children it had and in the place where it was opened.
-/
namespace EmailMarkup

/-- A step that went well, and the rest. -/
theorem bind_eq_ok {ε α β : Type} {x : Except ε α} {f : α → Except ε β} {b : β} :
    x >>= f = .ok b ↔ ∃ a, x = .ok a ∧ f a = .ok b := by
  cases x <;> simp [bind, Except.bind]

namespace Template

/-- `n` holds the open element `o`, with the elements `outer` around it: each with the children it has,
then the element opened in it, then others. -/
def Open.Within : Open → List Open → Node → Prop
  | o, [], n => ∃ more, n = .element o.tag o.attributes (o.before.reverse ++ more)
  | o, parent :: outer, n =>
    ∃ children, Open.Within (parent.add (.element o.tag o.attributes children)) outer n

theorem Open.Within.of_add {o : Open} {c : Node} :
    ∀ {outer : List Open} {n : Node}, (o.add c).Within outer n → o.Within outer n
  | [], _, ⟨more, h⟩ => ⟨c :: more, by simpa [Open.add] using h⟩
  | _ :: _, _, ⟨children, h⟩ => ⟨children, h⟩

/-- What is open stays open until it is closed in its place. -/
theorem readContent_within {maxDepth fuel : Nat} {top : Open} {outer : List Open} {s r : List Char} {n : Node}
    (h : readContent maxDepth fuel top outer s = .ok (n, r)) : top.Within outer n := by
  fun_induction readContent maxDepth fuel top outer s with
  | case1 | case2 | case3 | case4 => cases h
  | case5 _ _ _ _ _ _ _ _ _ _ ih => exact (ih h).of_add
  | case6 _ _ _ _ _ _ _ _ _ _ ih =>
    obtain ⟨children, hn⟩ := ih h
    exact hn.of_add
  | case7 =>
    cases h
    exact ⟨[], by simp [Open.node]⟩
  | case8 _ top _ _ _ _ _ _ _ ih => exact ⟨top.before.reverse, ih h⟩
  | case9 => cases h
  | case10 _ _ _ _ _ _ _ _ _ _ _ _ _ ih => exact (ih h).of_add
  | case11 _ _ _ _ _ _ _ _ _ _ _ _ ih => exact ih h

end Template

end EmailMarkup
