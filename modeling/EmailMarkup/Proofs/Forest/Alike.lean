import EmailMarkup.Proofs.Forest.Trees
/-!
# Forests that differ in attributes

`Alike R f g` says that `f` and `g` have the same slots with the same links and the same contents, but for the
attributes of the elements, which are related by `R`. Walks do not look at attributes, so they visit the same
nodes in both (`Alike.elements_eq`), and edits of the links keep forests alike (`Alike.append`).
-/
namespace EmailMarkup.Forest

/-- Contents that are the same, but for attributes related by `R`. -/
def Content.Alike (R : Attributes → Attributes → Prop) : Content → Content → Prop
  | .element tag a, .element tag' a' => tag = tag' ∧ R a a'
  | c, c' => c = c'

/-- Slots with the same links and with contents that are alike. -/
structure Slot.Alike (R : Attributes → Attributes → Prop) (s s' : Slot) : Prop where
  content : s.content.Alike R s'.content
  parent : s.parent = s'.parent
  children : s.children = s'.children

/-- Forests of the same shape, whose elements have attributes related by `R`. -/
structure Alike (R : Nat → Attributes → Attributes → Prop) (f g : Forest) : Prop where
  size_eq : f.size = g.size
  slot : ∀ {id s}, f.slot? id = some s → ∃ s', g.slot? id = some s' ∧ s.Alike (R id) s'

theorem Content.Alike.refl {R : Attributes → Attributes → Prop} (h : ∀ a, R a a) (c : Content) : c.Alike R c := by
  cases c with
  | element tag a => exact ⟨rfl, h a⟩
  | _ => rfl

namespace Alike

variable {R : Nat → Attributes → Attributes → Prop} {f g : Forest}

theorem refl (h : ∀ id a, R id a a) (f : Forest) : Alike R f f where
  size_eq := rfl
  slot {id s} hs := ⟨s, hs, .refl (h id) _, rfl, rfl⟩

/-- Without elements, there are no attributes to relate. -/
theorem empty (R : Nat → Attributes → Attributes → Prop) : Alike R .empty .empty where
  size_eq := rfl
  slot {id s} hs := by
    refine ⟨s, hs, ?_, rfl, rfl⟩
    cases id with
    | zero =>
      obtain rfl := Option.some.inj hs
      rfl
    | succ id => simp [slot?, Forest.empty] at hs

/-- Both forests have a slot of this number, or neither has. -/
theorem slot?_cases (h : Alike R f g) (id : Nat) :
    (f.slot? id = none ∧ g.slot? id = none) ∨ ∃ s s', f.slot? id = some s ∧ g.slot? id = some s' ∧ s.Alike (R id) s' := by
  cases hs : f.slot? id with
  | some s =>
    obtain ⟨s', hs', ha⟩ := h.slot hs
    exact .inr ⟨s, s', rfl, hs', ha⟩
  | none =>
    have hsize : g.size ≤ id := by
      rw [← h.size_eq]
      exact Array.getElem?_eq_none_iff.1 hs
    exact .inl ⟨rfl, Array.getElem?_eq_none_iff.2 hsize⟩

/-! ## Reading -/

theorem parent?_eq (h : Alike R f g) (id : Nat) : f.parent? id = g.parent? id := by
  rcases h.slot?_cases id with ⟨hf, hg⟩ | ⟨s, s', hf, hg, ha⟩
  · simp [parent?, hf, hg]
  · simp [parent?, hf, hg, ha.parent]

theorem children_eq (h : Alike R f g) (id : Nat) : f.children id = g.children id := by
  rcases h.slot?_cases id with ⟨hf, hg⟩ | ⟨s, s', hf, hg, ha⟩
  · simp [children, hf, hg]
  · simp [children, hf, hg, ha.children]

/-- An element is one in both forests, with the same tag. -/
theorem element?_cases (h : Alike R f g) (id : Nat) : (f.element? id = none ∧ g.element? id = none) ∨
    ∃ tag a a', f.element? id = some (tag, a) ∧ g.element? id = some (tag, a') ∧ R id a a' := by
  rcases h.slot?_cases id with ⟨hf, hg⟩ | ⟨⟨c, p, l⟩, ⟨c', p', l'⟩, hf, hg, hc, -, -⟩
  · exact .inl ⟨by simp [element?, hf], by simp [element?, hg]⟩
  · cases c with
    | element tag a =>
      cases c' with
      | element tag' a' =>
        obtain ⟨rfl, ha⟩ : tag = tag' ∧ R id a a' := hc
        exact .inr ⟨tag, a, a', by simp [element?, hf], by simp [element?, hg], ha⟩
      | _ => cases hc
    | _ =>
      left
      cases c' with
      | element tag' a' => cases hc
      | _ => exact ⟨by simp [element?, hf], by simp [element?, hg]⟩

theorem tag?_eq (h : Alike R f g) (id : Nat) : f.tag? id = g.tag? id := by
  rcases h.element?_cases id with ⟨hf, hg⟩ | ⟨tag, a, a', hf, hg, -⟩ <;> simp [tag?, hf, hg]

theorem isElement_eq (h : Alike R f g) (id : Nat) : f.isElement id = g.isElement id := by
  rcases h.element?_cases id with ⟨hf, hg⟩ | ⟨tag, a, a', hf, hg, -⟩ <;> simp [isElement, hf, hg]

theorem ancestors_eq (h : Alike R f g) (id : Nat) : f.ancestors id = g.ancestors id := by
  have hwithin (bound : Nat) (next : Option Nat) : f.ancestorsWithin bound next = g.ancestorsWithin bound next := by
    induction bound generalizing next with
    | zero => simp [ancestorsWithin]
    | succ bound ih =>
      cases next with
      | none => rfl
      | some p => rw [ancestorsWithin, ancestorsWithin, h.parent?_eq, ih]
  rw [ancestors, ancestors, h.size_eq, h.parent?_eq, hwithin]

theorem precedingSiblings_eq (h : Alike R f g) (id : Nat) : f.precedingSiblings id = g.precedingSiblings id := by
  simp only [precedingSiblings, h.parent?_eq, h.children_eq]

theorem elements_eq (h : Alike R f g) : f.elements = g.elements := by
  have hwithin (bound id : Nat) : f.descendantsWithin bound id = g.descendantsWithin bound id := by
    induction bound generalizing id with
    | zero => rfl
    | succ bound ih =>
      rw [descendantsWithin, descendantsWithin, h.children_eq]
      rw [funext ih]
  have helement : f.isElement = g.isElement := funext h.isElement_eq
  rw [elements, elements, descendants, descendants, h.size_eq, hwithin, helement]

/-! ## Editing -/

/-- An edit of the links, the same in both. -/
theorem modify (h : Alike R f g) (id : Nat) {change : Slot → Slot} (hcontent : ∀ s, (change s).content = s.content)
    (hlinks : ∀ s s', s.parent = s'.parent → s.children = s'.children →
      (change s).parent = (change s').parent ∧ (change s).children = (change s').children) :
    Alike R (f.modify id change) (g.modify id change) where
  size_eq := by simp [h.size_eq]
  slot {i s} hs := by
    rw [slot?_modify] at hs ⊢
    split at hs
    · rename_i hi
      obtain ⟨t, ht, rfl⟩ := Option.map_eq_some_iff.1 hs
      obtain ⟨t', ht', ha⟩ := h.slot ht
      obtain ⟨hp, hc⟩ := hlinks t t' ha.parent ha.children
      refine ⟨change t', by simp [hi, ht'], ?_, hp, hc⟩
      rw [hcontent, hcontent]
      exact ha.content
    · rename_i hi
      obtain ⟨s', hs', ha⟩ := h.slot hs
      exact ⟨s', by simpa [hi] using hs', ha⟩

theorem modify_children (h : Alike R f g) (id : Nat) (edit : List Nat → List Nat) :
    Alike R (f.modify id fun s => { s with children := edit s.children })
      (g.modify id fun s => { s with children := edit s.children }) :=
  h.modify id (fun _ => rfl) fun _ _ hp hc => ⟨hp, congrArg edit hc⟩

theorem modify_parent (h : Alike R f g) (id : Nat) (p : Option Nat) :
    Alike R (f.modify id fun s => { s with parent := p }) (g.modify id fun s => { s with parent := p }) :=
  h.modify id (fun _ => rfl) fun _ _ _ hc => ⟨rfl, hc⟩

theorem detach (h : Alike R f g) (id : Nat) : Alike R (f.detach id) (g.detach id) := by
  rw [Forest.detach, Forest.detach, ← h.parent?_eq]
  cases f.parent? id with
  | none => exact h
  | some parent =>
    simp only [removeChild, ← h.children_eq]
    split
    · exact (h.modify_children parent (·.erase id)).modify_parent id none
    · exact h

/-- Appending a node keeps forests alike. -/
theorem append (h : Alike R f g) (parent child : Nat) : Alike R (f.append parent child) (g.append parent child) :=
  ((h.detach child).modify_children parent (· ++ [child])).modify_parent child (some parent)

/-- A new element in both. -/
theorem alloc (h : Alike R f g) (tag : String) {a a' : Attributes} (ha : R f.size a a') :
    Alike R (f.alloc (.element tag a)).1 (g.alloc (.element tag a')).1 where
  size_eq := by simp [h.size_eq]
  slot {i s} hs := by
    rw [slot?_alloc] at hs ⊢
    split at hs
    · rename_i hi
      obtain rfl := Option.some.inj hs
      exact ⟨{ content := .element tag a' }, by rw [if_pos (by rw [hi, h.size_eq])], ⟨rfl, hi ▸ ha⟩, rfl, rfl⟩
    · rename_i hi
      obtain ⟨s', hs', ha'⟩ := h.slot hs
      exact ⟨s', by rwa [if_neg (by rwa [← h.size_eq])], ha'⟩

/-- Setting an attribute in one of them. -/
theorem setAttribute (h : Alike R f g) (id : Nat) (name value : String)
    (hset : ∀ a a', R id a a' → R id a (a'.insert name value)) : Alike R f (g.setAttribute id name value) where
  size_eq := by simp [Forest.setAttribute, h.size_eq]
  slot {i s} hs := by
    obtain ⟨s', hs', hc, hp, hk⟩ := h.slot hs
    rw [Forest.setAttribute, slot?_modify]
    split
    · rename_i hi
      subst hi
      refine ⟨_, by rw [hs']; rfl, ?_⟩
      obtain ⟨c, p, l⟩ := s
      obtain ⟨c', p', l'⟩ := s'
      cases c' with
      | element tag' a' =>
        cases c with
        | element tag a => exact ⟨⟨hc.1, hset a a' hc.2⟩, hp, hk⟩
        | _ => cases hc
      | _ => exact ⟨hc, hp, hk⟩
    · exact ⟨s', hs', hc, hp, hk⟩

end Alike

end EmailMarkup.Forest
