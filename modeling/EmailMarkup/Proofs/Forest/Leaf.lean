import EmailMarkup.Proofs.Forest.Links
/-!
# Nodes added at the end of a walk

A new node that becomes the last child of `q` comes last in the walk down from every node from which `q` is reached by
going to the last child again and again (`LastBelow.descendantsWithin_eq`). Other walks do not see it.
-/
namespace EmailMarkup.Forest

/-! ## One more node -/

/-- Adds a node as the last child of `p`. -/
def addLeaf (f : Forest) (p : Nat) (content : Content) : Forest := (f.alloc content).1.append p f.size

variable {f g : Forest} {p q : Nat} {content : Content}

theorem addLeaf_eq (f : Forest) (p : Nat) (content : Content) : f.addLeaf p content =
    ((f.alloc content).1.modify p fun s => { s with children := s.children ++ [f.size] }).modify f.size
      fun s => { s with parent := some p } := by
  refine append_eq ?_ p
  have hnone : f.slot? f.size = none := Array.getElem?_eq_none_iff.2 (Nat.le_refl _)
  rw [parent?_alloc, parent?, hnone]
  rfl

@[simp] theorem size_addLeaf (f : Forest) (p : Nat) (content : Content) : (f.addLeaf p content).size = f.size + 1 := by
  simp [addLeaf]

theorem children_addLeaf (hp : p < f.size) (i : Nat) : (f.addLeaf p content).children i =
    if i = p then f.children p ++ [f.size] else f.children i := by
  rw [addLeaf_eq, children_modify_parent, children_modify_children _ i (fun l => l ++ [f.size]) (by simp; omega),
    children_alloc, children_alloc]

theorem parent?_addLeaf (i : Nat) : (f.addLeaf p content).parent? i = if i = f.size then some p else f.parent? i := by
  rw [addLeaf_eq, parent?_modify_parent _ i (by simp), parent?_modify_children _ i fun l => l ++ [f.size], parent?_alloc]

/-- An edit of links leaves elements as they are. -/
theorem element?_modify (f : Forest) (i : Nat) {change : Slot → Slot} (h : ∀ s, (change s).content = s.content) (j : Nat) :
    (f.modify i change).element? j = f.element? j := by
  rw [element?, element?, slot?_modify]
  by_cases hi : i = j
  · rw [if_pos hi]
    cases f.slot? j with
    | none => rfl
    | some s =>
      have hcontent := h s
      rw [Option.map_some]
      generalize change s = s' at hcontent
      obtain ⟨old, _, _⟩ := s
      obtain ⟨new, _, _⟩ := s'
      obtain rfl : new = old := hcontent
      cases new <;> rfl
  · rw [if_neg hi]

theorem element?_addLeaf (tag : String) (attributes : Attributes) (i : Nat) :
    (f.addLeaf p (.element tag attributes)).element? i = if i = f.size then some (tag, attributes) else f.element? i := by
  rw [addLeaf_eq, element?_modify, element?_modify, element?, slot?_alloc]
  · by_cases hi : i = f.size
    · rw [if_pos hi, if_pos hi]
    · rw [if_neg hi, if_neg hi, element?]
  · exact fun _ => rfl
  · exact fun _ => rfl

/-! ## Walks -/

/-- From `x`, `q` is reached by going `n` times to the last child. -/
inductive LastBelow (f : Forest) (q : Nat) : Nat → Nat → Prop
  | refl : LastBelow f q q 0
  | child {x y n : Nat} {l : List Nat} (hchildren : f.children x = l ++ [y]) (h : LastBelow f q y n) : LastBelow f q x (n + 1)

/-- The way goes on to the last child of `q`. -/
theorem LastBelow.extend {x y n : Nat} {l : List Nat} (h : LastBelow f q x n) (hchildren : f.children q = l ++ [y]) :
    LastBelow f y x (n + 1) := by
  induction h with
  | refl => exact .child hchildren .refl
  | child hc _ ih => exact .child hc ih

/-- Nodes of which each is the last child of the next one. -/
theorem lastBelow_of_isChain {l : List Nat} (h : (q :: l).IsChain fun y x => ∃ l, f.children x = l ++ [y]) :
    LastBelow f q ((q :: l).getLast (by simp)) l.length := by
  induction l generalizing q with
  | nil => exact .refl
  | cons x l ih =>
    obtain ⟨⟨l', hchildren⟩, hl⟩ := List.isChain_cons_cons.1 h
    exact (ih hl).extend hchildren

section

variable (hq : q < f.size)

include hq

/-- A walk that does not come to `q` does not see the new node. -/
theorem descendantsWithin_of_not_mem {bound x : Nat} (h : q ∉ f.descendantsWithin bound x) :
    (f.addLeaf q content).descendantsWithin bound x = f.descendantsWithin bound x := by
  induction bound generalizing x with
  | zero => rfl
  | succ bound ih =>
    simp only [descendantsWithin, List.mem_cons, not_or, List.mem_flatMap, not_exists, not_and] at h ⊢
    rw [children_addLeaf hq, if_neg (Ne.symm h.1)]
    exact congrArg _ (List.flatMap_congr fun y hy => ih (h.2 y hy))

theorem descendantsWithin_leaf (bound : Nat) :
    (f.addLeaf q content).descendantsWithin (bound + 1) f.size = [f.size] := by
  have hnone : f.slot? f.size = none := Array.getElem?_eq_none_iff.2 (Nat.le_refl _)
  have hchildren : f.children f.size = [] := by rw [children, hnone]
  rw [descendantsWithin, children_addLeaf hq, if_neg (by omega), hchildren]
  rfl

/-- The new node comes last in the walk from every node to whose last descendant it is added. -/
theorem LastBelow.descendantsWithin_eq {x n bound : Nat} (h : LastBelow f q x n) (hbound : n + 2 ≤ bound)
    (hnodup : (f.descendantsWithin bound x).Nodup) : q ∈ f.descendantsWithin bound x ∧
      (f.addLeaf q content).descendantsWithin bound x = f.descendantsWithin bound x ++ [f.size] := by
  induction h generalizing bound with
  | refl =>
    obtain ⟨bound, rfl⟩ : ∃ k, bound = k + 2 := ⟨bound - 2, by omega⟩
    have hsame : ∀ y ∈ f.children q, (f.addLeaf q content).descendantsWithin (bound + 1) y =
        f.descendantsWithin (bound + 1) y := by
      intro y hy
      refine descendantsWithin_of_not_mem hq fun hmem => (List.nodup_cons.1 hnodup).1 ?_
      exact List.mem_flatMap.2 ⟨y, hy, hmem⟩
    refine ⟨by simp [descendantsWithin], ?_⟩
    rw [descendantsWithin, descendantsWithin, children_addLeaf hq, if_pos rfl, List.flatMap_append,
      List.flatMap_congr hsame, List.flatMap_singleton, descendantsWithin_leaf hq, List.cons_append]
  | @child x y n l hchildren h ih =>
    obtain ⟨bound, rfl⟩ : ∃ k, bound = k + 1 := ⟨bound - 1, by omega⟩
    have hwalk : f.descendantsWithin (bound + 1) x =
        x :: (l.flatMap (f.descendantsWithin bound) ++ f.descendantsWithin bound y) := by
      rw [descendantsWithin, hchildren, List.flatMap_append, List.flatMap_singleton]
    rw [hwalk] at hnodup ⊢
    obtain ⟨hx, hbelow⟩ := List.nodup_cons.1 hnodup
    obtain ⟨-, hlast, hapart⟩ := List.nodup_append.1 hbelow
    obtain ⟨hmem, heq⟩ := ih (by omega) hlast
    have hne : x ≠ q := fun he => hx (he ▸ List.mem_append_right _ hmem)
    have hsame : ∀ z ∈ l, (f.addLeaf q content).descendantsWithin bound z = f.descendantsWithin bound z := fun z hz =>
      descendantsWithin_of_not_mem hq fun hz' => hapart q (List.mem_flatMap.2 ⟨z, hz, hz'⟩) q hmem rfl
    refine ⟨by simp [hmem], ?_⟩
    rw [descendantsWithin, children_addLeaf hq, if_neg hne, hchildren, List.flatMap_append, List.flatMap_congr hsame,
      List.flatMap_singleton, heq]
    simp

end

end EmailMarkup.Forest
