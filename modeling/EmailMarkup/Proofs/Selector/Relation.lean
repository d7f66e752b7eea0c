import EmailMarkup.Proofs.Forest.Traversal
import EmailMarkup.Selector.Match
/-!
# What a selector describes

A selector describes an element if the compounds of its chain can be put on elements around it, each of them in the
relation that its combinator names to the one before (`Describes`). Matching tries the candidates for each place in
turn. In a forest whose links agree and whose chains of parents end, the candidates are the nodes that stand in the
relation (`mem_candidates_iff`), so that the search finds such elements exactly if there are some.
-/
namespace EmailMarkup

/-! ## Around a node -/

namespace Forest

/-- `a` and `id` are children of one node, with `between` between them. -/
def StandsBefore (f : Forest) (a : Nat) (between : List Nat) (id : Nat) : Prop :=
  ∃ parent before after, f.parent? id = some parent ∧ f.children parent = before ++ a :: (between ++ id :: after)

/-- The siblings before a node in the order in which they are looked at: the ones nearer to it come first. -/
theorem Linked.precedingSiblings_append_iff {f : Forest} (h : f.Linked) {id a : Nat} {between : List Nat} :
    (∃ others, f.precedingSiblings id = between.reverse ++ a :: others) ↔ f.StandsBefore a between id := by
  constructor
  · rintro ⟨others, heq⟩
    cases hp : f.parent? id with
    | none => simp [precedingSiblings, hp] at heq
    | some parent =>
      obtain ⟨before, after, hc⟩ := List.append_of_mem (h.mem_children_iff.2 hp)
      rw [h.precedingSiblings_eq hp hc] at heq
      refine ⟨parent, others.reverse, after, hp, ?_⟩
      have hbefore : before = others.reverse ++ a :: between := by simpa using congrArg List.reverse heq
      simp [hc, hbefore]
  · rintro ⟨parent, before, after, hp, hc⟩
    have hc' : f.children parent = (before ++ a :: between) ++ id :: after := by simpa using hc
    refine ⟨before.reverse, ?_⟩
    rw [h.precedingSiblings_eq hp hc']
    simp

end Forest

/-! ## Combinators -/

/-- How the element for a compound stands to the one for the compound before it: above it, right above it, the nearest
element before it among its siblings, or any element before it among its siblings. -/
def Combinator.Relates (f : Forest) (id a : Nat) : Combinator → Prop
  | descendant => f.IsAncestor id a
  | child => f.parent? id = some a
  | next => f.isElement a = true ∧ ∃ between, f.StandsBefore a between id ∧ ∀ c ∈ between, f.isElement c = false
  | following => f.isElement a = true ∧ ∃ between, f.StandsBefore a between id

/-- The candidates are the nodes that stand in the relation. -/
theorem Combinator.mem_candidates_iff {f : Forest} (hl : f.Linked) (hg : f.Grounded) {id a : Nat} (c : Combinator) :
    a ∈ c.candidates f id ↔ c.Relates f id a := by
  cases c with
  | descendant => exact hg.mem_ancestors_iff hl
  | child => simp [candidates, Relates]
  | next =>
    have hfirst : a ∈ ((f.precedingSiblings id).filter f.isElement).take 1 ↔
        (f.precedingSiblings id).find? f.isElement = some a := by
      rw [← List.head?_filter]
      cases (f.precedingSiblings id).filter f.isElement <;> simp [eq_comm]
    rw [candidates, hfirst, List.find?_eq_some_iff_append, Relates]
    simp only [← hl.precedingSiblings_append_iff]
    constructor
    · rintro ⟨ha, nearer, others, heq, hnone⟩
      exact ⟨ha, nearer.reverse, ⟨others, by simpa using heq⟩, by simpa using hnone⟩
    · rintro ⟨ha, between, ⟨others, heq⟩, hnone⟩
      exact ⟨ha, between.reverse, others, heq, by simpa using hnone⟩
  | following =>
    rw [candidates, List.mem_filter, and_comm, Relates, List.mem_iff_append]
    simp only [← hl.precedingSiblings_append_iff]
    refine and_congr_right fun _ => ⟨?_, ?_⟩
    · rintro ⟨nearer, others, heq⟩
      exact ⟨nearer.reverse, others, by simpa using heq⟩
    · rintro ⟨between, others, heq⟩
      exact ⟨between.reverse, others, heq⟩

/-! ## Chains -/

/-- The node is an element that satisfies every condition. -/
def Compound.Satisfied (c : Compound) (f : Forest) (id : Nat) : Prop :=
  ∃ tag a, f.element? id = some (tag, a) ∧ ∀ s ∈ c, s.holds tag a = true

theorem Compound.holds_iff {c : Compound} {f : Forest} {id : Nat} : c.holds f id = true ↔ c.Satisfied f id := by
  unfold Compound.holds Compound.Satisfied
  cases f.element? id with
  | none => simp
  | some e =>
    obtain ⟨tag, a⟩ := e
    simp

namespace Selector

/-- There are elements for all compounds, from the node outwards: `node 0` is the node itself, and `node (i + 1)` stands
to `node i` as the combinator between their compounds says. -/
def Describes (s : Selector) (f : Forest) (id : Nat) : Prop :=
  ∃ node : Nat → Nat, node 0 = id ∧ Compound.Satisfied s.subject f (node 0) ∧
    ∀ i combinator compound, s.chain[i]? = some (combinator, compound) →
      Compound.Satisfied compound f (node (i + 1)) ∧ combinator.Relates f (node i) (node (i + 1))

/-- The search for the rest of a chain finds elements if there are some. The induction is on the chain, and a node for
its first compound is put before the nodes for the others. -/
theorem chainHolds_iff {f : Forest} (hl : f.Linked) (hg : f.Grounded) (chain : List (Combinator × Compound)) (id : Nat) :
    chainHolds f chain id = true ↔ ∃ node : Nat → Nat, node 0 = id ∧
      ∀ i combinator compound, chain[i]? = some (combinator, compound) →
        Compound.Satisfied compound f (node (i + 1)) ∧ combinator.Relates f (node i) (node (i + 1)) := by
  induction chain generalizing id with
  | nil => exact ⟨fun _ => ⟨fun _ => id, rfl, by simp⟩, fun _ => rfl⟩
  | cons p chain ih =>
    obtain ⟨combinator, compound⟩ := p
    simp only [chainHolds, List.any_eq_true, Bool.and_eq_true, Combinator.mem_candidates_iff hl hg, Compound.holds_iff, ih]
    constructor
    · rintro ⟨candidate, hrelates, hholds, node, rfl, hrest⟩
      refine ⟨fun i => i.casesOn id node, rfl, fun i k c hi => ?_⟩
      cases i with
      | zero =>
        obtain ⟨rfl, rfl⟩ : combinator = k ∧ compound = c := by simpa using hi
        exact ⟨hholds, hrelates⟩
      | succ i => exact hrest i k c (by simpa using hi)
    · rintro ⟨node, rfl, hnode⟩
      obtain ⟨hholds, hrelates⟩ := hnode 0 combinator compound rfl
      refine ⟨node 1, hrelates, hholds, fun i => node (i + 1), rfl, fun i k c hi => ?_⟩
      exact hnode (i + 1) k c (by simpa using hi)

/-- In a forest whose links agree and whose chains of parents end, matching finds a selector to hold of a node exactly if
it describes it. -/
theorem holds_iff_describes {f : Forest} (hl : f.Linked) (hg : f.Grounded) (s : Selector) (id : Nat) :
    s.holds f id = true ↔ s.Describes f id := by
  rw [Selector.holds, Bool.and_eq_true, Compound.holds_iff, chainHolds_iff hl hg, Describes]
  constructor
  · rintro ⟨hsubject, node, rfl, hnode⟩
    exact ⟨node, rfl, hsubject, hnode⟩
  · rintro ⟨node, rfl, hsubject, hnode⟩
    exact ⟨hsubject, node, rfl, hnode⟩

def nestedEdits : List Forest.Edit :=
  [.alloc (.element "table" ⟨[("class", "outer")]⟩), .alloc (.element "div" .empty), .alloc (.element "div" .empty),
    .alloc (.element "p" .empty), .alloc (.text " and "), .alloc (.element "span" .empty),
    .append Forest.root 1, .append 1 2, .append 2 3, .append 3 4, .append 3 5, .append 3 6]

def nestedSelector : Selector :=
  ⟨[.tag "SPAN"], [(.next, [.tag "p"]), (.descendant, [.tag "div"]), (.child, [.className "outer"])]⟩

/-- The nearest element `div` above the paragraph is not a child of the table, the one above that is. -/
theorem holds_iff_describes_nested : (Forest.empty.run nestedEdits).Linked ∧ (Forest.empty.run nestedEdits).Grounded ∧
    nestedSelector.Describes (Forest.empty.run nestedEdits) 6 ∧
    ¬nestedSelector.Describes (Forest.empty.run nestedEdits) 4 := by
  have hedits : Forest.Edit.All (fun f e => e.Fits f ∧ e.AvoidsCycles f) Forest.empty nestedEdits := by decide
  obtain ⟨hl, hg⟩ := Forest.Grounded.run hedits
  have hiff := holds_iff_describes hl hg nestedSelector
  refine ⟨hl, hg, (hiff 6).1 (by decide +kernel), fun h => ?_⟩
  have hholds := (hiff 4).2 h
  exact absurd hholds (by decide +kernel)

end Selector

end EmailMarkup
