import EmailMarkup.Proofs.Attributes
import EmailMarkup.Proofs.Forest.Alike
import EmailMarkup.Selector.Match
import Mathlib.Data.Prod.Lex
/-!
# What matching depends on

How specific a list of selectors is about an element is told by the most specific of those that describe it
(`bestMatch?_eq_some_iff`). It stays the same if an attribute changes elsewhere that the selectors do not look at
around an element (`bestMatch?_congr`).
-/
namespace EmailMarkup

/-! ## Specificity -/

namespace Specificity

/-- The counts in the order in which they are compared. -/
def key (s : Specificity) : ℕ ×ₗ ℕ ×ₗ ℕ := toLex (s.ids, toLex (s.classes, s.tags))

theorem key_injective {a b : Specificity} (h : a.key = b.key) : a = b := by
  obtain ⟨i, c, t⟩ := a
  obtain ⟨i', c', t'⟩ := b
  simpa [key] using h

theorem le_iff (a b : Specificity) : a.le b = true ↔ a.key ≤ b.key := by
  simp [le, key, Prod.Lex.toLex_le_toLex]

theorem max?_eq_some_iff {l : List Specificity} {s : Specificity} :
    max? l = some s ↔ s ∈ l ∧ ∀ t ∈ l, t.key ≤ s.key := by
  -- the best so far is among those seen, and none of them is more specific
  have hfold (rest : List Specificity) (a : Specificity) :
      let best := rest.foldl (fun best b => if best.le b then b else best) a
      best ∈ a :: rest ∧ ∀ t ∈ a :: rest, t.key ≤ best.key := by
    induction rest generalizing a with
    | nil => simp
    | cons b rest ih =>
      obtain ⟨hmem, hmax⟩ := ih (if a.le b then b else a)
      rw [List.foldl_cons]
      by_cases hle : a.le b = true
      · simp only [hle, if_true] at hmem hmax ⊢
        have hb := hmax b (by simp)
        refine ⟨List.mem_cons_of_mem _ hmem, List.forall_mem_cons.2 ⟨((le_iff a b).1 hle).trans hb, hmax⟩⟩
      · simp only [hle] at hmem hmax ⊢
        have ha := hmax a (by simp)
        have hb : b.key ≤ a.key := (not_le.1 fun h => hle ((le_iff a b).2 h)).le
        refine ⟨by grind, List.forall_mem_cons.2 ⟨ha, List.forall_mem_cons.2 ⟨hb.trans ha, ?_⟩⟩⟩
        exact fun t ht => hmax t (by simp [ht])
  cases l with
  | nil => simp [max?]
  | cons a rest =>
    obtain ⟨hmem, hmax⟩ := hfold rest a
    rw [max?, Option.some_inj]
    constructor
    · rintro rfl
      exact ⟨hmem, hmax⟩
    · rintro ⟨hs, hle⟩
      exact key_injective (le_antisymm (hle _ hmem) (hmax s hs))

end Specificity

namespace Selector

/-- The specificity of the most specific selector that describes the element. -/
def MostSpecific (l : List Selector) (f : Forest) (id : Nat) (s : Specificity) : Prop :=
  (∃ sel ∈ l, sel.holds f id = true ∧ sel.specificity = s) ∧
    ∀ sel ∈ l, sel.holds f id = true → sel.specificity.key ≤ s.key

theorem bestMatch?_eq_some_iff {l : List Selector} {f : Forest} {id : Nat} {s : Specificity} :
    bestMatch? l f id = some s ↔ MostSpecific l f id s := by
  rw [bestMatch?, Specificity.max?_eq_some_iff, MostSpecific]
  simp only [List.mem_map, List.mem_filter, and_assoc, forall_exists_index, and_imp]
  exact and_congr_right' ⟨fun h sel hsel hholds => h _ sel hsel hholds rfl,
    fun h _ sel hsel hholds heq => heq ▸ h sel hsel hholds⟩

theorem bestMatch?_eq_none_iff {l : List Selector} {f : Forest} {id : Nat} :
    bestMatch? l f id = none ↔ ∀ sel ∈ l, sel.holds f id = false := by
  have hnil (l : List Specificity) : Specificity.max? l = none ↔ l = [] := by cases l <;> simp [Specificity.max?]
  rw [bestMatch?, hnil, List.map_eq_nil_iff, List.filter_eq_nil_iff]
  simp

end Selector

/-! ## Attributes that are not looked at -/

/-- Whether the condition is about the attribute `name`. -/
def Simple.looksAt (name : String) : Simple → Bool
  | className _ => name == "class"
  | id _ => name == "id"
  | attr test => name == test.name
  | _ => false

/-- Whether a condition on an element around the subject is about the attribute `name`. -/
def Selector.looksAround (name : String) (s : Selector) : Bool :=
  s.chain.any fun p => p.2.any (Simple.looksAt name)

theorem Simple.holds_congr {name : String} {s : Simple} (h : s.looksAt name = false) (tag : String) {a a' : Attributes}
    (ha : a.without [name] = a'.without [name]) : s.holds tag a = s.holds tag a' := by
  have hget {n : String} (hn : (name == n) = false) : a.get? n = a'.get? n := by
    have hmem : n ∉ [name] := by simpa using Ne.symm (beq_eq_false_iff_ne.1 hn)
    rw [← Attributes.get?_without hmem, ha, Attributes.get?_without hmem]
  cases s with
  | className c => simp only [holds, Attributes.classes, hget h]
  | id value => simp only [holds, hget h]
  | attr test => simp only [holds, AttributeTest.holds, hget h]
  | _ => rfl

section

variable {name : String} {f g : Forest} {id : Nat}

/-- Attributes that are the same but for `name`, and at the node `id` the same. -/
def SameBut (name : String) (id : Nat) (i : Nat) (a a' : Attributes) : Prop :=
  a.without [name] = a'.without [name] ∧ (i = id → a = a')

theorem Compound.holds_congr (h : Forest.Alike (SameBut name id) f g) {i : Nat} {c : Compound}
    (hc : i = id ∨ c.any (Simple.looksAt name) = false) : c.holds f i = c.holds g i := by
  rw [Compound.holds, Compound.holds]
  rcases h.element?_cases i with ⟨hf, hg⟩ | ⟨tag, a, a', hf, hg, hsame, hown⟩
  · rw [hf, hg]
  · rw [hf, hg]
    rcases hc with hi | hc
    · simp only [hown hi]
    · rw [Bool.eq_iff_iff, List.all_eq_true, List.all_eq_true]
      refine forall₂_congr fun s hs => ?_
      have hs : s.looksAt name = false := by simpa using List.any_eq_false.1 hc s hs
      rw [Simple.holds_congr hs tag hsame]

theorem Combinator.candidates_eq {R : Nat → Attributes → Attributes → Prop} (h : Forest.Alike R f g) (c : Combinator)
    (i : Nat) : c.candidates f i = c.candidates g i := by
  have helement : f.isElement = g.isElement := funext h.isElement_eq
  cases c <;> simp only [candidates, h.ancestors_eq, h.parent?_eq, h.precedingSiblings_eq, helement]

namespace Selector

theorem chainHolds_congr (h : Forest.Alike (SameBut name id) f g) {chain : List (Combinator × Compound)}
    (hc : (chain.any fun p => p.2.any (Simple.looksAt name)) = false) (i : Nat) :
    chainHolds f chain i = chainHolds g chain i := by
  induction chain generalizing i with
  | nil => rfl
  | cons p chain ih =>
    obtain ⟨combinator, compound⟩ := p
    rw [List.any_cons, Bool.or_eq_false_iff] at hc
    rw [chainHolds, chainHolds, Combinator.candidates_eq h]
    refine List.any_congr rfl fun candidate => ?_
    rw [Compound.holds_congr h (.inr hc.1), ih hc.2]

/-- Of an attribute that changes, matching an element sees its own value only. -/
theorem holds_congr (h : Forest.Alike (SameBut name id) f g) {s : Selector} (hs : s.looksAround name = false) :
    s.holds f id = s.holds g id := by
  rw [Selector.holds, Selector.holds, Compound.holds_congr h (.inl rfl), chainHolds_congr h hs]

theorem bestMatch?_congr (h : Forest.Alike (SameBut name id) f g) {l : List Selector}
    (hl : ∀ s ∈ l, s.looksAround name = false) : bestMatch? l f id = bestMatch? l g id := by
  have hfilter : (l.filter fun s => s.holds f id) = l.filter fun s => s.holds g id :=
    List.filter_congr fun s hs => holds_congr h (hl s hs)
  rw [bestMatch?, bestMatch?, hfilter]

end Selector

end

end EmailMarkup
