import EmailMarkup.Style.Declaration
import Mathlib.Data.List.Induction
import Mathlib.Data.Prod.Lex
/-!
# Which declarations stay

Declarations that are merged in turn leave one for each property. If later ones have a higher rank, it is the one
that is strongest, where importance counts before rank (`mem_foldl_mergeOne_iff`).
-/
namespace EmailMarkup.Style

/-! ## One place for each property -/

def properties (l : List Declaration) : List String := l.map Declaration.property

theorem mem_properties {l : List Declaration} {p : String} : p ∈ properties l ↔ ∃ d ∈ l, d.property = p := List.mem_map

theorem properties_mergeOne (l : List Declaration) (d : Declaration) :
    properties (mergeOne l d) = if d.property ∈ properties l then properties l else properties l ++ [d.property] := by
  induction l with
  | nil => rfl
  | cons old rest ih =>
    rw [mergeOne]
    by_cases heq : old.property = d.property
    · rw [if_pos heq]
      split <;> simp [properties, heq]
    · have hcons (l : List Declaration) : properties (old :: l) = old.property :: properties l := rfl
      rw [if_neg heq, hcons, hcons, ih]
      by_cases hmem : d.property ∈ properties rest <;> simp [hmem, Ne.symm heq]

theorem nodup_mergeOne {l : List Declaration} (h : (properties l).Nodup) (d : Declaration) :
    (properties (mergeOne l d)).Nodup := by
  rw [properties_mergeOne]
  split
  · exact h
  · rename_i hnew
    exact List.nodup_append.2 ⟨h, by simp, fun p hp q hq he => hnew (by simp_all)⟩

theorem nodup_foldl_mergeOne {l m : List Declaration} (h : (properties m).Nodup) :
    (properties (l.foldl mergeOne m)).Nodup := by
  induction l generalizing m with
  | nil => exact h
  | cons d l ih => exact ih (nodup_mergeOne h d)

theorem mem_properties_foldl {l m : List Declaration} {p : String} :
    p ∈ properties (l.foldl mergeOne m) ↔ p ∈ properties m ∨ p ∈ properties l := by
  induction l generalizing m with
  | nil => simp [properties]
  | cons d l ih =>
    have hone : p ∈ properties (mergeOne m d) ↔ p ∈ properties m ∨ p = d.property := by
      rw [properties_mergeOne]
      split <;> grind
    rw [List.foldl_cons, ih, hone]
    simp [properties, or_assoc, eq_comm]

/-- Declarations of properties of their own are left as they are. -/
theorem foldl_mergeOne_eq_append {l m : List Declaration} (h : (properties (m ++ l)).Nodup) : l.foldl mergeOne m = m ++ l := by
  induction l generalizing m with
  | nil => simp
  | cons d l ih =>
    have hnew : d.property ∉ properties m := by
      rw [properties, List.map_append, List.nodup_append] at h
      exact fun hm => h.2.2 _ hm d.property (by simp) rfl
    have hone : mergeOne m d = m ++ [d] := by
      clear h ih
      induction m with
      | nil => rfl
      | cons old rest ih =>
        simp only [properties, List.map_cons, List.mem_cons, not_or] at hnew
        rw [mergeOne, if_neg (Ne.symm hnew.1), ih hnew.2, List.cons_append]
    rw [List.foldl_cons, hone, ih (by simpa using h), List.append_assoc, List.singleton_append]

/-- A declaration that is merged stays if it takes the place of the old one, and the old one stays if not. -/
theorem mem_mergeOne {l : List Declaration} (h : (properties l).Nodup) {x d : Declaration} : d ∈ mergeOne l x ↔
    (d ∈ l ∧ (d.property = x.property → x.overrides d = false)) ∨
      (d = x ∧ ∀ e ∈ l, e.property = x.property → x.overrides e = true) := by
  induction l with
  | nil => simp [mergeOne]
  | cons old rest ih =>
    obtain ⟨hnew, hrest⟩ := List.nodup_cons.1 h
    have hne : ∀ e ∈ rest, e.property ≠ old.property := fun e he heq => hnew (mem_properties.2 ⟨e, he, heq⟩)
    rw [mergeOne]
    by_cases heq : old.property = x.property
    · rw [if_pos heq]
      cases hover : x.overrides old <;> grind
    · rw [if_neg heq, List.mem_cons, ih hrest]
      grind

/-! ## The strongest declaration -/

section

variable {κ : Type} [LinearOrder κ]

/-- How strong a declaration of a rank is: importance counts before rank. -/
def strength (c : Declaration × κ) : Bool ×ₗ κ := toLex (c.1.important, c.2)

/-- A declaration of a higher rank takes the place of one that is not stronger. -/
theorem overrides_eq_true_iff (old new : Declaration × κ) (h : old.2 < new.2) :
    new.1.overrides old.1 = true ↔ strength old ≤ strength new := by
  rw [strength, strength, Prod.Lex.toLex_le_toLex, Declaration.overrides]
  cases old.1.important <;> cases new.1.important <;> simp [h.le]

theorem overrides_eq_false_iff (old new : Declaration × κ) (h : old.2 < new.2) :
    new.1.overrides old.1 = false ↔ strength new ≤ strength old := by
  rw [strength, strength, Prod.Lex.toLex_le_toLex, Declaration.overrides]
  cases old.1.important <;> cases new.1.important <;> simp [h]

/-- The declaration is among the candidates, and none of them for its property is stronger. -/
def IsStrongest (cs : List (Declaration × κ)) (c : Declaration × κ) : Prop :=
  c ∈ cs ∧ ∀ c' ∈ cs, c'.1.property = c.1.property → strength c' ≤ strength c

/-- Of declarations that are merged in the order of their ranks, the strongest for each property stay. -/
theorem mem_foldl_mergeOne_iff {cs : List (Declaration × κ)}
    (h : cs.Pairwise fun a b => a.1.property = b.1.property → a.2 < b.2) {d : Declaration} :
    d ∈ (cs.map Prod.fst).foldl mergeOne [] ↔ ∃ k, IsStrongest cs (d, k) := by
  induction cs using List.reverseRecOn generalizing d with
  | nil => simp [IsStrongest]
  | append_singleton cs c ih =>
    obtain ⟨hcs, -, hlast⟩ := List.pairwise_append.1 h
    have hrank {e : Declaration} {k : κ} (hk : (e, k) ∈ cs) (hp : e.property = c.1.property) : k < c.2 :=
      hlast (e, k) hk c (by simp) hp
    have hnodup : (properties ((cs.map Prod.fst).foldl mergeOne [])).Nodup := nodup_foldl_mergeOne List.nodup_nil
    rw [List.map_append, List.foldl_append, List.map_singleton, List.foldl_cons, List.foldl_nil, mem_mergeOne hnodup]
    constructor
    · rintro (⟨hd, hkeeps⟩ | ⟨rfl, hover⟩)
      · obtain ⟨k, hk, hmax⟩ := (ih hcs).1 hd
        refine ⟨k, by simp [hk], fun c' hc' hp => ?_⟩
        rcases List.mem_append.1 hc' with hc' | hc'
        · exact hmax c' hc' hp
        · obtain rfl := List.mem_singleton.1 hc'
          exact (overrides_eq_false_iff (d, k) _ (hrank hk hp.symm)).1 (hkeeps hp.symm)
      · refine ⟨c.2, by simp, fun c' hc' hp => ?_⟩
        rcases List.mem_append.1 hc' with hc' | hc'
        · -- the one that stands for the property so far is at least as strong, and `c` takes its place
          have hcov : c'.1.property ∈ properties ((cs.map Prod.fst).foldl mergeOne []) :=
            mem_properties_foldl.2 (.inr (mem_properties.2 ⟨c'.1, List.mem_map_of_mem hc', rfl⟩))
          obtain ⟨e, he, hep⟩ := mem_properties.1 hcov
          obtain ⟨k, hk, hmax⟩ := (ih hcs).1 he
          have hlast : strength (e, k) ≤ strength c :=
            (overrides_eq_true_iff (e, k) _ (hrank hk (hep.trans hp))).1 (hover e he (hep.trans hp))
          exact (hmax c' hc' hep.symm).trans hlast
        · obtain rfl := List.mem_singleton.1 hc'
          exact le_refl _
    · rintro ⟨k, hk, hmax⟩
      rcases List.mem_append.1 hk with hk | hk
      · refine .inl ⟨(ih hcs).2 ⟨k, hk, fun c' hc' => hmax c' (by simp [hc'])⟩, fun hp => ?_⟩
        exact (overrides_eq_false_iff (d, k) _ (hrank hk hp)).2 (hmax c (by simp) hp.symm)
      · obtain rfl := List.mem_singleton.1 hk
        refine .inr ⟨rfl, fun e he hp => ?_⟩
        obtain ⟨k', hk', -⟩ := (ih hcs).1 he
        exact (overrides_eq_true_iff (e, k') _ (hrank hk' hp)).2 (hmax (e, k') (by simp [hk']) hp)

end

end EmailMarkup.Style
