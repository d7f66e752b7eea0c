import EmailMarkup.Proofs.Style.Effective
import EmailMarkup.Proofs.Style.Merge
import EmailMarkup.Proofs.Style.RoundTrip
/-!
# Styles that do not drift

Styles are read, merged with rules and written out, and this may happen to one style many times. Declarations that were
read from a text that ends outside quotes and parentheses are read again from their written form, and declarations that
have been merged once change nothing when they are merged again (`styles_stable`).
-/
namespace EmailMarkup.Style

open EmailMarkup.Text

/-! ## Written and read again -/

theorem parseDeclarations_spaced {l : List Declaration}
    (h : ∀ d ∈ l, d.WellFormed ∧ Passes parentheses ';' {} d.text {}) : parseDeclarations (spacedText l) = l := by
  induction l with
  | nil => rfl
  | cons d l ih =>
    obtain ⟨⟨hd, hpasses⟩, hl⟩ := List.forall_mem_cons.1 h
    have hcons : spacedText (d :: l) = ' ' :: (d.text ++ ';' :: spacedText l) := by simp [spacedText]
    rw [hcons, parseDeclarations_text hd hpasses, ih hl]

/-- The written form of a style is read as its declarations. -/
theorem parseDeclarations_inlineText {l : List Declaration}
    (h : ∀ d ∈ l, d.WellFormed ∧ Passes parentheses ';' {} d.text {}) : parseDeclarations (inlineText l).toList = l := by
  by_cases hne : l = []
  · rw [hne]
    rfl
  · rw [← parseDeclarations_space, spacedText_eq hne, parseDeclarations_spaced h]

/-! ## Merged again -/

/-- Two lists agree if they declare the same properties in the same order, and the same for each property. -/
theorem eq_of_declarationsOf {l m : List Declaration} (hproperties : properties l = properties m)
    (h : ∀ p, declarationsOf p l = declarationsOf p m) : l = m := by
  induction l generalizing m with
  | nil => exact (List.map_eq_nil_iff.1 hproperties.symm).symm
  | cons d l ih =>
    cases m with
    | nil => cases hproperties
    | cons e m =>
      obtain ⟨hsame, hrest⟩ := List.cons.inj hproperties
      have hfirst : d = e := by
        have hd := h d.property
        rw [declarationsOf, declarationsOf, List.filter_cons_of_pos (by simp), List.filter_cons_of_pos (by simp [hsame])] at hd
        exact (List.cons.inj hd).1
      subst hfirst
      refine congrArg (d :: ·) (ih hrest fun p => ?_)
      have hp := h p
      rw [declarationsOf, declarationsOf, List.filter_cons, List.filter_cons] at hp
      split at hp
      · exact (List.cons.inj hp).2
      · exact hp

/-- Properties that are there already keep their places. -/
theorem properties_merge_of_subset {l m : List Declaration} (h : ∀ d ∈ m, d.property ∈ properties l) :
    properties (merge l m) = properties l := by
  induction m generalizing l with
  | nil => rfl
  | cons d m ih =>
    obtain ⟨hd, hm⟩ := List.forall_mem_cons.1 h
    have hone : properties (mergeOne l d) = properties l := by rw [properties_mergeOne, if_pos hd]
    rw [merge, List.foldl_cons, ← merge, ih (by rwa [hone]), hone]

theorem stronger_self (o : Option Declaration) : stronger o o = o := by
  cases o with
  | none => rfl
  | some d => simp [stronger]

theorem mem_of_strongest {l : List Declaration} {d : Declaration} (h : strongest l = some d) : d ∈ l := by
  rcases Option.or_eq_some_iff.1 h with h | ⟨-, h⟩
  · exact (List.mem_filter.1 (List.mem_of_getLast? h)).1
  · exact List.mem_of_getLast? h

/-- Declarations of one property that have taken the first place take it again. -/
theorem merge_merge_of_property {p : String} {l m : List Declaration} (hl : ∀ d ∈ l, d.property = p)
    (hm : ∀ d ∈ m, d.property = p) : merge (merge l m) m = merge l m := by
  have hagain {x : Declaration} (hx : x.property = p) (hwins : stronger (some x) (strongest m) = some x)
      (later : List Declaration) : merge (x :: later) m = x :: later := by
    obtain ⟨y, hy, hmerge⟩ := merge_first hm hx later
    rw [strongest_cons, hwins] at hy
    rw [hmerge, Option.some.inj hy]
  cases l with
  | nil =>
    cases m with
    | nil => rfl
    | cons d m =>
      obtain ⟨hd, hrest⟩ := List.forall_mem_cons.1 hm
      obtain ⟨x, hx, hmerge⟩ := merge_first hrest hd []
      have hmerge : merge [] (d :: m) = [x] := hmerge
      rw [hmerge]
      exact hagain (hm x (mem_of_strongest hx)) (by rw [hx, stronger_self]) []
  | cons first later =>
    obtain ⟨hfirst, -⟩ := List.forall_mem_cons.1 hl
    obtain ⟨x, hx, hmerge⟩ := merge_first hm hfirst later
    have hproperty : x.property = p := by
      rcases List.mem_cons.1 (mem_of_strongest hx) with rfl | hmem
      · exact hfirst
      · exact hm x hmem
    have hwins : stronger (some x) (strongest m) = some x := by
      rw [← hx, strongest_cons, stronger_assoc, stronger_self]
    rw [hmerge, hagain hproperty hwins]

/-- Merging the same declarations a second time changes nothing. -/
theorem merge_merge (l m : List Declaration) : merge (merge l m) m = merge l m := by
  refine eq_of_declarationsOf (properties_merge_of_subset fun d hd => ?_) fun p => ?_
  · exact mem_properties_foldl.2 (.inr (mem_properties.2 ⟨d, hd, rfl⟩))
  · rw [declarationsOf_merge, declarationsOf_merge]
    exact merge_merge_of_property (fun _ => property_of_mem_declarationsOf) fun _ => property_of_mem_declarationsOf

/-- A style that ends outside quotes and parentheses has the declarations of its written form, so the written form stays as it
is; and merging the same declarations twice is merging them once. -/
theorem styles_stable :
    (∀ s : String, s.toList.foldl (Nesting.step parentheses) {} = {} →
      parseDeclarations (inlineText (parseDeclarations s.toList)).toList = parseDeclarations s.toList ∧
      inlineText (parseDeclarations (inlineText (parseDeclarations s.toList)).toList) =
        inlineText (parseDeclarations s.toList)) ∧
    ∀ existing incoming : List Declaration, merge (merge existing incoming) incoming = merge existing incoming := by
  refine ⟨fun s hend => ?_, merge_merge⟩
  have hread : parseDeclarations (inlineText (parseDeclarations s.toList)).toList = parseDeclarations s.toList := by
    refine parseDeclarations_inlineText fun d hd => ?_
    obtain ⟨hformed, hpasses⟩ := mem_parseDeclarations hd
    exact ⟨hformed, hpasses hend⟩
  exact ⟨hread, by rw [hread]⟩

/-- A mark of importance that is written twice, a parenthesis that was never opened, a semicolon in a url and a piece that is
no declaration. -/
theorem styles_stable_doubled :
    "A : b)!important !IMPORTANT;c;d:url(;)".toList.foldl (Nesting.step parentheses) {} = {} ∧
    parseDeclarations "A : b)!important !IMPORTANT;c;d:url(;)".toList =
      [⟨"a", "b)!important", true⟩, ⟨"d", "url(;)", false⟩] ∧
    parseDeclarations (inlineText (parseDeclarations "A : b)!important !IMPORTANT;c;d:url(;)".toList)).toList =
      parseDeclarations "A : b)!important !IMPORTANT;c;d:url(;)".toList :=
  ⟨by decide +kernel, by decide +kernel, (styles_stable.1 _ (by decide +kernel)).1⟩

end EmailMarkup.Style
