import EmailMarkup.Style.Declaration
/-!
# The declaration that counts

Of several declarations of one property the last important one counts, and the last one if none is important
(`effective`). Merging puts a new declaration in the place of the first one of its property, so what counts afterwards is
what counts if the new declarations stand right behind the first old one, and not behind all of them. The two differ
only for a property that is declared again behind the first place (`effective_merge_eq_iff`).
-/
namespace EmailMarkup.Style

/-! ## What counts -/

def declarationsOf (p : String) (l : List Declaration) : List Declaration := l.filter fun d => d.property == p

/-- The last important declaration if there is one, else the last one. -/
def strongest (l : List Declaration) : Option Declaration := (l.filter Declaration.important).getLast?.or l.getLast?

def effective (p : String) (l : List Declaration) : Option Declaration := strongest (declarationsOf p l)

/-- What counts of two declarations, the second of which stands behind the first. -/
def stronger : Option Declaration → Option Declaration → Option Declaration
  | none, new => new
  | some old, none => some old
  | some old, some new => if new.overrides old then some new else some old

@[simp] theorem stronger_none (o : Option Declaration) : stronger o none = o := by cases o <;> rfl

@[simp] theorem none_stronger (o : Option Declaration) : stronger none o = o := rfl

theorem stronger_assoc (a b c : Option Declaration) : stronger (stronger a b) c = stronger a (stronger b c) := by
  cases a with
  | none => rfl
  | some a =>
    cases b with
    | none => rfl
    | some b =>
      cases c with
      | none => rw [stronger_none, stronger_none]
      | some c => grind [stronger, Declaration.overrides]

theorem strongest_concat (l : List Declaration) (d : Declaration) :
    strongest (l ++ [d]) = stronger (strongest l) (some d) := by
  have hlast : (l ++ [d]).getLast? = some d := by simp
  cases himportant : d.important with
  | true => cases hl : strongest l <;> simp [strongest, stronger, Declaration.overrides, himportant, List.filter_append]
  | false =>
    rw [strongest, List.filter_append, List.filter_cons_of_neg (by simp [himportant]), List.filter_nil, List.append_nil, hlast,
      strongest]
    cases hfound : (l.filter Declaration.important).getLast? with
    | none =>
      have hnone : ∀ e ∈ l, e.important = false := by simpa [List.filter_eq_nil_iff] using hfound
      cases hold : l.getLast? with
      | none => rfl
      | some e => simp [stronger, Declaration.overrides, hnone e (List.mem_of_getLast? hold)]
    | some e =>
      have he : e.important = true := (List.mem_filter.1 (List.mem_of_getLast? hfound)).2
      simp [stronger, Declaration.overrides, he, himportant]

theorem strongest_singleton (d : Declaration) : strongest [d] = some d := strongest_concat [] d

theorem strongest_append (l m : List Declaration) : strongest (l ++ m) = stronger (strongest l) (strongest m) := by
  induction m generalizing l with
  | nil => simp [strongest]
  | cons d m ih =>
    rw [List.append_cons, ih, strongest_concat, stronger_assoc, ← strongest_singleton d, ← ih [d], List.singleton_append]

/-- Whether what stands between `first` and the end counts the same in both orders. -/
theorem stronger_comm_iff (first : Declaration) (a b : Option Declaration) :
    stronger (stronger (some first) a) b = stronger (stronger (some first) b) a ↔ ∀ new ∈ a, ∀ old ∈ b,
      new = old ∨ new.important ≠ old.important ∨ (first.important = true ∧ new.important = false) := by
  cases a with
  | none => simp
  | some new =>
    cases b with
    | none => simp
    | some old =>
      have hcomm : old = new ↔ new = old := eq_comm
      cases hf : first.important <;> cases hn : new.important <;> cases ho : old.important <;>
        simp [stronger, Declaration.overrides, hf, hn, ho, hcomm]

theorem strongest_cons (d : Declaration) (l : List Declaration) : strongest (d :: l) = stronger (some d) (strongest l) := by
  rw [← List.singleton_append, strongest_append, strongest_singleton]

/-! ## Merging -/

theorem declarationsOf_append (p : String) (l m : List Declaration) :
    declarationsOf p (l ++ m) = declarationsOf p l ++ declarationsOf p m :=
  List.filter_append ..

theorem property_of_mem_declarationsOf {p : String} {l : List Declaration} {d : Declaration} (h : d ∈ declarationsOf p l) :
    d.property = p := by
  simpa using (List.mem_filter.1 h).2

theorem declarationsOf_mergeOne (p : String) (l : List Declaration) (d : Declaration) :
    declarationsOf p (mergeOne l d) =
      if d.property = p then mergeOne (declarationsOf p l) d else declarationsOf p l := by
  induction l with
  | nil => by_cases hd : d.property = p <;> simp [mergeOne, declarationsOf, hd]
  | cons old rest ih =>
    rw [declarationsOf] at ih ⊢
    by_cases hsame : old.property = d.property
    · by_cases hd : d.property = p <;> cases hover : d.overrides old <;> simp [mergeOne, declarationsOf, hsame, hd, hover]
    · rw [mergeOne, if_neg hsame, List.filter_cons, ih]
      by_cases hd : d.property = p <;> by_cases hold : old.property = p <;> simp_all [declarationsOf]

/-- The declarations of a property are merged by themselves. -/
theorem declarationsOf_merge (p : String) (l m : List Declaration) :
    declarationsOf p (merge l m) = merge (declarationsOf p l) (declarationsOf p m) := by
  induction m generalizing l with
  | nil => rfl
  | cons d m ih =>
    rw [merge, List.foldl_cons, ← merge, ih, declarationsOf_mergeOne]
    by_cases hd : d.property = p <;> simp [declarationsOf, merge, hd]

/-- Declarations of one property take the first place in turn. -/
theorem merge_first {p : String} {m : List Declaration} (hm : ∀ d ∈ m, d.property = p) {first : Declaration}
    (hfirst : first.property = p) (later : List Declaration) :
    ∃ x, strongest (first :: m) = some x ∧ merge (first :: later) m = x :: later := by
  induction m generalizing first with
  | nil => exact ⟨first, strongest_singleton first, rfl⟩
  | cons d m ih =>
    obtain ⟨hd, hm⟩ := List.forall_mem_cons.1 hm
    have hstep : mergeOne (first :: later) d = (if d.overrides first then d else first) :: later := by
      rw [mergeOne, if_pos (hfirst.trans hd.symm)]
    have hwins : some (if d.overrides first then d else first) = stronger (some first) (some d) := by
      rw [stronger]
      split <;> rfl
    have hproperty : (if d.overrides first then d else first).property = p := by split <;> assumption
    obtain ⟨x, hx, hmerge⟩ := ih hm hproperty
    refine ⟨x, ?_, ?_⟩
    · rw [← hx, strongest_cons, strongest_cons, strongest_cons, hwins, stronger_assoc]
    · rw [merge, List.foldl_cons, hstep, ← merge, hmerge]

/-- What counts among declarations of one property after merging: the new ones stand behind the first one. -/
theorem strongest_merge {p : String} {l m : List Declaration} (hl : ∀ d ∈ l, d.property = p) (hm : ∀ d ∈ m, d.property = p) :
    strongest (merge l m) = stronger (stronger (strongest (l.take 1)) (strongest m)) (strongest (l.drop 1)) := by
  cases l with
  | nil =>
    cases m with
    | nil => rfl
    | cons d m =>
      obtain ⟨hd, hm⟩ := List.forall_mem_cons.1 hm
      obtain ⟨x, hx, hmerge⟩ := merge_first hm hd []
      have hmerge : merge [] (d :: m) = [x] := hmerge
      rw [hmerge, strongest_singleton, ← hx]
      simp [strongest]
  | cons first later =>
    obtain ⟨hfirst, -⟩ := List.forall_mem_cons.1 hl
    obtain ⟨x, hx, hmerge⟩ := merge_first hm hfirst later
    rw [hmerge, strongest_cons, ← hx, strongest_cons, List.take_one, List.head?_cons, Option.toList_some, strongest_singleton]
    rfl

/-- For every property, what counts after merging is what counts if the new declarations stand right behind the first old
one. This is also what counts if they stand behind all old ones, unless the new and the later old declarations are equally
important and the first old one does not outrank them. -/
theorem effective_merge_eq_iff (existing incoming : List Declaration) (p : String) :
    effective p (merge existing incoming) =
      strongest ((declarationsOf p existing).take 1 ++ declarationsOf p incoming ++ (declarationsOf p existing).drop 1) ∧
    (effective p (merge existing incoming) = effective p (existing ++ incoming) ↔
      ∀ first later, declarationsOf p existing = first :: later → ∀ new ∈ effective p incoming, ∀ old ∈ strongest later,
        new = old ∨ new.important ≠ old.important ∨ (first.important = true ∧ new.important = false)) := by
  have hmerge : effective p (merge existing incoming) = stronger (stronger (strongest ((declarationsOf p existing).take 1))
      (effective p incoming)) (strongest ((declarationsOf p existing).drop 1)) := by
    rw [effective, declarationsOf_merge, strongest_merge (fun _ => property_of_mem_declarationsOf)
      (fun _ => property_of_mem_declarationsOf), effective]
  have hbehind : effective p (existing ++ incoming) = stronger (stronger (strongest ((declarationsOf p existing).take 1))
      (strongest ((declarationsOf p existing).drop 1))) (effective p incoming) := by
    rw [effective, declarationsOf_append, strongest_append, ← strongest_append (List.take 1 _), List.take_append_drop, effective]
  refine ⟨?_, ?_⟩
  · rw [hmerge, strongest_append, strongest_append, effective]
  · rw [hmerge, hbehind]
    cases declarationsOf p existing with
    | nil => simp [strongest]
    | cons first later =>
      have htake : strongest ((first :: later).take 1) = some first := strongest_singleton first
      have hdrop : (first :: later).drop 1 = later := rfl
      rw [htake, hdrop, stronger_comm_iff]
      constructor
      · rintro h _ _ ⟨rfl, rfl⟩
        exact h
      · exact fun h => h first later rfl

/-- A color that is declared twice, as in a fallback, hides one that is merged. -/
theorem effective_merge_repeated :
    effective "color" (merge (parseDeclarations "color:red;color:blue".toList) (parseDeclarations "color:green".toList)) =
      some ⟨"color", "blue", false⟩ ∧
    effective "color" (parseDeclarations "color:red;color:blue".toList ++ parseDeclarations "color:green".toList) =
      some ⟨"color", "green", false⟩ := by
  decide +kernel

end EmailMarkup.Style
