import EmailMarkup.Attributes
/-!
# Attributes but for some names
-/
namespace EmailMarkup.Attributes

theorem get?_without {names : List String} {name : String} (h : name ∉ names) (a : Attributes) :
    (a.without names).get? name = a.get? name := by
  obtain ⟨l⟩ := a
  simp only [without, get?]
  induction l with
  | nil => rfl
  | cons e l ih =>
    obtain ⟨n, v⟩ := e
    by_cases hn : name = n
    · subst hn
      simp [h]
    · have hbeq : (name == n) = false := by simpa using hn
      rw [List.filter_cons]
      split <;> simpa [List.lookup_cons, hbeq] using ih

theorem without_insert_of_mem {names : List String} {name : String} (h : name ∈ names) (a : Attributes) (value : String) :
    (a.insert name value).without names = a.without names := by
  obtain ⟨l⟩ := a
  simp only [without, insert, mk.injEq]
  induction l with
  | nil => simp [setIn, h]
  | cons e l ih =>
    rw [setIn]
    split
    · rename_i heq
      simp [heq, h]
    · rw [List.filter_cons, List.filter_cons, ih]

theorem without_insert_of_not_mem {names : List String} {name : String} (h : name ∉ names) (a : Attributes)
    (value : String) : (a.insert name value).without names = (a.without names).insert name value := by
  obtain ⟨l⟩ := a
  simp only [without, insert, mk.injEq]
  induction l with
  | nil => simp [setIn, h]
  | cons e l ih =>
    rw [setIn]
    split
    · rename_i heq
      simp [heq, h, setIn]
    · rename_i hne
      rw [List.filter_cons, List.filter_cons, ih]
      split <;> simp [setIn, hne]

theorem get?_insert_self (a : Attributes) (name value : String) : (a.insert name value).get? name = some value := by
  obtain ⟨l⟩ := a
  simp only [get?, insert]
  induction l with
  | nil => simp [setIn]
  | cons e l ih =>
    obtain ⟨n, v⟩ := e
    rw [setIn]
    split
    · rename_i heq
      simp [heq]
    · rename_i hne
      have hbeq : (name == n) = false := by simpa using Ne.symm hne
      simpa [List.lookup_cons, hbeq] using ih

theorem get?_insert_of_ne {name other : String} (h : other ≠ name) (a : Attributes) (value : String) :
    (a.insert name value).get? other = a.get? other := by
  have hother : other ∉ [name] := by simpa using h
  rw [← get?_without hother, without_insert_of_mem (by simp), get?_without hother]

def addAll (a : Attributes) (l : List (String × String)) : Attributes := l.foldl (fun a e => a.insert e.1 e.2) a

theorem addAll_append (a : Attributes) (l m : List (String × String)) : a.addAll (l ++ m) = (a.addAll l).addAll m :=
  List.foldl_append

theorem without_addAll (a : Attributes) (name : String) (l : List (String × String)) :
    (a.addAll l).without [name] = (a.without [name]).addAll (l.filter fun e => e.1 != name) := by
  induction l generalizing a with
  | nil => rfl
  | cons e l ih =>
    have hcons : a.addAll (e :: l) = (a.insert e.1 e.2).addAll l := rfl
    rw [hcons, ih, List.filter_cons]
    by_cases he : e.1 = name
    · simp [he, without_insert_of_mem]
    · rw [without_insert_of_not_mem (by simpa using he), if_pos (by simpa using he)]
      rfl

theorem get?_addAll {name : String} {l : List (String × String)} (h : ∀ e ∈ l, e.1 ≠ name) (a : Attributes) :
    (a.addAll l).get? name = a.get? name := by
  induction l generalizing a with
  | nil => rfl
  | cons e l ih =>
    obtain ⟨he, hl⟩ := List.forall_mem_cons.1 h
    exact (ih hl _).trans (get?_insert_of_ne (Ne.symm he) a e.2)

/-- A value that the merged attributes give wins, the one given last. -/
theorem get?_merge (a b : Attributes) (name : String) :
    (a.merge b).get? name = (b.entries.reverse.lookup name).or (a.get? name) := by
  obtain ⟨l⟩ := b
  simp only [merge]
  induction l generalizing a with
  | nil => simp
  | cons e l ih =>
    obtain ⟨n, v⟩ := e
    rw [List.foldl_cons, ih, List.reverse_cons, List.lookup_append]
    by_cases hn : n = name
    · subst hn
      cases l.reverse.lookup n <;> simp [get?_insert_self]
    · have hbeq : (name == n) = false := by simpa using Ne.symm hn
      simp [get?_insert_of_ne (Ne.symm hn), List.lookup_cons, hbeq]

end EmailMarkup.Attributes
