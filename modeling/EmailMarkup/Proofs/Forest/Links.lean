import Mathlib.Data.List.Nodup
import EmailMarkup.Proofs.Forest.Replace
/-!
# Links in both directions

A forest keeps every link twice: a node records its parent, and the parent lists the node among its children.
`Linked` says that the two agree. It determines how often a node stands in which list from the parents alone, so what
an edit has to be known for is what it does to the parents. All edits keep it (`Linked.apply`), and so does every
sequence of edits (`Linked.run`).
-/
namespace EmailMarkup.Forest

/-! ## Edits -/

inductive Edit where
  | alloc (content : Content)
  | append (parent child : Nat)
  | removeChild (parent child : Nat)
  | detach (id : Nat)
  | importSubtree (source : Forest) (id : Nat)
  | replaceWith (id : Nat) (news : List Nat)

namespace Edit

def apply (f : Forest) : Edit → Forest
  | alloc content => (f.alloc content).1
  | append parent child => f.append parent child
  | removeChild parent child => f.removeChild parent child
  | detach id => f.detach id
  | importSubtree source id => (f.importSubtree source id).1
  | replaceWith id news => (f.replaceWith id news).1

/-- The edit names slots that are there, and a node is replaced by others, each of them named once. -/
def Fits (f : Forest) : Edit → Prop
  | alloc _ => True
  | append parent child => parent < f.size ∧ child < f.size
  | removeChild parent child => parent < f.size ∧ child < f.size
  | detach id => id < f.size
  | importSubtree source id => id < source.size
  | replaceWith id news => id < f.size ∧ (∀ n ∈ news, n < f.size) ∧ news.Nodup ∧ id ∉ news

instance (f : Forest) : (e : Edit) → Decidable (e.Fits f)
  | alloc _ => inferInstanceAs (Decidable True)
  | append _ _ => inferInstanceAs (Decidable (_ ∧ _))
  | removeChild _ _ => inferInstanceAs (Decidable (_ ∧ _))
  | detach _ => inferInstanceAs (Decidable (_ < _))
  | importSubtree _ _ => inferInstanceAs (Decidable (_ < _))
  | replaceWith _ _ => inferInstanceAs (Decidable (_ ∧ _))

/-- Each edit of a sequence is as `ok` asks when its turn comes. -/
def All (ok : Forest → Edit → Prop) : Forest → List Edit → Prop
  | _, [] => True
  | f, e :: es => ok f e ∧ All ok (e.apply f) es

instance All.decidable (ok : Forest → Edit → Prop) [∀ f e, Decidable (ok f e)] :
    (f : Forest) → (es : List Edit) → Decidable (All ok f es)
  | _, [] => inferInstanceAs (Decidable True)
  | f, e :: es => @instDecidableAnd _ _ (inferInstance) (All.decidable ok (e.apply f) es)

end Edit

def run (f : Forest) (es : List Edit) : Forest := es.foldl Edit.apply f

theorem Edit.All.and {ok ok' : Forest → Edit → Prop} : ∀ {f : Forest} {es : List Edit}, Edit.All ok f es →
    Edit.All ok' f es → Edit.All (fun f e => ok f e ∧ ok' f e) f es
  | _, [], _, _ => trivial
  | _, _ :: _, h, h' => ⟨⟨h.1, h'.1⟩, h.2.and h'.2⟩

/-- What each edit keeps, a sequence keeps. -/
theorem run_induction {P : Forest → Prop} {ok : Forest → Edit → Prop}
    (hstep : ∀ f e, P f → ok f e → P (e.apply f)) {f : Forest} {es : List Edit} (hf : P f) (hall : Edit.All ok f es) :
    P (f.run es) := by
  induction es generalizing f with
  | nil => exact hf
  | cons e es ih => exact ih (hstep f e hf hall.1) hall.2

/-! ## Both sides of the links -/

theorem exists_slot {f : Forest} {i : Nat} (h : i < f.size) : ∃ s, f.slot? i = some s :=
  ⟨_, Array.getElem?_eq_getElem h⟩

theorem lt_size_of_parent? {f : Forest} {i p : Nat} (h : f.parent? i = some p) : i < f.size := by
  obtain ⟨s, hs, -⟩ := Option.bind_eq_some_iff.1 h
  exact lt_size hs

theorem lt_size_of_mem_children {f : Forest} {i c : Nat} (h : c ∈ f.children i) : i < f.size := by
  rw [children] at h
  split at h
  · rename_i s hs
    exact lt_size hs
  · simp at h

section

variable (f : Forest) {p : Nat} (i : Nat)

theorem children_modify_children (edit : List Nat → List Nat) (hp : p < f.size) :
    (f.modify p fun s => { s with children := edit s.children }).children i =
      if i = p then edit (f.children p) else f.children i := by
  obtain ⟨s, hs⟩ := exists_slot hp
  by_cases hi : i = p
  · subst hi
    simp [children, slot?_modify, hs]
  · simp [children, slot?_modify, Ne.symm hi, hi]

theorem parent?_modify_children (edit : List Nat → List Nat) :
    (f.modify p fun s => { s with children := edit s.children }).parent? i = f.parent? i := by
  by_cases hi : p = i
  · cases hs : f.slot? i <;> simp [parent?, slot?_modify, hi, hs]
  · simp [parent?, slot?_modify, hi]

theorem parent?_modify_parent (hp : p < f.size) (parent : Option Nat) :
    (f.modify p fun s => { s with parent }).parent? i = if i = p then parent else f.parent? i := by
  obtain ⟨s, hs⟩ := exists_slot hp
  by_cases hi : i = p
  · subst hi
    simp [parent?, slot?_modify, hs]
  · simp [parent?, slot?_modify, Ne.symm hi, hi]

theorem children_modify_parent (parent : Option Nat) :
    (f.modify p fun s => { s with parent }).children i = f.children i := by
  by_cases hi : p = i
  · cases hs : f.slot? i <;> simp [children, slot?_modify, hi, hs]
  · simp [children, slot?_modify, hi]

theorem parent?_alloc (content : Content) : (f.alloc content).1.parent? i = f.parent? i := by
  by_cases hi : i = f.size
  · have hnone : f.slot? i = none := Array.getElem?_eq_none_iff.2 (Nat.le_of_eq hi.symm)
    simp [parent?, slot?_alloc, hi, hi ▸ hnone]
  · simp [parent?, slot?_alloc, hi]

theorem children_alloc (content : Content) : (f.alloc content).1.children i = f.children i := by
  by_cases hi : i = f.size
  · have hnone : f.slot? i = none := Array.getElem?_eq_none_iff.2 (Nat.le_of_eq hi.symm)
    simp [children, slot?_alloc, hi, hi ▸ hnone]
  · simp [children, slot?_alloc, hi]

end

/-- A node stands once among the children of its parent, and among no other children. -/
def Linked (f : Forest) : Prop :=
  ∀ c p, (f.children p).count c = if f.parent? c = some p then 1 else 0

theorem linked_empty : Linked empty := by
  intro c p
  have hchildren : empty.children p = [] := by
    cases p <;> simp [children, slot?, empty]
  have hparent : empty.parent? c = none := by
    cases c <;> simp [parent?, slot?, empty]
  simp [hchildren, hparent]

namespace Linked

variable {f : Forest}

theorem mem_children_iff (h : f.Linked) {c p : Nat} : c ∈ f.children p ↔ f.parent? c = some p := by
  rw [← List.count_pos_iff, h c p]
  by_cases hp : f.parent? c = some p <;> simp [hp]

theorem nodup_children (h : f.Linked) (p : Nat) : (f.children p).Nodup := by
  refine List.nodup_iff_count_le_one.2 fun c => ?_
  rw [h c p]
  split <;> omega

theorem alloc (h : f.Linked) (content : Content) : (f.alloc content).1.Linked := by
  intro c p
  rw [children_alloc, parent?_alloc]
  exact h c p

/-! ### Taking nodes out -/

theorem parent?_detach (h : f.Linked) (id i : Nat) :
    (f.detach id).parent? i = if i = id then none else f.parent? i := by
  cases hp : f.parent? id with
  | none =>
    by_cases hi : i = id
    · simp [detach_eq hp, hi, hp]
    · simp [detach_eq hp, hi]
  | some p =>
    have hmem : id ∈ f.children p := h.mem_children_iff.2 hp
    simp only [Forest.detach, hp, Forest.removeChild, if_pos hmem]
    rw [parent?_modify_parent _ _ (by simpa using lt_size_of_parent? hp),
      parent?_modify_children f i fun l => l.erase id]

theorem children_detach (h : f.Linked) (id i : Nat) : (f.detach id).children i = (f.children i).erase id := by
  cases hp : f.parent? id with
  | none =>
    have hnot : id ∉ f.children i := fun hm => by simp [h.mem_children_iff.1 hm] at hp
    rw [detach_eq hp, List.erase_of_not_mem hnot]
  | some p =>
    have hmem : id ∈ f.children p := h.mem_children_iff.2 hp
    simp only [Forest.detach, hp, Forest.removeChild, if_pos hmem]
    rw [children_modify_parent,
      children_modify_children f i (fun l => l.erase id) (lt_size_of_mem_children hmem)]
    by_cases hi : i = p
    · simp [hi]
    · have hnot : id ∉ f.children i := fun hm => by
        rw [h.mem_children_iff.1 hm] at hp
        exact hi (Option.some.inj hp)
      rw [if_neg hi, List.erase_of_not_mem hnot]

theorem detach (h : f.Linked) (id : Nat) : (f.detach id).Linked := by
  intro c p
  rw [h.children_detach, h.parent?_detach, List.count_erase, h c p]
  by_cases hc : c = id
  · subst hc
    by_cases hp : f.parent? c = some p <;> simp [hp]
  · simp [hc, Ne.symm hc]

/-- Removing a child is taking it out of its parent. -/
theorem removeChild_eq (h : f.Linked) (p c : Nat) :
    f.removeChild p c = if f.parent? c = some p then f.detach c else f := by
  by_cases hp : f.parent? c = some p
  · simp [Forest.detach, hp]
  · have hnot : c ∉ f.children p := fun hm => hp (h.mem_children_iff.1 hm)
    simp [Forest.removeChild, hp, hnot]

theorem removeChild (h : f.Linked) (p c : Nat) : (f.removeChild p c).Linked := by
  rw [h.removeChild_eq]
  split
  · exact h.detach c
  · exact h

/-! ### Appending -/

theorem parent?_append (h : f.Linked) {c : Nat} (hc : c < f.size) (p i : Nat) :
    (f.append p c).parent? i = if i = c then some p else f.parent? i := by
  rw [Forest.append, parent?_modify_parent _ _ (by simpa using hc),
    parent?_modify_children _ i fun l => l ++ [c], h.parent?_detach]
  by_cases hi : i = c <;> simp [hi]

theorem append (h : f.Linked) {p c : Nat} (hp : p < f.size) (hc : c < f.size) : (f.append p c).Linked := by
  intro i q
  have hcount := h.detach c i q
  rw [h.parent?_detach] at hcount
  rw [h.parent?_append hc, Forest.append, children_modify_parent,
    children_modify_children _ q (fun l => l ++ [c]) (by simpa using hp)]
  by_cases hi : i = c
  · subst hi
    by_cases hq : q = p
    · subst hq
      simpa using hcount
    · simpa [hq, Ne.symm hq] using hcount
  · by_cases hq : q = p
    · subst hq
      simpa [hi, List.count_singleton, Ne.symm hi] using hcount
    · simpa [hi, hq] using hcount

/-! ### Replacing -/

theorem foldl_detach_linked : ∀ {f : Forest} (_ : f.Linked) (ids : List Nat), (ids.foldl Forest.detach f).Linked
  | _, h, [] => h
  | _, h, id :: ids => foldl_detach_linked (h.detach id) ids

theorem size_foldl_detach : ∀ (f : Forest) (ids : List Nat), (ids.foldl Forest.detach f).size = f.size
  | _, [] => rfl
  | f, id :: ids => by rw [List.foldl_cons, size_foldl_detach, size_detach]

theorem parent?_foldl_detach : ∀ {f : Forest} (_ : f.Linked) (ids : List Nat) (i : Nat),
    (ids.foldl Forest.detach f).parent? i = if i ∈ ids then none else f.parent? i
  | _, _, [], i => by simp
  | f, h, id :: ids, i => by
    rw [List.foldl_cons, parent?_foldl_detach (h.detach id) ids, h.parent?_detach]
    by_cases hi : i = id <;> by_cases hm : i ∈ ids <;> simp [hi, hm]

end Linked

theorem parent?_foldl_modify_parent (parent : Option Nat) : ∀ {ids : List Nat} {f : Forest} (_ : ∀ n ∈ ids, n < f.size)
    (i : Nat), (ids.foldl (fun g n => g.modify n fun s => { s with parent }) f).parent? i =
      if i ∈ ids then parent else f.parent? i
  | [], _, _, i => by simp
  | n :: ids, f, h, i => by
    rw [List.foldl_cons, parent?_foldl_modify_parent parent (fun m hm => by simpa using h m (by simp [hm])),
      parent?_modify_parent _ _ (h n (by simp))]
    by_cases hi : i = n <;> by_cases hm : i ∈ ids <;> simp [hi, hm]

theorem children_foldl_modify_parent (parent : Option Nat) : ∀ (ids : List Nat) (f : Forest) (i : Nat),
    (ids.foldl (fun g n => g.modify n fun s => { s with parent }) f).children i = f.children i
  | [], _, _ => rfl
  | n :: ids, f, i => by rw [List.foldl_cons, children_foldl_modify_parent parent ids, children_modify_parent]

/-- A splice takes one node away and puts the new ones in. -/
theorem count_splice {old : Nat} (news : List Nat) (c : Nat) : ∀ {l : List Nat}, old ∈ l →
    (splice old news l).count c + (if c = old then 1 else 0) = l.count c + news.count c
  | d :: l, h => by
    by_cases hd : d = old
    · subst hd
      by_cases hc : c = d
      · simp [splice, hc]
        omega
      · simp [splice, hc, Ne.symm hc]
        omega
    · have hmem : old ∈ l := by simpa [Ne.symm hd] using h
      have ih := count_splice news c hmem
      by_cases hc : d = c
      · subst hc
        simp only [splice, hd, if_false, List.count_cons, beq_self_eq_true, if_true] at ih ⊢
        omega
      · simpa [splice, hd, hc] using ih

namespace Linked

variable {f : Forest}

/-- What replacing a node that has a parent does: it takes the new nodes out of where they are, and puts them into the
list where the node was. -/
theorem replaceWith_eq (h : f.Linked) {id p : Nat} (hp : f.parent? id = some p) {news : List Nat} (hid : id ∉ news) :
    f.replaceWith id news =
      (news.foldl (fun g n => g.modify n fun s => { s with parent := some p })
        (((news.foldl Forest.detach f).modify p fun s => { s with children := splice id news s.children }).modify id
          fun s => { s with parent := none }), true) := by
  have hmem : id ∈ (news.foldl Forest.detach f).children p := by
    rw [(foldl_detach_linked h news).mem_children_iff, parent?_foldl_detach h, if_neg hid, hp]
  rw [Forest.replaceWith, hp]
  simp only [if_pos hmem]

theorem replaceWith_snd (h : f.Linked) {id : Nat} {news : List Nat} (hid : id ∉ news) :
    (f.replaceWith id news).2 = (f.parent? id).isSome := by
  cases hp : f.parent? id with
  | none => simp [Forest.replaceWith, hp]
  | some p => simp [h.replaceWith_eq hp hid]

theorem parent?_replaceWith (h : f.Linked) {id p : Nat} (hp : f.parent? id = some p) {news : List Nat} (hid : id ∉ news)
    (hnews : ∀ n ∈ news, n < f.size) (i : Nat) : (f.replaceWith id news).1.parent? i =
      if i ∈ news then some p else if i = id then none else f.parent? i := by
  have hlt := lt_size_of_parent? hp
  rw [h.replaceWith_eq hp hid, parent?_foldl_modify_parent, parent?_modify_parent, parent?_modify_children,
    parent?_foldl_detach h]
  · by_cases hi : i ∈ news <;> simp [hi]
  · simpa [size_foldl_detach] using hlt
  · simpa [size_foldl_detach] using hnews

theorem replaceWith (h : f.Linked) {id : Nat} {news : List Nat} (hnews : ∀ n ∈ news, n < f.size) (hd : news.Nodup)
    (hid : id ∉ news) : (f.replaceWith id news).1.Linked := by
  cases hp : f.parent? id with
  | none => simpa [Forest.replaceWith, hp] using h
  | some p =>
    intro c q
    have hdetached := foldl_detach_linked h news
    have hcount := hdetached c q
    have hmem : id ∈ (news.foldl Forest.detach f).children p := by
      rw [hdetached.mem_children_iff, parent?_foldl_detach h, if_neg hid, hp]
    have hsplice := count_splice news c hmem
    rw [parent?_foldl_detach h] at hcount
    rw [h.parent?_replaceWith hp hid hnews, h.replaceWith_eq hp hid, children_foldl_modify_parent, children_modify_parent,
      children_modify_children _ q (splice id news) (lt_size_of_mem_children hmem)]
    by_cases hq : q = p
    · subst hq
      rw [if_pos rfl]
      by_cases hc : c ∈ news
      · have hne : c ≠ id := fun e => hid (e ▸ hc)
        have hone : news.count c = 1 := List.count_eq_one_of_mem hd hc
        simp [hc, hne] at hcount hsplice ⊢
        omega
      · have hzero : news.count c = 0 := List.count_eq_zero_of_not_mem hc
        by_cases hi : c = id
        · subst hi
          simp [hc, hp] at hcount hsplice ⊢
          omega
        · simp [hc, hi] at hcount hsplice ⊢
          omega
    · rw [if_neg hq, hcount]
      by_cases hc : c ∈ news
      · simp [hc, Ne.symm hq]
      · by_cases hi : c = id
        · subst hi
          simp [hc, hp, Ne.symm hq]
        · simp [hc, hi]

end Linked

/-! ## Copies -/

/-- What copying a node over leaves behind: the copy is a new slot without parent, the old slots have the parents they
had, and among the new ones a parent comes before its children. -/
structure Copied (f g : Forest) (copy : Nat) : Prop where
  linked : g.Linked
  copy_eq : copy = f.size
  parent : g.parent? copy = none
  grows : f.size < g.size
  old : ∀ i < f.size, g.parent? i = f.parent? i
  new : ∀ i ≥ f.size, ∀ p, g.parent? i = some p → p < i

theorem Linked.alloc_copied {f : Forest} (h : f.Linked) (content : Content) :
    Copied f (f.alloc content).1 (f.alloc content).2 where
  linked := h.alloc content
  copy_eq := rfl
  parent := by
    have hnone : f.slot? f.size = none := Array.getElem?_eq_none_iff.2 (Nat.le_refl _)
    show (f.alloc content).1.parent? f.size = none
    rw [parent?_alloc, parent?, hnone]
    rfl
  grows := by simp
  old i _ := parent?_alloc f i content
  new i hi p hp := by
    rw [parent?_alloc] at hp
    exact absurd (lt_size_of_parent? hp) (Nat.not_lt.2 hi)

/-- Appending a new node to a copy leaves a copy. -/
theorem Copied.append {f g k : Forest} {copy c : Nat} (h : Copied f g copy) (hc : Copied g k c) :
    Copied f (k.append copy c) copy := by
  have hcopy : copy < g.size := h.copy_eq ▸ h.grows
  have hbefore : copy < c := hc.copy_eq ▸ hcopy
  have hlt : c < k.size := hc.copy_eq ▸ hc.grows
  refine ⟨hc.linked.append (Nat.lt_trans hcopy hc.grows) hlt, h.copy_eq, ?_, ?_, ?_, ?_⟩
  · rw [hc.linked.parent?_append hlt, if_neg (Nat.ne_of_lt hbefore), hc.old copy hcopy, h.parent]
  · rw [size_append]
    exact Nat.lt_trans h.grows hc.grows
  · intro i hi
    have hic : i < c := Nat.lt_trans hi (h.copy_eq ▸ hbefore)
    rw [hc.linked.parent?_append hlt, if_neg (Nat.ne_of_lt hic), hc.old i (Nat.lt_trans hi h.grows), h.old i hi]
  · intro i hi p hp
    rw [hc.linked.parent?_append hlt] at hp
    by_cases hic : i = c
    · rw [if_pos hic] at hp
      rw [hic, ← Option.some.inj hp]
      exact hbefore
    · rw [if_neg hic] at hp
      by_cases hig : i < g.size
      · rw [hc.old i hig] at hp
        exact h.new i hi p hp
      · exact hc.new i (Nat.not_lt.1 hig) p hp

/-- The induction is on the levels that are copied, and inside it on the children that are. -/
theorem Linked.importWithin_copied (source : Forest) : ∀ (bound : Nat) {f : Forest} (_ : f.Linked) (id : Nat),
    Copied f (importWithin source bound f id).1 (importWithin source bound f id).2
  | 0, _, h, id => h.alloc_copied (source.content id)
  | bound + 1, f, h, id => by
    have hfold : ∀ (l : List Nat) {g : Forest}, Copied f g f.size →
        Copied f (l.foldl (fun g child => (importWithin source bound g child).1.append f.size
          (importWithin source bound g child).2) g) f.size := by
      intro l
      induction l with
      | nil => exact fun hg => hg
      | cons child l ih => exact fun hg => ih (hg.append (Linked.importWithin_copied source bound hg.linked child))
    exact hfold (source.children id) (h.alloc_copied (source.content id))

/-! ## Sequences of edits -/

/-- Every edit keeps the two sides of the links together. -/
theorem Linked.apply {f : Forest} {e : Edit} (h : f.Linked) (he : e.Fits f) : (e.apply f).Linked := by
  cases e with
  | alloc content => exact h.alloc content
  | append parent child => exact h.append he.1 he.2
  | removeChild parent child => exact h.removeChild parent child
  | detach id => exact h.detach id
  | importSubtree source id => exact (h.importWithin_copied source source.size id).linked
  | replaceWith id news => exact h.replaceWith he.2.1 he.2.2.1 he.2.2.2

/-- After every sequence of edits the two sides of the links agree. -/
theorem Linked.run {es : List Edit} (h : Edit.All (fun f e => e.Fits f) empty es) : (empty.run es).Linked :=
  run_induction (fun _ _ hf he => Linked.apply hf he) linked_empty h

end EmailMarkup.Forest
