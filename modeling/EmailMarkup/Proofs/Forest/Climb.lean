import Mathlib.Logic.Function.Iterate
import EmailMarkup.Proofs.Forest.Links
/-!
# Walks that end

An edit can put a node below itself, and then no walk along the links comes to an end. As long as no edit does so,
every chain of parents ends (`Grounded`), after at most as many steps as there are slots. Then no walk down is cut off
by its bound either, and a walk that takes the next node from a stack visits the descendants and stops.
-/
namespace EmailMarkup.Forest

/-- One step up, from a node or from beyond the last one. -/
def climb (f : Forest) (next : Option Nat) : Option Nat := next.bind f.parent?

/-- One step of a walk down: the node on top of the stack is visited, and makes place for its children. They are pushed
from the last to the first. -/
def visit (f : Forest) : List Nat → List Nat
  | [] => []
  | id :: stack => (f.children id).reverse.foldl (fun stack c => c :: stack) stack

theorem visit_cons (f : Forest) (id : Nat) (stack : List Nat) : f.visit (id :: stack) = f.children id ++ stack := by
  rw [visit, List.foldl_reverse, List.foldr_cons_eq_append, List.map_id']

/-- The edit puts no node below itself or below one of its descendants. -/
def Edit.AvoidsCycles (f : Forest) : Edit → Prop
  | append parent child => parent ∉ f.descendants child
  | replaceWith id news => ∀ parent ∈ f.parent? id, ∀ n ∈ news, parent ∉ f.descendants n
  | _ => True

instance (f : Forest) : (e : Edit) → Decidable (e.AvoidsCycles f)
  | .append _ _ => inferInstanceAs (Decidable (¬_))
  | .replaceWith id news => inferInstanceAs (Decidable (∀ parent ∈ f.parent? id, ∀ n ∈ news, parent ∉ f.descendants n))
  | .alloc _ => inferInstanceAs (Decidable True)
  | .removeChild _ _ => inferInstanceAs (Decidable True)
  | .detach _ => inferInstanceAs (Decidable True)
  | .importSubtree _ _ => inferInstanceAs (Decidable True)

/-! ## Chains of parents -/

/-- The chain of parents of every node ends. -/
def Grounded (f : Forest) : Prop := ∀ id, Acc (fun p c => f.parent? c = some p) id

section

variable {f : Forest}

theorem climb_iterate_none (n : Nat) : f.climb^[n] none = none := Function.iterate_fixed rfl n

/-- A chain of parents does not come back. -/
theorem Grounded.climb_ne (h : f.Grounded) (id n : Nat) : f.climb^[n + 1] (some id) ≠ some id := by
  induction h id with
  | intro id _ ih =>
    intro hback
    rw [Function.iterate_succ_apply] at hback
    cases hp : f.parent? id with
    | none =>
      rw [show f.climb (some id) = none from hp, climb_iterate_none] at hback
      exact absurd hback (by simp)
    | some p =>
      rw [show f.climb (some id) = some p from hp] at hback
      apply ih p hp
      rw [Function.iterate_succ_apply', hback]
      exact hp

/-- The chain from a node, as the list of its nodes without repetition. -/
theorem Grounded.exists_chain (h : f.Grounded) (hl : f.Linked) (id : Nat) (hid : id < f.size) :
    ∃ l : List Nat, l.Nodup ∧ (∀ i ∈ l, i < f.size) ∧ ∀ n, f.climb^[n] (some id) = l[n]? := by
  induction h id with
  | intro id _ ih =>
    cases hp : f.parent? id with
    | none =>
      refine ⟨[id], by simp, by simpa using hid, ?_⟩
      intro n
      cases n with
      | zero => rfl
      | succ n =>
        rw [Function.iterate_succ_apply, show f.climb (some id) = none from hp, climb_iterate_none]
        simp
    | some p =>
      obtain ⟨l, hd, hlt, hchain⟩ := ih p hp (lt_size_of_mem_children (hl.mem_children_iff.2 hp))
      have hstep : ∀ n, f.climb^[n + 1] (some id) = l[n]? := fun n => by
        rw [Function.iterate_succ_apply, show f.climb (some id) = some p from hp, hchain]
      refine ⟨id :: l, List.nodup_cons.2 ⟨?_, hd⟩, ?_, ?_⟩
      · intro hmem
        obtain ⟨n, hn⟩ := List.mem_iff_getElem?.1 hmem
        exact h.climb_ne id n (hn ▸ hstep n)
      · intro i hi
        rcases List.mem_cons.1 hi with rfl | hi
        · exact hid
        · exact hlt i hi
      · intro n
        cases n with
        | zero => rfl
        | succ n => simpa using hstep n

/-- A chain has at most as many nodes as there are slots. -/
theorem Grounded.lt_size_of_climb (h : f.Grounded) (hl : f.Linked) {id n a : Nat} (hid : id < f.size)
    (hn : f.climb^[n] (some id) = some a) : n < f.size := by
  obtain ⟨l, hd, hlt, hchain⟩ := h.exists_chain hl id hid
  rw [hchain] at hn
  exact Nat.lt_of_lt_of_le (List.getElem?_eq_some_iff.1 hn).1 (length_le_size hd hlt)

theorem Grounded.climb_size (h : f.Grounded) (hl : f.Linked) {id : Nat} (hid : id < f.size) :
    f.climb^[f.size] (some id) = none := by
  cases hn : f.climb^[f.size] (some id) with
  | none => rfl
  | some a => exact absurd (h.lt_size_of_climb hl hid hn) (Nat.lt_irrefl _)

/-! ## Down along the same links -/

/-- A node that a chain of parents leads to has the start of the chain below it. -/
theorem Linked.mem_descendantsWithin (hl : f.Linked) {d : Nat} : ∀ {n bound a : Nat}, f.climb^[n] (some d) = some a →
    n < bound → d ∈ f.descendantsWithin bound a
  | 0, bound + 1, a, hn, _ => by
    rw [Option.some.inj (show some d = some a from hn)]
    simp [descendantsWithin]
  | n + 1, bound + 1, a, hn, hlt => by
    rw [Function.iterate_succ_apply'] at hn
    obtain ⟨c, hc, hp⟩ := Option.bind_eq_some_iff.1 hn
    have hmem : d ∈ f.descendantsWithin bound c := hl.mem_descendantsWithin hc (by omega)
    simp only [descendantsWithin, List.mem_cons, List.mem_flatMap]
    exact .inr ⟨c, hl.mem_children_iff.2 hp, hmem⟩

/-- No chain of children from a node has more than `bound` nodes. -/
def EndsWithin (f : Forest) : (bound : Nat) → (id : Nat) → Prop
  | 0, _ => False
  | bound + 1, id => ∀ c ∈ f.children id, EndsWithin f bound c

theorem EndsWithin.succ : ∀ {bound id : Nat}, f.EndsWithin bound id → f.EndsWithin (bound + 1) id
  | _ + 1, _, h => fun c hc => (h c hc).succ

/-- The walk with more levels finds nothing more. -/
theorem EndsWithin.descendantsWithin_succ : ∀ {bound id : Nat}, f.EndsWithin bound id →
    f.descendantsWithin (bound + 1) id = f.descendantsWithin bound id
  | bound + 1, id, h => by
    have hbelow : (f.children id).flatMap (f.descendantsWithin (bound + 1)) =
        (f.children id).flatMap (f.descendantsWithin bound) :=
      List.flatMap_congr fun c hc => (h c hc).descendantsWithin_succ
    rw [descendantsWithin, hbelow, descendantsWithin]

theorem EndsWithin.descendantsWithin_add {bound id : Nat} (h : f.EndsWithin bound id) (more : Nat) :
    f.EndsWithin (bound + more) id ∧ f.descendantsWithin (bound + more) id = f.descendantsWithin bound id := by
  induction more with
  | zero => exact ⟨h, rfl⟩
  | succ more ih => exact ⟨ih.1.succ, ih.1.descendantsWithin_succ.trans ih.2⟩

/-- A chain of children that does not end is a chain of parents. -/
theorem Linked.exists_climb (hl : f.Linked) : ∀ {bound id : Nat}, ¬f.EndsWithin bound id →
    ∃ d, f.climb^[bound] (some d) = some id
  | 0, id, _ => ⟨id, rfl⟩
  | bound + 1, id, h => by
    obtain ⟨c, hc, hnot⟩ : ∃ c ∈ f.children id, ¬f.EndsWithin bound c := by
      simpa [EndsWithin] using h
    obtain ⟨d, hd⟩ := hl.exists_climb hnot
    refine ⟨d, ?_⟩
    rw [Function.iterate_succ_apply', hd]
    exact hl.mem_children_iff.1 hc

theorem Grounded.endsWithin_size (h : f.Grounded) (hl : f.Linked) {id : Nat} (hid : id < f.size) :
    f.EndsWithin f.size id := by
  by_contra hnot
  obtain ⟨d, hd⟩ := hl.exists_climb hnot
  by_cases hlt : d < f.size
  · exact absurd (h.lt_size_of_climb hl hlt hd) (Nat.lt_irrefl _)
  · -- a number without a slot has no parent, so the chain would have to be empty
    obtain ⟨m, hm⟩ := Nat.exists_eq_succ_of_ne_zero (Nat.ne_of_gt (Nat.zero_lt_of_lt hid))
    have hnone : f.climb (some d) = none := by
      cases hp : f.parent? d with
      | none => exact hp
      | some p => exact absurd (lt_size_of_parent? hp) hlt
    rw [hm, Function.iterate_succ_apply, hnone, climb_iterate_none] at hd
    exact absurd hd (by simp)

/-- The walk with a stack visits what the bounded walks find. The induction is on how much that is. -/
theorem visit_iterate {bound : Nat} (n : Nat) : ∀ {l : List Nat}, (∀ id ∈ l, f.EndsWithin bound id) →
    (l.flatMap (f.descendantsWithin bound)).length = n → f.visit^[n] l = [] := by
  induction n with
  | zero =>
    intro l hl hn
    cases l with
    | nil => rfl
    | cons id l =>
      cases bound with
      | zero => exact (hl id (by simp)).elim
      | succ bound => simp [descendantsWithin] at hn
  | succ n ih =>
    intro l hl hn
    cases l with
    | nil => simp at hn
    | cons id l =>
      cases bound with
      | zero => exact (hl id (by simp)).elim
      | succ bound =>
        have hid : f.EndsWithin (bound + 1) id := hl id (by simp)
        have hbelow : (f.children id).flatMap (f.descendantsWithin (bound + 1)) =
            (f.children id).flatMap (f.descendantsWithin bound) :=
          List.flatMap_congr fun c hc => (hid c hc).descendantsWithin_succ
        rw [Function.iterate_succ_apply, visit_cons]
        apply ih
        · intro c hc
          rcases List.mem_append.1 hc with hc | hc
          · exact (hid c hc).succ
          · exact hl c (by simp [hc])
        · rw [List.flatMap_append, hbelow]
          simp only [List.flatMap_cons, descendantsWithin, List.length_append, List.length_cons] at hn ⊢
          omega

/-- A walk up that ends is not cut off by a bound that is no smaller. -/
theorem ancestorsWithin_of_le : ∀ {n bound : Nat} {next : Option Nat}, f.climb^[n] next = none → n ≤ bound →
    f.ancestorsWithin bound next = f.ancestorsWithin n next
  | n, bound, none, _, _ => by
    cases n <;> cases bound <;> rfl
  | 0, _, some p, h, _ => absurd (show some p = none from h) (by simp)
  | n + 1, bound + 1, some p, h, hle => by
    rw [Function.iterate_succ_apply] at h
    have hrest : f.climb^[n] (f.parent? p) = none := h
    rw [ancestorsWithin, ancestorsWithin, ancestorsWithin_of_le hrest (by omega)]

end

/-! ## Edits that avoid cycles -/

section

variable {f g : Forest}

/-- If the links of `g` are links of `f`, and links from some nodes to `p`, and these nodes are not above `p` in `f`,
the chains of parents still end: those from `p` are the same in `g`. -/
theorem Grounded.redirect (h : f.Grounded) {S : Nat → Prop} {p : Nat}
    (hlink : ∀ c q, g.parent? c = some q → f.parent? c = some q ∨ S c ∧ q = p)
    (habove : ∀ n a, f.climb^[n] (some p) = some a → ¬S a) : g.Grounded := by
  have hchain : ∀ a, (∃ n, f.climb^[n] (some p) = some a) → Acc (fun q c => g.parent? c = some q) a := by
    intro a
    induction h a with
    | intro a _ ih =>
      rintro ⟨n, hn⟩
      refine Acc.intro a fun q hq => ?_
      rcases hlink a q hq with hold | ⟨hS, -⟩
      · refine ih q hold ⟨n + 1, ?_⟩
        rw [Function.iterate_succ_apply', hn]
        exact hold
      · exact absurd hS (habove n a hn)
  intro id
  induction h id with
  | intro id _ ih =>
    refine Acc.intro id fun q hq => ?_
    rcases hlink id q hq with hold | ⟨-, rfl⟩
    · exact ih q hold
    · exact hchain q ⟨0, rfl⟩

/-- Taking links away keeps the chains finite. -/
theorem Grounded.of_links (h : f.Grounded) (hlink : ∀ c q, g.parent? c = some q → f.parent? c = some q) :
    g.Grounded :=
  h.redirect (S := fun _ => False) (p := 0) (fun c q hq => .inl (hlink c q hq)) fun _ _ _ hS => hS

theorem Grounded.detach (h : f.Grounded) (hl : f.Linked) (id : Nat) : (f.detach id).Grounded := by
  refine h.of_links fun c q hq => ?_
  rw [hl.parent?_detach] at hq
  by_cases hc : c = id
  · simp [hc] at hq
  · rwa [if_neg hc] at hq

/-- Nodes that a node is not below are not above it. -/
theorem Grounded.climb_ne_of_not_mem (h : f.Grounded) (hl : f.Linked) {p c : Nat} (hp : p < f.size)
    (hnot : p ∉ f.descendants c) (n : Nat) : f.climb^[n] (some p) ≠ some c := by
  intro hn
  exact hnot (hl.mem_descendantsWithin hn (h.lt_size_of_climb hl hp hn))

theorem Grounded.append (h : f.Grounded) (hl : f.Linked) {p c : Nat} (hp : p < f.size) (hc : c < f.size)
    (hnot : p ∉ f.descendants c) : (f.append p c).Grounded := by
  refine h.redirect (S := (· = c)) (p := p) (fun i q hq => ?_) ?_
  · rw [hl.parent?_append hc] at hq
    by_cases hi : i = c
    · rw [if_pos hi] at hq
      exact .inr ⟨hi, (Option.some.inj hq).symm⟩
    · rw [if_neg hi] at hq
      exact .inl hq
  · rintro n a hn rfl
    exact h.climb_ne_of_not_mem hl hp hnot n hn

theorem Grounded.replaceWith (h : f.Grounded) (hl : f.Linked) {id : Nat} {news : List Nat}
    (hnews : ∀ n ∈ news, n < f.size) (hid : id ∉ news)
    (hnot : ∀ p ∈ f.parent? id, ∀ n ∈ news, p ∉ f.descendants n) : (f.replaceWith id news).1.Grounded := by
  cases hp : f.parent? id with
  | none => simpa [Forest.replaceWith, hp] using h
  | some p =>
    have hlt : p < f.size := lt_size_of_mem_children (hl.mem_children_iff.2 hp)
    refine h.redirect (S := (· ∈ news)) (p := p) (fun i q hq => ?_) ?_
    · rw [hl.parent?_replaceWith hp hid hnews] at hq
      by_cases hi : i ∈ news
      · rw [if_pos hi] at hq
        exact .inr ⟨hi, (Option.some.inj hq).symm⟩
      · rw [if_neg hi] at hq
        by_cases he : i = id
        · simp [he] at hq
        · rw [if_neg he] at hq
          exact .inl hq
    · intro n a hn ha
      exact h.climb_ne_of_not_mem hl hlt (hnot p hp a ha) n hn

/-- The chain from a new node goes through earlier new nodes, and the chains of the old ones are as they were. -/
theorem Grounded.copied (h : f.Grounded) (hl : f.Linked) {copy : Nat} (hc : Copied f g copy) : g.Grounded := by
  have hold : ∀ i, i < f.size → Acc (fun p c => g.parent? c = some p) i := by
    intro i
    induction h i with
    | intro i _ ih =>
      intro hi
      refine Acc.intro i fun p hp => ?_
      rw [hc.old i hi] at hp
      exact ih p hp (lt_size_of_mem_children (hl.mem_children_iff.2 hp))
  intro i
  induction i using Nat.strongRecOn with
  | ind i ih =>
    by_cases hi : i < f.size
    · exact hold i hi
    · exact Acc.intro i fun p hp => ih p (hc.new i (Nat.not_lt.1 hi) p hp)

/-- An edit that avoids cycles keeps the chains of parents finite. -/
theorem Grounded.apply {e : Edit} (h : f.Grounded) (hl : f.Linked) (he : e.Fits f) (hc : e.AvoidsCycles f) :
    (e.apply f).Grounded := by
  cases e with
  | alloc content => exact h.copied hl (hl.alloc_copied content)
  | append parent child => exact h.append hl he.1 he.2 hc
  | removeChild parent child =>
    rw [Edit.apply, hl.removeChild_eq]
    split
    · exact h.detach hl child
    · exact h
  | detach id => exact h.detach hl id
  | importSubtree source id => exact h.copied hl (hl.importWithin_copied source source.size id)
  | replaceWith id news => exact h.replaceWith hl he.2.1 he.2.2.2 hc

theorem grounded_empty : empty.Grounded := by
  intro id
  refine Acc.intro id fun p hp => ?_
  have hnone : empty.parent? id = none := by
    cases id <;> simp [parent?, slot?, empty]
  simp [hnone] at hp

/-- After every sequence of edits that avoid cycles the chains of parents end. -/
theorem Grounded.run {es : List Edit} (h : Edit.All (fun f e => e.Fits f ∧ e.AvoidsCycles f) empty es) :
    (empty.run es).Linked ∧ (empty.run es).Grounded :=
  run_induction (P := fun f => f.Linked ∧ f.Grounded)
    (fun _ _ hf he => ⟨hf.1.apply he.1, hf.2.apply hf.1 he.1 he.2⟩) ⟨linked_empty, grounded_empty⟩ h

end

/-! ## All sequences of edits -/

/-- From the empty forest, every sequence of edits keeps the two sides of the links together: a node stands once among
the children of its parent and among no others, and without a parent it stands among none; a node is replaced exactly
if it has a parent. If the edits also avoid cycles, the walks from every node end: the one up within as many steps as
there are slots, the one down after one step for each descendant, and no larger bound lets a walk see more. -/
theorem links_agree_and_walks_end {f : Forest} {es : List Edit} (hrun : empty.run es = f)
    (hfits : Edit.All (fun g e => e.Fits g) empty es) :
    (∀ c p, (f.children p).count c = if f.parent? c = some p then 1 else 0) ∧
    (∀ id news, (Edit.replaceWith id news).Fits f → (f.replaceWith id news).2 = (f.parent? id).isSome) ∧
    (Edit.All (fun g e => e.AvoidsCycles g) empty es → ∀ id < f.size,
      f.climb^[f.size] (some id) = none ∧
      f.visit^[(f.descendants id).length] [id] = [] ∧
      ∀ bound ≥ f.size, f.ancestorsWithin bound (f.parent? id) = f.ancestors id ∧
        f.descendantsWithin bound id = f.descendants id) := by
  subst hrun
  have hlinked := Linked.run hfits
  refine ⟨hlinked, fun id news hnews => hlinked.replaceWith_snd hnews.2.2.2, fun havoids id hid => ?_⟩
  have hgrounded := (Grounded.run (hfits.and havoids)).2
  have hends := hgrounded.endsWithin_size hlinked hid
  have hup := hgrounded.climb_size hlinked hid
  refine ⟨hup, ?_, fun bound hbound => ⟨?_, ?_⟩⟩
  · apply visit_iterate
    · intro i hi
      rw [List.mem_singleton.1 hi]
      exact hends
    · rw [List.flatMap_singleton]
      rfl
  · apply ancestorsWithin_of_le _ hbound
    show (empty.run es).climb^[(empty.run es).size] ((empty.run es).climb (some id)) = none
    rw [← Function.iterate_succ_apply, Function.iterate_succ_apply', hup]
    rfl
  · obtain ⟨more, rfl⟩ := Nat.exists_eq_add_of_le hbound
    exact (hends.descendantsWithin_add more).2

/-- A row of two cells that is copied from another forest, moved below the document, and has its first cell replaced by
a new node and by the second cell. -/
def rowEdits : List Edit :=
  let source := empty.run [.alloc (.element "row" .empty), .alloc (.element "cell" .empty),
    .alloc (.element "cell" .empty), .append 1 2, .append 1 3]
  [.importSubtree source 1, .append root 1, .alloc (.text "new"), .replaceWith 2 [4, 3], .detach 2]

/-- The hypotheses and the conclusions hold at a sequence with moves between siblings. -/
theorem links_agree_and_walks_end_row : (empty.run rowEdits).descendants root = [0, 1, 4, 3] ∧
    (empty.run rowEdits).children 1 = [4, 3] ∧ (empty.run rowEdits).parent? 2 = none ∧
    (empty.run rowEdits).climb^[(empty.run rowEdits).size] (some 4) = none ∧
    (empty.run rowEdits).visit^[4] [root] = [] := by
  have hlinks := links_agree_and_walks_end (show empty.run rowEdits = _ from rfl) (by decide)
  have hwalks := hlinks.2.2 (by decide)
  exact ⟨by decide, by decide, by decide, (hwalks 4 (by decide)).1, (hwalks root (by decide)).2.1⟩

end EmailMarkup.Forest
