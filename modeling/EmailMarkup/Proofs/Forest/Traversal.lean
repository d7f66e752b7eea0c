import Mathlib.Data.Fintype.EquivFin
import Mathlib.Logic.Relation
import EmailMarkup.Proofs.Forest.Walks
/-!
# Traversals

The walks through a forest, one node at a time: the walk down keeps the nodes that are still to be visited on a stack,
the walk up keeps the next ancestor. In a forest without cycles whose links agree, both end. The walk down yields the
nodes below a node in pre-order (`EndsWithin.yields`), the walk up its chain of parents (`yields_ancestorsWithin`), and
what is below a node and what is above it are the same links read in two directions (`Linked.down_iff_isAncestor`).
-/
namespace EmailMarkup.Forest

/-! ## One node at a time -/

/-- The walk that `next` makes from a state ends, and yields the list. -/
inductive Yields {σ : Type} (next : σ → Option (Nat × σ)) : σ → List Nat → Prop
  | done {s : σ} (h : next s = none) : Yields next s []
  | more {s s' : σ} {id : Nat} {l : List Nat} (h : next s = some (id, s')) (rest : Yields next s' l) : Yields next s (id :: l)

/-- The next node of a walk down, and the stack behind it. -/
def nextDown (f : Forest) (stack : List Nat) : Option (Nat × List Nat) := stack.head?.map fun id => (id, f.visit stack)

/-- The next node of a walk up, whose parent comes after it. -/
def nextUp (f : Forest) : Option Nat → Option (Nat × Option Nat)
  | none => none
  | some id => some (id, f.parent? id)

/-- A node and one of its children. -/
def Down (f : Forest) (p c : Nat) : Prop := c ∈ f.children p

/-- `a` is above `id`. -/
def IsAncestor (f : Forest) (id a : Nat) : Prop := Relation.TransGen (fun c p => f.parent? c = some p) id a

def Acyclic (f : Forest) : Prop := ∀ id, ¬f.IsAncestor id id

section

variable {f : Forest}

/-! ## Above a node -/

theorem mem_ancestorsWithin_iff {a : Nat} : ∀ {bound : Nat} {next : Option Nat},
    a ∈ f.ancestorsWithin bound next ↔ ∃ n < bound, f.climb^[n] next = some a
  | 0, _ => by simp [ancestorsWithin]
  | bound + 1, none => by simp [ancestorsWithin, climb_iterate_none]
  | bound + 1, some p => by
    rw [ancestorsWithin, List.mem_cons, mem_ancestorsWithin_iff]
    constructor
    · rintro (rfl | ⟨n, hn, hclimb⟩)
      · exact ⟨0, by omega, rfl⟩
      · exact ⟨n + 1, by omega, hclimb⟩
    · rintro ⟨n, hn, hclimb⟩
      cases n with
      | zero => exact .inl (Option.some.inj hclimb).symm
      | succ n => exact .inr ⟨n, by omega, hclimb⟩

theorem isAncestor_iff {id a : Nat} : f.IsAncestor id a ↔ ∃ n, f.climb^[n + 1] (some id) = some a := by
  constructor
  · intro h
    induction h with
    | single hp => exact ⟨0, hp⟩
    | tail _ hp ih =>
      obtain ⟨n, hn⟩ := ih
      refine ⟨n + 1, ?_⟩
      rw [Function.iterate_succ_apply', hn]
      exact hp
  · rintro ⟨n, hn⟩
    induction n generalizing a with
    | zero => exact .single hn
    | succ n ih =>
      rw [Function.iterate_succ_apply'] at hn
      obtain ⟨c, hc, hp⟩ := Option.bind_eq_some_iff.1 hn
      exact (ih hc).tail hp

/-- The walk up meets all ancestors. -/
theorem Grounded.mem_ancestors_iff (h : f.Grounded) (hl : f.Linked) {id a : Nat} :
    a ∈ f.ancestors id ↔ f.IsAncestor id a := by
  rw [ancestors, mem_ancestorsWithin_iff, isAncestor_iff]
  constructor
  · rintro ⟨n, -, hn⟩
    exact ⟨n, hn⟩
  · rintro ⟨n, hn⟩
    have hid : id < f.size := by
      rw [Function.iterate_succ_apply] at hn
      cases hp : f.parent? id with
      | some p => exact lt_size_of_parent? hp
      | none =>
        rw [show f.climb (some id) = none from hp, climb_iterate_none] at hn
        cases hn
    exact ⟨n, Nat.lt_of_succ_lt (h.lt_size_of_climb hl hid hn), hn⟩

/-! ## Chains that end -/

/-- Being above is a strict order if there is no cycle, and there are finitely many slots. -/
theorem Acyclic.grounded (h : f.Acyclic) (hl : f.Linked) : f.Grounded := by
  have hwf : WellFounded fun p c : Fin f.size => f.IsAncestor c p := by
    have : IsTrans (Fin f.size) fun p c => f.IsAncestor c p := ⟨fun _ _ _ hab hbc => hbc.trans hab⟩
    have : Std.Irrefl fun p c : Fin f.size => f.IsAncestor c p := ⟨fun id => h id⟩
    exact Finite.wellFounded_of_trans_of_irrefl _
  have hlt {c p : Nat} (hp : f.parent? c = some p) : p < f.size := lt_size_of_mem_children (hl.mem_children_iff.2 hp)
  have hslot (id : Fin f.size) : Acc (fun p c => f.parent? c = some p) id.val := by
    induction id using hwf.induction with
    | h id ih => exact Acc.intro id.val fun p hp => ih ⟨p, hlt hp⟩ (.single hp)
  exact fun id => Acc.intro id fun p hp => hslot ⟨p, hlt hp⟩

theorem Grounded.acyclic (h : f.Grounded) : f.Acyclic := by
  intro id hcycle
  obtain ⟨n, hn⟩ := isAncestor_iff.1 hcycle
  exact h.climb_ne id n hn

/-- A number without a slot has no children, so every walk ends within the slots. -/
theorem Grounded.endsWithin (h : f.Grounded) (hl : f.Linked) (hpos : 0 < f.size) (id : Nat) : f.EndsWithin f.size id := by
  by_cases hid : id < f.size
  · exact h.endsWithin_size hl hid
  · obtain ⟨n, hn⟩ := Nat.exists_eq_succ_of_ne_zero (Nat.ne_of_gt hpos)
    rw [hn]
    exact fun c hc => absurd (lt_size_of_mem_children hc) hid

/-! ## Down -/

/-- A walk that its bound does not cut off is the node and then the walks from its children. -/
theorem EndsWithin.descendantsWithin_eq_cons : ∀ {bound id : Nat}, f.EndsWithin bound id →
    f.descendantsWithin bound id = id :: (f.children id).flatMap (f.descendantsWithin bound)
  | bound + 1, id, h => by
    rw [descendantsWithin]
    exact congrArg (id :: ·) (List.flatMap_congr fun c hc => (h c hc).descendantsWithin_succ.symm)

/-- What is on the stack below a node waits until the walk from the node is through. The induction is on the levels, and
inside it on the children. -/
theorem EndsWithin.yields {stack l : List Nat} (hstack : Yields f.nextDown stack l) : ∀ {bound id : Nat},
    f.EndsWithin bound id → Yields f.nextDown (id :: stack) (f.descendantsWithin bound id ++ l)
  | bound + 1, id, h => by
    have hchildren : ∀ cs : List Nat, (∀ c ∈ cs, f.EndsWithin bound c) →
        Yields f.nextDown (cs ++ stack) (cs.flatMap (f.descendantsWithin bound) ++ l) := by
      intro cs
      induction cs with
      | nil => exact fun _ => hstack
      | cons c cs ih =>
        intro hcs
        obtain ⟨hc, hcs⟩ := List.forall_mem_cons.1 hcs
        rw [List.flatMap_cons, List.append_assoc]
        exact hc.yields (ih hcs)
    have hstep : f.nextDown (id :: stack) = some (id, f.children id ++ stack) := by
      rw [nextDown, visit_cons]
      rfl
    exact .more hstep (hchildren (f.children id) h)

theorem EndsWithin.mem_descendantsWithin_iff {d : Nat} : ∀ {bound a : Nat}, f.EndsWithin bound a →
    (d ∈ f.descendantsWithin bound a ↔ Relation.ReflTransGen f.Down a d)
  | bound + 1, a, h => by
    rw [descendantsWithin, List.mem_cons, List.mem_flatMap, Relation.ReflTransGen.cases_head_iff, eq_comm]
    exact or_congr_right (exists_congr fun c => and_congr_right fun hc => (h c hc).mem_descendantsWithin_iff)

/-! ## Up -/

theorem yields_ancestorsWithin : ∀ {n : Nat} {next : Option Nat}, f.climb^[n] next = none →
    Yields f.nextUp next (f.ancestorsWithin n next)
  | 0, none, _ => .done rfl
  | _ + 1, none, _ => .done rfl
  | _ + 1, some _, h => .more rfl (yields_ancestorsWithin h)

theorem Grounded.yields_ancestors (h : f.Grounded) (hl : f.Linked) (id : Nat) :
    Yields f.nextUp (f.parent? id) (f.ancestors id) := by
  refine yields_ancestorsWithin ?_
  cases hp : f.parent? id with
  | none => exact climb_iterate_none f.size
  | some p => exact h.climb_size hl (lt_size_of_mem_children (hl.mem_children_iff.2 hp))

/-- What a walk up yields is the chain of parents up to a node without parent. -/
theorem Yields.chain {id : Nat} {l : List Nat} (h : Yields f.nextUp (f.parent? id) l) :
    (id :: l).IsChain (fun c p => f.parent? c = some p) ∧
      f.parent? ((id :: l).getLast (List.cons_ne_nil id l)) = none := by
  generalize hnext : f.parent? id = next at h
  induction h generalizing id with
  | @done next hnone =>
    cases next with
    | none => exact ⟨.singleton id, hnext⟩
    | some p => cases hnone
  | @more next _ p l hsome _ ih =>
    cases next with
    | none => cases hsome
    | some _ =>
      cases hsome
      obtain ⟨hchain, hlast⟩ := ih rfl
      refine ⟨.cons_cons hnext hchain, ?_⟩
      rwa [List.getLast_cons (List.cons_ne_nil p l)]

/-! ## Both directions -/

theorem Linked.down_iff_isAncestor (hl : f.Linked) {a d : Nat} :
    Relation.ReflTransGen f.Down a d ↔ a = d ∨ f.IsAncestor d a := by
  have hswap : f.Down = Function.swap fun c p => f.parent? c = some p := by
    funext p c
    exact propext hl.mem_children_iff
  rw [hswap, Relation.reflTransGen_swap, Relation.reflTransGen_iff_eq_or_transGen, IsAncestor]

/-- A node stands once among the children of its parent, so what stands before it is determined. -/
theorem Linked.precedingSiblings_eq (h : f.Linked) {id parent : Nat} {before after : List Nat}
    (hp : f.parent? id = some parent) (hc : f.children parent = before ++ id :: after) :
    f.precedingSiblings id = before.reverse := by
  have hcount := h id parent
  rw [if_pos hp, hc, List.count_append, List.count_cons_self] at hcount
  have hnot : ∀ c ∈ before, (c != id) = true := by
    intro c hmem
    have hzero : before.count id = 0 := by omega
    exact bne_iff_ne.2 fun heq => List.count_eq_zero.1 hzero (heq ▸ hmem)
  have htake : (f.children parent).takeWhile (· != id) = before := by
    rw [hc, List.takeWhile_append_of_pos hnot]
    simp
  simp only [precedingSiblings, hp, htake]
  rw [if_pos (by simp [hc])]

end

/-- In a forest with its document, without cycles and with links that agree: the walk down from a node ends and yields the
nodes below it, each once, in pre-order; the walk up yields its chain of parents up to a node without parent; of two
nodes, one is below the other exactly if the other is above it; and the siblings before a node are the children of its
parent before it, the nearest first. -/
theorem traversals_exact {f : Forest} (hpos : 0 < f.size) (hl : f.Linked) (ha : f.Acyclic) :
    (∀ id, Yields f.nextDown [id] (f.descendants id) ∧
      f.descendants id = id :: (f.children id).flatMap f.descendants ∧
      (f.descendants id).Nodup ∧ ∀ d, d ∈ f.descendants id ↔ Relation.ReflTransGen f.Down id d) ∧
    (∀ id, Yields f.nextUp (f.parent? id) (f.ancestors id) ∧ (id :: f.ancestors id).IsChain (fun c p => f.parent? c = some p) ∧
      f.parent? ((id :: f.ancestors id).getLast (List.cons_ne_nil _ _)) = none) ∧
    (∀ a d, d ≠ a → (d ∈ f.descendants a ↔ a ∈ f.ancestors d)) ∧
    ∀ id, (f.parent? id = none → f.precedingSiblings id = []) ∧ ∀ p, f.parent? id = some p →
      ∃ before after, f.children p = before ++ id :: after ∧ f.precedingSiblings id = before.reverse := by
  have hg := ha.grounded hl
  have hends := hg.endsWithin hl hpos
  have hup := hg.yields_ancestors hl
  refine ⟨fun id => ⟨?_, (hends id).descendantsWithin_eq_cons, hg.nodup_descendantsWithin hl _ id,
    fun d => (hends id).mem_descendantsWithin_iff⟩, fun id => ⟨hup id, (hup id).chain⟩, fun a d hne => ?_, fun id =>
    ⟨fun hnone => by rw [precedingSiblings, hnone], fun p hp => ?_⟩⟩
  · have hempty : Yields f.nextDown [] [] := .done rfl
    have hyields := (hends id).yields hempty
    rwa [List.append_nil] at hyields
  · rw [descendants, (hends a).mem_descendantsWithin_iff, hl.down_iff_isAncestor, hg.mem_ancestors_iff hl]
    exact or_iff_right (Ne.symm hne)
  · obtain ⟨before, after, hsplit⟩ := List.append_of_mem (hl.mem_children_iff.2 hp)
    exact ⟨before, after, hsplit, hl.precedingSiblings_eq hp hsplit⟩

/-- The walks through the row that is left after the edits. -/
theorem traversals_exact_row : (0 < (empty.run rowEdits).size ∧ (empty.run rowEdits).Linked ∧
      (empty.run rowEdits).Acyclic) ∧
    Yields (empty.run rowEdits).nextDown [root] [0, 1, 4, 3] ∧
    Yields (empty.run rowEdits).nextUp (some 1) [1, 0] ∧
    (3 ∈ (empty.run rowEdits).descendants root ↔ root ∈ (empty.run rowEdits).ancestors 3) ∧
    (empty.run rowEdits).precedingSiblings 3 = [4] := by
  have hfits : Edit.All (fun g e => e.Fits g) empty rowEdits := by decide
  have havoids : Edit.All (fun g e => e.AvoidsCycles g) empty rowEdits := by decide
  obtain ⟨hl, hg⟩ := Grounded.run (hfits.and havoids)
  have hpos : 0 < (empty.run rowEdits).size := by decide
  obtain ⟨hdown, hup, hboth, -⟩ := traversals_exact hpos hl hg.acyclic
  exact ⟨⟨hpos, hl, hg.acyclic⟩, (hdown root).1, (hup 3).1, hboth root 3 (by decide), by decide⟩

end EmailMarkup.Forest
