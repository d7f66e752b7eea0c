import EmailMarkup.Proofs.Forest.Climb
/-!
# What a walk down visits

In a forest whose links agree, the walk down from a node visits the nodes whose chains of parents lead to it
(`Linked.mem_descendantsWithin_iff`). If the chains end, no node can be reached in two ways, so the walk visits each of
them once (`Grounded.nodup_descendantsWithin`).
-/
namespace EmailMarkup.Forest

variable {f : Forest}

theorem Linked.mem_descendantsWithin_iff (hl : f.Linked) {d bound a : Nat} :
    d ∈ f.descendantsWithin bound a ↔ ∃ n < bound, f.climb^[n] (some d) = some a := by
  constructor
  · intro h
    induction bound generalizing a with
    | zero => simp [descendantsWithin] at h
    | succ bound ih =>
      rw [descendantsWithin, List.mem_cons, List.mem_flatMap] at h
      rcases h with rfl | ⟨c, hc, hd⟩
      · exact ⟨0, by omega, rfl⟩
      · obtain ⟨n, hlt, hn⟩ := ih hd
        refine ⟨n + 1, by omega, ?_⟩
        rw [Function.iterate_succ_apply', hn]
        exact hl.mem_children_iff.1 hc
  · rintro ⟨n, hlt, hn⟩
    exact hl.mem_descendantsWithin hn hlt

namespace Grounded

theorem mem_descendants_iff (h : f.Grounded) (hl : f.Linked) {a d : Nat} (ha : a < f.size) :
    d ∈ f.descendants a ↔ ∃ n, f.climb^[n] (some d) = some a := by
  rw [descendants, hl.mem_descendantsWithin_iff]
  refine exists_congr fun n => and_iff_right_of_imp fun hn => ?_
  cases n with
  | zero => omega
  | succ n =>
    -- a node with a parent has a slot
    have hp : (f.parent? d).isSome := by
      by_contra hnone
      rw [Function.iterate_succ_apply, show f.climb (some d) = none by simpa [climb] using hnone, climb_iterate_none] at hn
      cases hn
    obtain ⟨p, hp⟩ := Option.isSome_iff_exists.1 hp
    exact h.lt_size_of_climb hl (lt_size_of_parent? hp) hn

/-- Of two children of one node, the chain of parents from a node leads to one at most. -/
theorem eq_of_climb (h : f.Grounded) {d a b p n m : Nat} (hn : f.climb^[n] (some d) = some a)
    (hm : f.climb^[m] (some d) = some b) (ha : f.parent? a = some p) (hb : f.parent? b = some p) : a = b := by
  wlog hle : n ≤ m generalizing a b n m
  · exact (this hm hn hb ha (Nat.le_of_not_le hle)).symm
  obtain ⟨k, rfl⟩ := Nat.exists_eq_add_of_le hle
  rw [Nat.add_comm, Function.iterate_add_apply, hn] at hm
  cases k with
  | zero => exact Option.some.inj hm
  | succ k =>
    -- one step from `a` and one from `b` both end at `p`, so that `p` would be above itself
    rw [Function.iterate_succ_apply, show f.climb (some a) = some p from ha] at hm
    refine absurd ?_ (h.climb_ne p k)
    rw [Function.iterate_succ_apply', hm]
    exact hb

/-- The induction is on the levels: a node does not come again below itself, and the children have no node in common. -/
theorem nodup_descendantsWithin (h : f.Grounded) (hl : f.Linked) (bound id : Nat) :
    (f.descendantsWithin bound id).Nodup := by
  induction bound generalizing id with
  | zero => simp [descendantsWithin]
  | succ bound ih =>
    rw [descendantsWithin, List.nodup_cons]
    constructor
    · intro hmem
      obtain ⟨c, hc, hid⟩ := List.mem_flatMap.1 hmem
      obtain ⟨n, -, hn⟩ := hl.mem_descendantsWithin_iff.1 hid
      refine h.climb_ne id n ?_
      rw [Function.iterate_succ_apply', hn]
      exact hl.mem_children_iff.1 hc
    · refine List.nodup_flatMap.2 ⟨fun c _ => ih c, List.Pairwise.imp_of_mem ?_ (hl.nodup_children id)⟩
      intro a b ha hb hne d hda hdb
      obtain ⟨n, -, hn⟩ := hl.mem_descendantsWithin_iff.1 hda
      obtain ⟨m, -, hm⟩ := hl.mem_descendantsWithin_iff.1 hdb
      exact hne (h.eq_of_climb hn hm (hl.mem_children_iff.1 ha) (hl.mem_children_iff.1 hb))

end Grounded

/-- A walk that two bounds leave uncut is the same with both. -/
theorem EndsWithin.descendantsWithin_eq {bound bound' id : Nat} (h : f.EndsWithin bound id) (h' : f.EndsWithin bound' id) :
    f.descendantsWithin bound id = f.descendantsWithin bound' id := by
  wlog hle : bound ≤ bound' generalizing bound bound'
  · exact (this h' h (Nat.le_of_not_le hle)).symm
  obtain ⟨more, rfl⟩ := Nat.exists_eq_add_of_le hle
  exact (h.descendantsWithin_add more).2.symm

/-- A walk has at most as many levels as it has nodes. -/
theorem EndsWithin.length_descendantsWithin : ∀ {bound id : Nat}, f.EndsWithin bound id →
    f.EndsWithin (f.descendantsWithin bound id).length id
  | bound + 1, id, h => by
    rw [descendantsWithin, List.length_cons]
    intro c hc
    have hle : (f.descendantsWithin bound c).length ≤ ((f.children id).flatMap (f.descendantsWithin bound)).length := by
      obtain ⟨before, after, hsplit⟩ := List.append_of_mem hc
      simp only [hsplit, List.flatMap_append, List.flatMap_cons, List.length_append]
      omega
    obtain ⟨more, heq⟩ := Nat.exists_eq_add_of_le hle
    rw [heq]
    exact ((h c hc).length_descendantsWithin.descendantsWithin_add more).1

/-- A bound that is no smaller than the number of nodes below a node does not cut the walk off. -/
theorem Grounded.endsWithin_of_length_le (h : f.Grounded) (hl : f.Linked) {id bound : Nat} (hid : id < f.size)
    (hle : (f.descendants id).length ≤ bound) : f.EndsWithin bound id := by
  obtain ⟨more, rfl⟩ := Nat.exists_eq_add_of_le hle
  exact ((h.endsWithin_size hl hid).length_descendantsWithin.descendantsWithin_add more).1

end EmailMarkup.Forest
