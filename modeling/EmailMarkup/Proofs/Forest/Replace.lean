import EmailMarkup.Proofs.Forest.Trees
/-!
# Replacing children of a node

`Replaced f g node before after old nodes ids slots` says what an edit of the children of one node did:
between the children `before` and the children `after`, the trees `nodes` now stand in the place of
trees that took up the slots `old`, and no other slot of `f` is changed. Such edits compose from left to
right (`Replaced.trans`), and replacing a node by newly planted trees is one (`replaceWith_replaced`).
-/
namespace EmailMarkup.Forest

/-- `g` is `f` with, below `node` and between `before` and `after`, the trees `nodes` in the place of
what took up the slots `old`. -/
structure Replaced (f g : Forest) (node : Nat) (before after old : List Nat) (nodes : List Node)
    (ids slots : List Nat) : Prop where
  parent : g.slot? node = (f.slot? node).map fun s => { s with children := before ++ (ids ++ after) }
  holds : Holds g (some node) ids nodes slots
  nodup : slots.Nodup
  new : ∀ i ∈ slots, i ∈ old ∨ f.size ≤ i
  frame : ∀ i < f.size, i ≠ node → i ∉ old → g.slot? i = f.slot? i
  grows : f.size ≤ g.size

namespace Replaced

variable {f g k : Forest} {node : Nat} {before after old ids slots : List Nat} {nodes : List Node} {s : Slot}

/-- The trees that stand there already. -/
theorem refl (hs : f.slot? node = some s) (hk : s.children = before ++ (ids ++ after))
    (h : Holds f (some node) ids nodes slots) (hd : slots.Nodup) :
    Replaced f f node before after slots nodes ids slots where
  parent := by rw [hs, ← hk]; rfl
  holds := h
  nodup := hd
  new _ hi := .inl hi
  frame _ _ _ _ := rfl
  grows := Nat.le_refl _

theorem mono {old' : List Nat} (h : Replaced f g node before after old nodes ids slots)
    (hsub : old ⊆ old') : Replaced f g node before after old' nodes ids slots where
  parent := h.parent
  holds := h.holds
  nodup := h.nodup
  new i hi := (h.new i hi).imp_left fun ho => hsub ho
  frame i hi hn ho := h.frame i hi hn fun hm => ho (hsub hm)
  grows := h.grows

/-- A tree elsewhere in the old forest is still there. -/
theorem holds_frame {p : Option Nat} {ids' slots' : List Nat} {nodes' : List Node}
    (h : Replaced f g node before after old nodes ids slots) (h' : Holds f p ids' nodes' slots')
    (hnode : node ∉ slots') (hdis : ∀ i ∈ slots', i ∉ old) : Holds g p ids' nodes' slots' :=
  h'.frame fun i hi => h.frame i (h'.lt_size i hi) (fun e => hnode (e ▸ hi)) (hdis i hi)

/-- One edit after the other, from left to right. -/
theorem trans {rest old' ids' slots' : List Nat} {nodes' : List Node}
    (h : Replaced f g node before rest old nodes ids slots)
    (h' : Replaced g k node (before ++ ids) after old' nodes' ids' slots')
    (hnode : node < f.size) (hnold : node ∉ old) (hlt : ∀ i ∈ old ++ old', i < f.size)
    (hdis : ∀ i ∈ old, i ∉ old') :
    Replaced f k node before after (old ++ old') (nodes ++ nodes') (ids ++ ids') (slots ++ slots') := by
  -- the trees of the first edit are in old slots of its own or in new ones, so the second keeps them
  have hkeep : ∀ i ∈ slots, i ≠ node ∧ i ∉ old' := by
    intro i hi
    rcases h.new i hi with ho | hn
    · exact ⟨fun e => hnold (e ▸ ho), hdis i ho⟩
    · refine ⟨by omega, fun ho => ?_⟩
      have := hlt i (List.mem_append_right _ ho)
      omega
  refine ⟨?_, ?_, List.nodup_append.2 ⟨h.nodup, h'.nodup, ?_⟩, ?_, ?_, Nat.le_trans h.grows h'.grows⟩
  · rw [h'.parent, h.parent, Option.map_map]
    simp [Function.comp_def]
  · refine (h.holds.frame fun i hi => ?_).append h'.holds
    exact h'.frame i (h.holds.lt_size i hi) (hkeep i hi).1 (hkeep i hi).2
  · rintro i hi j hj rfl
    rcases h'.new i hj with ho | hn
    · exact (hkeep i hi).2 ho
    · have := h.holds.lt_size i hi
      omega
  · intro i hi
    rcases List.mem_append.1 hi with hi | hi
    · exact (h.new i hi).imp_left fun ho => List.mem_append_left _ ho
    · rcases h'.new i hi with ho | hn
      · exact .inl (List.mem_append_right _ ho)
      · exact .inr (Nat.le_trans h.grows hn)
  · intro i hi hn ho
    rw [List.mem_append, not_or] at ho
    rw [h'.frame i (Nat.lt_of_lt_of_le hi h.grows) hn ho.2, h.frame i hi hn ho.1]

end Replaced

/-! ## `replaceWith` -/

theorem foldl_detach {f : Forest} : ∀ {ids : List Nat}, (∀ i ∈ ids, f.parent? i = none) → ids.foldl detach f = f
  | [], _ => rfl
  | i :: ids, h => by
    rw [List.foldl_cons, detach_eq (h i (by simp))]
    exact foldl_detach fun j hj => h j (by simp [hj])

theorem Holds.parent?_eq {f : Forest} {p : Option Nat} {ids slots : List Nat} {nodes : List Node}
    (h : Holds f p ids nodes slots) : ∀ i ∈ ids, f.parent? i = p := by
  induction h with
  | nil => simp
  | cons slot _ _ _ ih =>
    intro i hi
    rcases List.mem_cons.1 hi with rfl | hi
    · exact Forest.parent?_eq slot
    · exact ih i hi

theorem size_foldl_modify (change : Slot → Slot) (f : Forest) :
    ∀ ids : List Nat, (ids.foldl (fun f i => f.modify i change) f).size = f.size := by
  intro ids
  induction ids generalizing f with
  | nil => rfl
  | cons i ids ih => rw [List.foldl_cons, ih, size_modify]

theorem slot?_foldl_modify_not_mem (change : Slot → Slot) {j : Nat} :
    ∀ {ids : List Nat} (f : Forest), j ∉ ids → (ids.foldl (fun f i => f.modify i change) f).slot? j = f.slot? j
  | [], _, _ => rfl
  | i :: ids, f, h => by
    rw [List.mem_cons, not_or] at h
    rw [List.foldl_cons, slot?_foldl_modify_not_mem change _ h.2, slot?_modify_ne _ h.1]

theorem slot?_foldl_modify_mem (change : Slot → Slot) {j : Nat} :
    ∀ {ids : List Nat} (f : Forest), ids.Nodup → j ∈ ids →
      (ids.foldl (fun f i => f.modify i change) f).slot? j = (f.slot? j).map change
  | i :: ids, f, hd, h => by
    rw [List.nodup_cons] at hd
    rw [List.foldl_cons]
    rcases List.mem_cons.1 h with rfl | h
    · rw [slot?_foldl_modify_not_mem change _ hd.1, slot?_modify, if_pos rfl]
    · rw [slot?_foldl_modify_mem change _ hd.2 h, slot?_modify_ne]
      exact fun e => hd.1 (e ▸ h)

theorem Holds.ids_nodup {f : Forest} {p : Option Nat} {ids slots : List Nat} {nodes : List Node}
    (h : Holds f p ids nodes slots) (hd : slots.Nodup) : ids.Nodup := by
  induction h with
  | nil => simp
  | cons _ _ others _ ih =>
    rw [List.nodup_cons, List.nodup_append] at hd
    obtain ⟨hid, -, hbeside, -⟩ := hd
    exact List.nodup_cons.2 ⟨fun hm => hid (List.mem_append_right _ (others.ids_subset hm)), ih hbeside⟩

theorem splice_eq {id : Nat} {news after : List Nat} :
    ∀ {before : List Nat}, id ∉ before → splice id news (before ++ id :: after) = before ++ (news ++ after)
  | [], _ => by simp [splice]
  | c :: before, h => by
    rw [List.mem_cons, not_or] at h
    rw [List.cons_append, splice, if_neg (Ne.symm h.1), splice_eq h.2, List.cons_append]

/-- `id` is a child of `node`, between the children `before` and `after`; `s` and `t` are the slots of
the two. -/
structure IsChild (f : Forest) (node id : Nat) (s t : Slot) (before after : List Nat) : Prop where
  nodeSlot : f.slot? node = some s
  childSlot : f.slot? id = some t
  siblings : s.children = before ++ id :: after
  up : t.parent = some node
  ne : node ≠ id
  first : id ∉ before

/-- Replacing a child by newly planted trees puts them in its place. -/
theorem replaceWith_replaced {f g : Forest} {node id : Nat} {s t : Slot} {before after ids slots : List Nat}
    {nodes : List Node} (hc : IsChild f node id s t before after) (h : Planted f g none ids nodes slots) :
    Replaced f (g.replaceWith id ids).1 node before after [id] nodes ids slots := by
  have hnlt := lt_size hc.nodeSlot
  have hilt := lt_size hc.childSlot
  have hnode := (h.old node hnlt (by simp)).trans hc.nodeSlot
  have hchild := (h.old id hilt (by simp)).trans hc.childSlot
  have hnew : ∀ i ∈ ids, f.size ≤ i := fun i hi => h.new i (h.holds.ids_subset hi)
  have hnids : ∀ i < f.size, i ∉ ids := fun i hi hm => Nat.not_le.2 hi (hnew i hm)
  have hdet : ids.foldl detach g = g := foldl_detach h.holds.parent?_eq
  have hmem : id ∈ g.children node := by rw [children_eq hnode, hc.siblings]; simp
  have hr : (g.replaceWith id ids).1 =
      ids.foldl (fun g n => g.modify n fun s => { s with parent := some node })
        ((g.modify node fun s => { s with children := splice id ids s.children }).modify id
          fun s => { s with parent := none }) := by
    rw [replaceWith, parent?_eq hchild, hc.up]
    simp only [hdet, if_pos hmem]
  rw [hr]
  refine ⟨?_, h.holds.reparent h.nodup ?_ ?_, h.nodup, fun i hi => .inr (h.new i hi), ?_, ?_⟩
  · rw [slot?_foldl_modify_not_mem _ _ (hnids node hnlt), slot?_modify_ne _ hc.ne, slot?_modify_self hnode,
      hc.nodeSlot, hc.siblings, splice_eq hc.first]
    rfl
  · intro i hi
    have := hnew i hi
    rw [slot?_foldl_modify_mem _ _ (h.holds.ids_nodup h.nodup) hi, slot?_modify_ne _ (by omega),
      slot?_modify_ne _ (by omega)]
  · intro i hi hni
    have := h.new i hi
    rw [slot?_foldl_modify_not_mem _ _ hni, slot?_modify_ne _ (by omega), slot?_modify_ne _ (by omega)]
  · intro i hi hn ho
    rw [slot?_foldl_modify_not_mem _ _ (hnids i hi), slot?_modify_ne _ (by simpa using ho),
      slot?_modify_ne _ hn, h.old i hi (by simp)]
  · rw [size_foldl_modify, size_modify, size_modify]
    exact h.grows

end EmailMarkup.Forest
