import EmailMarkup.Proofs.Forest.Links
/-!
# Replacements that are refused

Replacing a node takes the new nodes out of their parents before it looks for the place of the node. If the node has no
parent, nothing has happened by then. If it is one of the new nodes, its place is gone: the replacement is refused, and
all new nodes are left without parents (`replaceWith_refused`).
-/
namespace EmailMarkup.Forest

/-- `g` is `f` with the nodes `ids` taken out of their parents, and nothing else changed. -/
structure TakenOut (f g : Forest) (ids : List Nat) : Prop where
  size : g.size = f.size
  content : ∀ i, g.content i = f.content i
  parent : ∀ i, g.parent? i = if i ∈ ids then none else f.parent? i
  children : ∀ i, g.children i = (f.children i).filter (· ∉ ids)

variable {f g k : Forest}

/-- Links can be edited without a change of contents. -/
theorem content_modify (f : Forest) (id : Nat) {change : Slot → Slot} (h : ∀ s, (change s).content = s.content) (i : Nat) :
    (f.modify id change).content i = f.content i := by
  rw [content, content, slot?_modify]
  by_cases hi : id = i
  · cases hs : f.slot? i <;> simp [hi, h]
  · rw [if_neg hi]

theorem content_detach (f : Forest) (id i : Nat) : (f.detach id).content i = f.content i := by
  cases hp : f.parent? id with
  | none => rw [detach_eq hp]
  | some p =>
    simp only [detach, hp, removeChild]
    split
    · rw [content_modify, content_modify]
      · exact fun _ => rfl
      · exact fun _ => rfl
    · rfl

namespace TakenOut

theorem detach (h : f.Linked) (id : Nat) : TakenOut f (f.detach id) [id] where
  size := size_detach f id
  content := content_detach f id
  parent i := by simp [h.parent?_detach]
  children i := by
    rw [h.children_detach, (h.nodup_children i).erase_eq_filter]
    exact List.filter_congr fun c _ => by rw [Bool.eq_iff_iff]; simp

theorem trans {ids ids' : List Nat} (h : TakenOut f g ids) (h' : TakenOut g k ids') : TakenOut f k (ids ++ ids') where
  size := h'.size.trans h.size
  content i := (h'.content i).trans (h.content i)
  parent i := by
    rw [h'.parent, h.parent]
    by_cases hi : i ∈ ids <;> simp [hi]
  children i := by
    rw [h'.children, h.children, List.filter_filter]
    exact List.filter_congr fun c _ => by simp [Bool.and_comm]

/-- Taking nodes out one by one; a node that comes twice is out already. -/
theorem foldl_detach : ∀ {f : Forest} (_ : f.Linked) (ids : List Nat), TakenOut f (ids.foldl Forest.detach f) ids
  | f, _, [] => ⟨rfl, fun _ => rfl, fun _ => by simp, fun _ => by simp⟩
  | _, h, id :: ids => (detach h id).trans (foldl_detach (h.detach id) ids)

end TakenOut

/-- A node that is to take its own place has none once the new nodes are taken out. -/
theorem Linked.replaceWith_self (h : f.Linked) {id p : Nat} (hp : f.parent? id = some p) {news : List Nat}
    (hid : id ∈ news) : f.replaceWith id news = (news.foldl Forest.detach f, false) := by
  have hnot : id ∉ (news.foldl Forest.detach f).children p := by
    simp [(TakenOut.foldl_detach h news).children, hid]
  rw [Forest.replaceWith, hp]
  simp only [if_neg hnot]

/-- A replacement is refused exactly if the node has no parent or is one of the new nodes. It leaves the forest as it
was exactly if the node has no parent; otherwise all new nodes are taken out of their parents. -/
theorem replaceWith_refused (h : f.Linked) (id : Nat) (news : List Nat) :
    ((f.replaceWith id news).2 = false ↔ f.parent? id = none ∨ id ∈ news) ∧
    ((f.replaceWith id news).2 = false →
      ((f.replaceWith id news).1 = f ↔ f.parent? id = none) ∧
      (f.parent? id ≠ none → TakenOut f (f.replaceWith id news).1 news)) := by
  cases hp : f.parent? id with
  | none => simp [replaceWith, hp]
  | some p =>
    by_cases hid : id ∈ news
    · have hout := TakenOut.foldl_detach h news
      rw [h.replaceWith_self hp hid]
      refine ⟨by simp [hid], fun _ => ⟨⟨fun heq => ?_, by simp⟩, fun _ => hout⟩⟩
      -- the node itself has lost its parent
      have hnone := hout.parent id
      rw [if_pos hid, show news.foldl Forest.detach f = f from heq, hp] at hnone
      exact hnone
    · have htrue : (f.replaceWith id news).2 = true := by simp [h.replaceWith_snd hid, hp]
      simp [htrue, hid]

/-- Two elements below the document. -/
def pairEdits : List Edit :=
  [.alloc (.element "a" .empty), .alloc (.element "b" .empty), .append root 1, .append root 2]

/-- A node that is to be replaced by its sibling and itself. -/
theorem replaceWith_refused_pair : (empty.run pairEdits).Linked ∧
    ((empty.run pairEdits).replaceWith 1 [2, 1]).2 = false ∧
    TakenOut (empty.run pairEdits) ((empty.run pairEdits).replaceWith 1 [2, 1]).1 [2, 1] := by
  have hlinked : (empty.run pairEdits).Linked := Linked.run (by decide)
  have hrefused := replaceWith_refused hlinked 1 [2, 1]
  have hfalse := hrefused.1.2 (.inr (by decide))
  exact ⟨hlinked, hfalse, (hrefused.2 hfalse).2 (by decide)⟩

/-- Both of them are gone from the document, though the replacement is refused. -/
theorem replaceWith_loses_children : (empty.run pairEdits).Linked ∧ (empty.run pairEdits).children root = [1, 2] ∧
    ((empty.run pairEdits).replaceWith 1 [2, 1]).2 = false ∧
    ((empty.run pairEdits).replaceWith 1 [2, 1]).1.children root = [] :=
  ⟨Linked.run (by decide), by decide, by decide, by decide⟩

end EmailMarkup.Forest
