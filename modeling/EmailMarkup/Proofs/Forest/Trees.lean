import EmailMarkup.Forest.Walk
/-!
# The trees that a forest holds

`Holds f parent ids nodes slots` says that the slots `ids` of `f` are the roots of the trees `nodes`,
that all of them record `parent` as their parent, and that the trees take up the slots `slots`. Trees
whose slots are not edited stay (`Holds.frame`), and every walk down reads them back. Putting a tree
into new slots makes the forest hold it (`plant_planted`), and copying trees over from another forest is
putting them into new slots (`foldl_importSubtree`).
-/
namespace EmailMarkup

/-- What the slot of a node holds. -/
def Node.content : Node → Forest.Content
  | .element tag attributes _ => .element tag attributes
  | .text content => .text content
  | .cdata content => .cdata content
  | .comment content => .comment content

namespace Forest

/-! ## Slots after an edit -/

@[simp] theorem size_modify (f : Forest) (id : Nat) (change : Slot → Slot) :
    (f.modify id change).size = f.size := by
  simp [modify, size]

@[simp] theorem size_alloc (f : Forest) (content : Content) : (f.alloc content).1.size = f.size + 1 := by
  simp [alloc, size]

@[simp] theorem alloc_snd (f : Forest) (content : Content) : (f.alloc content).2 = f.size := rfl

@[simp] theorem size_detach (f : Forest) (id : Nat) : (f.detach id).size = f.size := by
  rw [detach]
  split
  · rw [removeChild]
    split <;> simp
  · rfl

@[simp] theorem size_append (f : Forest) (parent child : Nat) : (f.append parent child).size = f.size := by
  simp [append]

theorem slot?_modify (f : Forest) (id : Nat) (change : Slot → Slot) (i : Nat) :
    (f.modify id change).slot? i = if id = i then (f.slot? i).map change else f.slot? i := by
  simp only [modify, slot?, Array.getElem?_modify]

theorem slot?_modify_self {f : Forest} {id : Nat} {s : Slot} (h : f.slot? id = some s)
    (change : Slot → Slot) : (f.modify id change).slot? id = some (change s) := by
  simp [slot?_modify, h]

theorem slot?_modify_ne (f : Forest) {id i : Nat} (h : i ≠ id) (change : Slot → Slot) :
    (f.modify id change).slot? i = f.slot? i := by
  simp [slot?_modify, Ne.symm h]

theorem slot?_alloc (f : Forest) (content : Content) (i : Nat) :
    (f.alloc content).1.slot? i = if i = f.size then some { content } else f.slot? i := by
  exact Array.getElem?_push

theorem slot?_alloc_old {f : Forest} {i : Nat} (h : i < f.size) (content : Content) :
    (f.alloc content).1.slot? i = f.slot? i := by
  rw [slot?_alloc, if_neg (by omega)]

theorem lt_size {f : Forest} {i : Nat} {s : Slot} (h : f.slot? i = some s) : i < f.size :=
  (Array.getElem?_eq_some_iff.1 h).1

/-- A forest has at least as many slots as a list without duplicates names. -/
theorem length_le_size {f : Forest} {l : List Nat} (hd : l.Nodup) (h : ∀ i ∈ l, i < f.size) : l.length ≤ f.size := by
  have hsub : l ⊆ List.range f.size := fun i hi => List.mem_range.2 (h i hi)
  simpa using hd.length_le_of_subset hsub

theorem children_eq {f : Forest} {i : Nat} {s : Slot} (h : f.slot? i = some s) :
    f.children i = s.children := by
  simp [children, h]

theorem parent?_eq {f : Forest} {i : Nat} {s : Slot} (h : f.slot? i = some s) : f.parent? i = s.parent := by
  simp [parent?, h]

theorem tag?_eq {f : Forest} {i : Nat} {n : Node} {p : Option Nat} {kids : List Nat}
    (h : f.slot? i = some ⟨n.content, p, kids⟩) : f.tag? i = n.tag? := by
  cases n <;> simp [tag?, element?, h, Node.content, Node.tag?]

theorem detach_eq {f : Forest} {i : Nat} (h : f.parent? i = none) : f.detach i = f := by
  simp [detach, h]

/-- Appending a node that has no parent edits two slots. -/
theorem append_eq {f : Forest} {child : Nat} (h : f.parent? child = none) (parent : Nat) :
    f.append parent child =
      (f.modify parent fun s => { s with children := s.children ++ [child] }).modify child
        fun s => { s with parent := some parent } := by
  rw [append, detach_eq h]

/-! ## Holding trees -/

/-- `f` holds the trees `nodes`, with their roots in the slots `ids` below `parent`, in `slots`. -/
inductive Holds (f : Forest) : Option Nat → List Nat → List Node → List Nat → Prop where
  | nil (parent : Option Nat) : Holds f parent [] [] []
  | cons {parent : Option Nat} {id : Nat} {n : Node} {kids ids : List Nat} {rest : List Node}
      {below beside : List Nat} (slot : f.slot? id = some ⟨n.content, parent, kids⟩)
      (inner : Holds f (some id) kids n.children below) (others : Holds f parent ids rest beside) :
      Holds f parent (id :: ids) (n :: rest) (id :: (below ++ beside))

namespace Holds

variable {f g : Forest} {p : Option Nat} {ids : List Nat} {nodes : List Node} {slots : List Nat}

theorem lt_size (h : Holds f p ids nodes slots) : ∀ i ∈ slots, i < f.size := by
  induction h with
  | nil => simp
  | cons slot _ _ ih₁ ih₂ =>
    intro i hi
    simp only [List.mem_cons, List.mem_append] at hi
    rcases hi with rfl | hi | hi
    · exact Forest.lt_size slot
    · exact ih₁ i hi
    · exact ih₂ i hi

theorem ids_subset (h : Holds f p ids nodes slots) : ids ⊆ slots := by
  induction h with
  | nil => simp
  | cons _ _ _ _ ih =>
    intro i hi
    rcases List.mem_cons.1 hi with rfl | hi
    · simp
    · exact List.mem_cons_of_mem _ (List.mem_append_right _ (ih hi))

/-- Trees stay where no slot of theirs is edited. -/
theorem frame (h : Holds f p ids nodes slots) (hg : ∀ i ∈ slots, g.slot? i = f.slot? i) :
    Holds g p ids nodes slots := by
  induction h with
  | nil => exact .nil _
  | cons slot _ _ ih₁ ih₂ =>
    refine .cons ((hg _ (by simp)).trans slot) (ih₁ fun i hi => hg i ?_) (ih₂ fun i hi => hg i ?_)
    · simp [hi]
    · simp [hi]

/-- Trees whose roots get another parent. -/
theorem reparent {q : Option Nat} (h : Holds f p ids nodes slots) (hd : slots.Nodup)
    (hr : ∀ i ∈ ids, g.slot? i = (f.slot? i).map fun s => { s with parent := q })
    (hg : ∀ i ∈ slots, i ∉ ids → g.slot? i = f.slot? i) : Holds g q ids nodes slots := by
  induction h with
  | nil => exact .nil _
  | @cons _ id n kids ids rest below beside slot inner others _ ih =>
    rw [List.nodup_cons, List.nodup_append] at hd
    obtain ⟨hid, -, hbeside, hdis⟩ := hd
    refine .cons (by rw [hr id (by simp), slot]; rfl) (inner.frame fun i hi => ?_)
      (ih hbeside (fun i hi => hr i (by simp [hi])) fun i hi hni => hg i (by simp [hi]) ?_)
    · -- nothing below `id` is a root
      refine hg i (by simp [hi]) fun hm => ?_
      rcases List.mem_cons.1 hm with rfl | hm
      · exact hid (by simp [hi])
      · exact hdis i hi i (others.ids_subset hm) rfl
    · intro hm
      rcases List.mem_cons.1 hm with rfl | hm
      · exact hid (by simp [hi])
      · exact hni hm

theorem append {ids' : List Nat} {nodes' : List Node} {slots' : List Nat}
    (h : Holds f p ids nodes slots) (h' : Holds f p ids' nodes' slots') :
    Holds f p (ids ++ ids') (nodes ++ nodes') (slots ++ slots') := by
  induction h with
  | nil => exact h'
  | cons slot inner _ _ ih =>
    rw [List.cons_append, List.cons_append, List.cons_append, List.append_assoc]
    exact .cons slot inner (ih h')

/-! ### Reading trees back -/

/-- Walking down to as many levels as there are slots reads the trees back. -/
theorem flatMap_treesWithin (h : Holds f p ids nodes slots) :
    ∀ bound, slots.length ≤ bound → ids.flatMap (f.treesWithin bound) = nodes := by
  induction h with
  | nil => intro _ _; rfl
  | @cons _ id n kids ids rest below beside slot inner _ ih₁ ih₂ =>
    intro bound hb
    simp only [List.length_cons, List.length_append] at hb
    obtain ⟨bound, rfl⟩ : ∃ b, bound = b + 1 := ⟨bound - 1, by omega⟩
    have hn : f.treesWithin (bound + 1) id = [n] := by
      have hbelow := ih₁ bound (by omega)
      cases n <;> simp_all [treesWithin, Node.content, Node.children]
    rw [List.flatMap_cons, hn, ih₂ (bound + 1) (by omega), List.singleton_append]

/-- Writing markup from the slots is writing it from the trees. -/
theorem join_markupWithin (h : Holds f p ids nodes slots) :
    ∀ bound, slots.length ≤ bound → String.join (ids.map (f.markupWithin bound)) = Node.markupAll nodes := by
  induction h with
  | nil => intro _ _; rfl
  | @cons _ id n kids ids rest below beside slot inner _ ih₁ ih₂ =>
    intro bound hb
    simp only [List.length_cons, List.length_append] at hb
    obtain ⟨bound, rfl⟩ : ∃ b, bound = b + 1 := ⟨bound - 1, by omega⟩
    have hn : f.markupWithin (bound + 1) id = n.markup := by
      have hbelow := ih₁ bound (by omega)
      rw [markupWithin, slot]
      cases n with
      | element tag a children =>
        simp only [Node.content, hbelow]
        cases inner <;> simp [Node.children, Node.markup, Node.markupAll, String.append_assoc]
      | _ => rfl
    rw [List.map_cons, String.join_cons, hn, ih₂ (bound + 1) (by omega), Node.markupAll]

/-- The first root of a tag is the root of the first tree of that tag. -/
theorem find?_tag (h : Holds f p ids nodes slots) (hd : slots.Nodup) (tag : String) :
    (ids.find? (fun c => f.tag? c == some tag) = none ∧ nodes.find? (Node.hasTag tag) = none) ∨
      ∃ id n kids below, ids.find? (fun c => f.tag? c == some tag) = some id ∧
        nodes.find? (Node.hasTag tag) = some n ∧ f.slot? id = some ⟨n.content, p, kids⟩ ∧
        Holds f (some id) kids n.children below ∧ (id :: below).Nodup ∧ (id :: below) ⊆ slots := by
  induction h with
  | nil => exact .inl ⟨rfl, rfl⟩
  | @cons _ id n kids ids rest below beside slot inner others _ ih =>
    have hd' := hd
    rw [List.nodup_cons, List.nodup_append] at hd'
    obtain ⟨hid, hbelow, hbeside, -⟩ := hd'
    have htag : (f.tag? id == some tag) = n.hasTag tag := by rw [tag?_eq slot, Node.hasTag]
    by_cases hn : n.hasTag tag
    · refine .inr ⟨id, n, kids, below, ?_, by simp [hn], slot, inner, ?_, ?_⟩
      · rw [List.find?_cons_of_pos (by rw [htag]; exact hn)]
      · exact List.nodup_cons.2 ⟨fun hm => hid (by simp [hm]), hbelow⟩
      · intro i hi
        rcases List.mem_cons.1 hi with rfl | hi <;> simp [*]
    · rw [List.find?_cons_of_neg (by rw [htag]; exact hn), List.find?_cons_of_neg hn]
      rcases ih hbeside with h | ⟨i, m, ks, bs, h₁, h₂, h₃, h₄, h₅, h₆⟩
      · exact .inl h
      · exact .inr ⟨i, m, ks, bs, h₁, h₂, h₃, h₄, h₅, fun j hj => by simp [h₆ hj]⟩

end Holds

/-! ## Planting -/

/-- `g` is `f` with the trees `nodes` in the new slots `slots`; below a parent, the parent's slot may
differ. -/
structure Planted (f g : Forest) (p : Option Nat) (ids : List Nat) (nodes : List Node) (slots : List Nat) :
    Prop where
  holds : Holds g p ids nodes slots
  nodup : slots.Nodup
  new : ∀ i ∈ slots, f.size ≤ i
  old : ∀ i < f.size, p ≠ some i → g.slot? i = f.slot? i
  grows : f.size ≤ g.size

namespace Planted

variable {f g : Forest} {p : Option Nat} {ids : List Nat} {nodes : List Node} {slots : List Nat}

/-- Making a new tree the last child of an old node. -/
theorem append {id parent : Nat} {n : Node} {s : Slot} (h : Planted f g none [id] [n] slots)
    (hs : f.slot? parent = some s) :
    Planted f (g.append parent id) (some parent) [id] [n] slots ∧
      (g.append parent id).slot? parent = some { s with children := s.children ++ [id] } := by
  have hlt := lt_size hs
  have hid : f.size ≤ id := h.new id (h.holds.ids_subset (by simp))
  have hne : parent ≠ id := by omega
  have hnone : g.parent? id = none := by
    obtain ⟨⟩ | ⟨slot, -, -⟩ := h.holds
    exact parent?_eq slot
  rw [append_eq hnone]
  refine ⟨⟨h.holds.reparent h.nodup ?_ ?_, h.nodup, h.new, ?_, by simpa using h.grows⟩, ?_⟩
  · intro i hi
    obtain rfl : i = id := by simpa using hi
    simp [slot?_modify, hne]
  · intro i hi hni
    have := h.new i hi
    rw [slot?_modify_ne _ (by simpa using hni), slot?_modify_ne _ (by omega)]
  · intro i hi hp
    rw [slot?_modify_ne _ (by omega), slot?_modify_ne _ (fun e => hp (by rw [e])), h.old i hi (by simp)]
  · rw [slot?_modify_ne _ hne, slot?_modify_self ((h.old parent hlt (by simp)).trans hs)]

/-- Planting goes on beside what is planted. -/
theorem trans {k : Forest} {ids' : List Nat} {nodes' : List Node} {slots' : List Nat}
    (h : Planted f g p ids nodes slots) (h' : Planted g k p ids' nodes' slots')
    (hp : ∀ i, p = some i → i < f.size) :
    Planted f k p (ids ++ ids') (nodes ++ nodes') (slots ++ slots') where
  holds := by
    refine (h.holds.frame fun i hi => h'.old i (h.holds.lt_size i hi) fun e => ?_).append h'.holds
    have := hp i e
    have := h.new i hi
    omega
  nodup := List.nodup_append.2 ⟨h.nodup, h'.nodup, fun i hi j hj e => by
    have := h.holds.lt_size i hi
    have := h'.new j hj
    omega⟩
  new i hi := by
    rcases List.mem_append.1 hi with hi | hi
    · exact h.new i hi
    · exact Nat.le_trans h.grows (h'.new i hi)
  old i hi hpi := (h'.old i (Nat.lt_of_lt_of_le hi h.grows) hpi).trans (h.old i hi hpi)
  grows := Nat.le_trans h.grows h'.grows

end Planted

/-- A new slot without children is a tree. -/
theorem alloc_planted (f : Forest) (n : Node) (h : n.children = []) :
    Planted f (f.alloc n.content).1 none [f.size] [n] [f.size] where
  holds := by
    have inner : Holds (f.alloc n.content).1 (some f.size) [] n.children [] := by rw [h]; exact .nil _
    exact .cons (by rw [slot?_alloc, if_pos rfl]) inner (.nil none)
  nodup := by simp
  new := by simp
  old _ hi _ := slot?_alloc_old hi _
  grows := by simp

theorem plant_snd (f : Forest) (n : Node) : (f.plant n).2 = f.size := by
  cases n <;> rfl

mutual

/-- Planting a tree. -/
theorem plant_planted (n : Node) (f : Forest) :
    ∃ slots, Planted f (f.plant n).1 none [f.size] [n] slots :=
  match n with
  | .element tag a children => by
    have hs : (f.alloc (.element tag a)).1.slot? f.size = some { content := .element tag a } := by
      simp [slot?_alloc]
    obtain ⟨ids, slots, h, hkids⟩ := plantAll_planted children (f.alloc (.element tag a)).1 f.size _ hs
    have hsize := h.grows
    rw [size_alloc] at hsize
    refine ⟨f.size :: (slots ++ []), .cons hkids h.holds (.nil _), ?_, ?_, ?_, ?_⟩
    · rw [List.append_nil, List.nodup_cons]
      refine ⟨fun hm => ?_, h.nodup⟩
      have := h.new _ hm
      simp only [size_alloc] at this
      omega
    · intro i hi
      rcases List.mem_cons.1 hi with rfl | hi
      · exact Nat.le_refl _
      · have := h.new i (by simpa using hi)
        simp only [size_alloc] at this
        omega
    · intro i hi _
      exact (h.old i (by simp; omega) (by simp; omega)).trans (slot?_alloc_old hi _)
    · simp only [plant, alloc_snd]; omega
  | .text content => ⟨_, alloc_planted f (.text content) rfl⟩
  | .cdata content => ⟨_, alloc_planted f (.cdata content) rfl⟩
  | .comment content => ⟨_, alloc_planted f (.comment content) rfl⟩

/-- Planting trees as the last children of a node. -/
theorem plantAll_planted (nodes : List Node) (f : Forest) (parent : Nat) (s : Slot)
    (hs : f.slot? parent = some s) :
    ∃ ids slots, Planted f (f.plantAll parent nodes) (some parent) ids nodes slots ∧
      (f.plantAll parent nodes).slot? parent = some { s with children := s.children ++ ids } :=
  match nodes with
  | [] => ⟨[], [], ⟨.nil _, by simp, by simp, fun _ _ _ => rfl, Nat.le_refl _⟩, by simpa [plantAll] using hs⟩
  | n :: rest => by
    obtain ⟨slots, h⟩ := plant_planted n f
    obtain ⟨h₁, hs₁⟩ := h.append hs
    obtain ⟨ids, slots', h₂, hs₂⟩ := plantAll_planted rest _ parent _ hs₁
    have e : f.plantAll parent (n :: rest) = ((f.plant n).1.append parent f.size).plantAll parent rest := by
      rw [← plant_snd f n]; rfl
    rw [e]
    refine ⟨_, _, h₁.trans h₂ fun i hi => ?_, by simpa using hs₂⟩
    obtain rfl : parent = i := by simpa using hi
    exact lt_size hs

end

def plantEach (f : Forest) : List Node → Forest × List Nat
  | [] => (f, [])
  | n :: rest => ((plantEach (f.plant n).1 rest).1, f.size :: (plantEach (f.plant n).1 rest).2)

theorem plantEach_planted (nodes : List Node) (f : Forest) :
    ∃ slots, Planted f (f.plantEach nodes).1 none (f.plantEach nodes).2 nodes slots := by
  induction nodes generalizing f with
  | nil => exact ⟨[], .nil _, by simp, by simp, fun _ _ _ => rfl, Nat.le_refl _⟩
  | cons n rest ih =>
    obtain ⟨slots, h⟩ := plant_planted n f
    obtain ⟨slots', h'⟩ := ih (f.plant n).1
    exact ⟨slots ++ slots', h.trans h' (by simp)⟩

/-- The forest of one tree holds it below the document. -/
theorem ofNode_holds (n : Node) :
    ∃ kids slots, (ofNode n).2 = 1 ∧ (ofNode n).1.slot? 1 = some ⟨n.content, some root, kids⟩ ∧
      Holds (ofNode n).1 (some 1) kids n.children slots ∧ (1 :: slots).Nodup ∧ root ∉ slots ∧
      (ofNode n).1.slot? root = some ⟨.document, none, [1]⟩ := by
  obtain ⟨slots, h⟩ := plant_planted n empty
  obtain ⟨h, hroot⟩ := h.append (show empty.slot? root = some { content := .document } from rfl)
  have e : ofNode n = ((empty.plant n).1.append root 1, 1) := by
    rw [ofNode, show empty.plant n = ((empty.plant n).1, 1) from Prod.ext rfl (plant_snd empty n)]
  have hd := h.nodup
  obtain ⟨⟩ | ⟨slot, inner, others⟩ := h.holds
  obtain ⟨⟩ := others
  rw [e]
  rw [List.append_nil] at hd
  refine ⟨_, _, rfl, slot, inner, hd, fun hm => ?_, hroot⟩
  have := h.new root (by simp [hm])
  exact absurd this (by decide)

/-- Whether `n` is all that the document holds. -/
def IsDocument (f : Forest) (n : Node) : Prop :=
  ∃ slots, slots.Nodup ∧ Holds f (some root) (f.children root) [n] slots

theorem ofNode_isDocument (n : Node) : (ofNode n).1.IsDocument n := by
  obtain ⟨kids, slots, -, slot, inner, hd, -, hroot⟩ := ofNode_holds n
  rw [← List.append_nil slots] at hd
  refine ⟨1 :: (slots ++ []), hd, ?_⟩
  rw [children_eq hroot]
  exact .cons slot inner (.nil _)

/-- The markup below the document is the markup of its tree. -/
theorem IsDocument.innerMarkup_root {f : Forest} {n : Node} (h : f.IsDocument n) : f.innerMarkup root = n.markup := by
  obtain ⟨slots, hd, h⟩ := h
  have hsize : slots.length ≤ f.size := length_le_size hd h.lt_size
  rw [innerMarkup, h.join_markupWithin f.size hsize]
  simp [Node.markupAll]

/-! ## Copying -/

/-- Copying a node over is planting its tree, once copying its children is planting theirs. -/
theorem importWithin_eq_plant {source : Forest} {p : Option Nat} {id bound : Nat} {n : Node} {kids : List Nat}
    (slot : source.slot? id = some ⟨n.content, p, kids⟩)
    (hkids : ∀ (f : Forest) (parent : Nat),
      kids.foldl (fun f child => let (f, c) := importWithin source bound f child; f.append parent c) f =
        f.plantAll parent n.children) (f : Forest) :
    importWithin source (bound + 1) f id = f.plant n := by
  simp only [importWithin, content, slot, children_eq slot, hkids]
  cases n <;> rfl

/-- Copying children over is planting the trees below them. -/
theorem foldl_importWithin {source : Forest} {p : Option Nat} {ids : List Nat} {nodes : List Node}
    {slots : List Nat} (h : Holds source p ids nodes slots) :
    ∀ bound, slots.length ≤ bound → ∀ (f : Forest) (parent : Nat),
      ids.foldl (fun f child => let (f, c) := importWithin source bound f child; f.append parent c) f =
        f.plantAll parent nodes := by
  induction h with
  | nil => intro _ _ _ _; rfl
  | cons slot _ _ ih₁ ih₂ =>
    intro bound hb f parent
    simp only [List.length_cons, List.length_append] at hb
    obtain ⟨bound, rfl⟩ : ∃ b, bound = b + 1 := ⟨bound - 1, by omega⟩
    rw [List.foldl_cons, importWithin_eq_plant slot (ih₁ bound (by omega)), plantAll]
    exact ih₂ (bound + 1) (by omega) _ _

/-- Copying trees over one by one is planting them. -/
theorem foldl_importSubtree {source : Forest} {p : Option Nat} {ids : List Nat} {nodes : List Node}
    {slots : List Nat} (h : Holds source p ids nodes slots) (hb : slots.length ≤ source.size) :
    ∀ (f : Forest) (copies : List Nat),
      ids.foldl (fun (f, copies) child => let (f, copy) := f.importSubtree source child; (f, copies ++ [copy]))
        (f, copies) = ((f.plantEach nodes).1, copies ++ (f.plantEach nodes).2) := by
  induction h with
  | nil => intro f copies; simp [plantEach]
  | @cons _ id n _ _ _ _ _ slot inner _ _ ih =>
    intro f copies
    simp only [List.length_cons, List.length_append] at hb
    obtain ⟨bound, hbound⟩ : ∃ b, source.size = b + 1 := ⟨source.size - 1, by omega⟩
    have hcopy : f.importSubtree source id = f.plant n := by
      rw [importSubtree, hbound]
      exact importWithin_eq_plant slot (foldl_importWithin inner bound (by omega)) f
    rw [List.foldl_cons]
    simp only [hcopy, plant_snd]
    rw [ih (by omega)]
    simp only [plantEach, List.append_assoc, List.singleton_append]

end Forest
end EmailMarkup
