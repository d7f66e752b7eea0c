import EmailMarkup.Proofs.Forest.Walks
/-!
# Copies of subtrees

Copying a node over to another forest fills the next free slots in the order of the walk down. `CopiedAs` says this of a
copy that is being made: some children of its top are copied with all that is below them, and the numbers of the copies
are a stretch without gaps. One more child is one more stretch (`CopiedAs.append`), so that a finished copy has a slot for
every node of the subtree, in the order in which the walk visits them (`importSubtree_copies`).
-/
namespace EmailMarkup.Forest

/-- `number` takes the subtree of `f` at `id` to one of `g` at `copy` that has the same shape and the same contents. -/
structure SameSubtree (f : Forest) (id : Nat) (g : Forest) (copy : Nat) (number : Nat → Nat) : Prop where
  top : number id = copy
  walk : g.descendants copy = (f.descendants id).map number
  content : ∀ i ∈ f.descendants id, g.content (number i) = f.content i
  children : ∀ i ∈ f.descendants id, g.children (number i) = (f.children i).map number
  parent : ∀ i ∈ f.descendants id, i ≠ id → g.parent? (number i) = (f.parent? i).map number

/-- `g` is `f` with copies of the nodes `order` of `source` in the next slots. The copy of `top` has no parent and the
copies of `kids` as its children; the others have the links that they have in `source`. -/
structure CopiedAs (source f g : Forest) (number : Nat → Nat) (top : Nat) (kids order : List Nat) : Prop where
  size : g.size = f.size + order.length
  numbers : order.map number = List.range' f.size order.length
  mem : top ∈ order
  first : number top = f.size
  old : ∀ i < f.size, g.slot? i = f.slot? i
  slot : g.slot? f.size = some ⟨source.content top, none, kids.map number⟩
  below : ∀ i ∈ order, i ≠ top →
    g.slot? (number i) = some ⟨source.content i, (source.parent? i).map number, (source.children i).map number⟩

namespace CopiedAs

variable {source f g k : Forest} {number : Nat → Nat} {top c : Nat} {kids order order' : List Nat}

theorem grows (h : CopiedAs source f g number top kids order) : f.size < g.size := by
  have hpos := List.length_pos_of_mem h.mem
  rw [h.size]
  omega

theorem number_bounds (h : CopiedAs source f g number top kids order) {i : Nat} (hi : i ∈ order) :
    f.size ≤ number i ∧ number i < g.size := by
  have hmem : number i ∈ order.map number := List.mem_map_of_mem hi
  rw [h.numbers, List.mem_range'_1] at hmem
  rwa [h.size]

theorem number_ne (h : CopiedAs source f g number top kids order) {i : Nat} (hi : i ∈ order) (hne : i ≠ top) :
    number i ≠ f.size := by
  have hnodup : (order.map number).Nodup := h.numbers ▸ List.nodup_range'
  rw [← h.first]
  exact fun heq => hne (List.inj_on_of_nodup_map hnodup hi h.mem heq)

/-- The copy of a node alone. -/
theorem alloc (source f : Forest) {number : Nat → Nat} {top : Nat} (hfirst : number top = f.size) :
    CopiedAs source f (f.alloc (source.content top)).1 number top [] [top] where
  size := by simp
  numbers := by simp [hfirst]
  mem := by simp
  first := hfirst
  old i hi := slot?_alloc_old hi _
  slot := by simp [slot?_alloc]
  below i hi hne := absurd (List.mem_singleton.1 hi) hne

/-- A finished copy of a child of `top` becomes the last child of the copy of `top`. -/
theorem append (h : CopiedAs source f g number top kids order) (hc : CopiedAs source g k number c (source.children c) order')
    (hp : source.parent? c = some top) :
    CopiedAs source f (k.append f.size g.size) number top (kids ++ [c]) (order ++ order') := by
  have hlt := h.grows
  have hnone : k.parent? g.size = none := parent?_eq hc.slot
  rw [append_eq hnone]
  refine ⟨?_, ?_, List.mem_append_left _ h.mem, h.first, ?_, ?_, ?_⟩
  · rw [size_modify, size_modify, hc.size, h.size, List.length_append]
    omega
  · rw [List.map_append, h.numbers, hc.numbers, h.size, List.length_append, List.range'_append_1]
  · intro i hi
    rw [slot?_modify_ne _ (by omega), slot?_modify_ne _ (by omega), hc.old i (by omega), h.old i hi]
  · rw [slot?_modify_ne _ (by omega), slot?_modify_self ((hc.old f.size hlt).trans h.slot)]
    simp [hc.first]
  · intro i hi hne
    rcases List.mem_append.1 hi with hi | hi
    · have hbounds := h.number_bounds hi
      rw [slot?_modify_ne _ (by omega), slot?_modify_ne _ (h.number_ne hi hne), hc.old _ hbounds.2, h.below i hi hne]
    · have hbounds := hc.number_bounds hi
      by_cases hic : i = c
      · -- the only slot of the new stretch that changes
        have hslot : (k.modify f.size fun s => { s with children := s.children ++ [g.size] }).slot? g.size =
            some ⟨source.content c, none, (source.children c).map number⟩ := by
          rw [slot?_modify_ne _ (by omega), hc.slot]
        rw [hic, hc.first, slot?_modify_self hslot, hp, Option.map_some, h.first]
      · rw [slot?_modify_ne _ (hc.number_ne hi hic), slot?_modify_ne _ (by omega), hc.below i hi hic]

end CopiedAs

theorem importWithin_snd (source : Forest) (bound : Nat) (f : Forest) (id : Nat) :
    (importWithin source bound f id).2 = f.size := by
  cases bound <;> rfl

/-- The children of a node are copied one after the other. -/
theorem foldl_copiedAs {source f : Forest} {number : Nat → Nat} {bound top : Nat}
    (hchild : ∀ (g : Forest) (c : Nat), source.EndsWithin bound c →
      (source.descendantsWithin bound c).map number = List.range' g.size (source.descendantsWithin bound c).length →
      CopiedAs source g (importWithin source bound g c).1 number c (source.children c) (source.descendantsWithin bound c)) :
    ∀ {rest kids order : List Nat} {g : Forest}, CopiedAs source f g number top kids order →
      (∀ c ∈ rest, source.EndsWithin bound c ∧ source.parent? c = some top) →
      (rest.flatMap (source.descendantsWithin bound)).map number =
        List.range' g.size (rest.flatMap (source.descendantsWithin bound)).length →
      CopiedAs source f
        (rest.foldl (fun g child => (importWithin source bound g child).1.append f.size (importWithin source bound g child).2) g)
        number top (kids ++ rest) (order ++ rest.flatMap (source.descendantsWithin bound))
  | [], kids, order, g, h, _, _ => by simpa using h
  | c :: rest, kids, order, g, h, hrest, hnumbers => by
    obtain ⟨hends, hp⟩ := hrest c (by simp)
    rw [List.flatMap_cons, List.map_append, List.length_append, ← List.range'_append_1] at hnumbers
    obtain ⟨hhead, htail⟩ := List.append_inj hnumbers (by simp)
    have hcopy := hchild g c hends hhead
    have hnext := h.append hcopy hp
    have htail' : (rest.flatMap (source.descendantsWithin bound)).map number =
        List.range' ((importWithin source bound g c).1.append f.size g.size).size
          (rest.flatMap (source.descendantsWithin bound)).length := by
      rw [size_append, hcopy.size, htail]
    have hdone := foldl_copiedAs hchild hnext (fun d hd => hrest d (by simp [hd])) htail'
    rw [List.append_assoc, List.append_assoc, List.singleton_append] at hdone
    rw [List.foldl_cons, importWithin_snd, List.flatMap_cons]
    exact hdone

/-- The induction is on the levels that are copied. -/
theorem Linked.importWithin_copiedAs {source : Forest} (hl : source.Linked) {number : Nat → Nat} :
    ∀ {bound : Nat} (f : Forest) (id : Nat), source.EndsWithin bound id →
      (source.descendantsWithin bound id).map number = List.range' f.size (source.descendantsWithin bound id).length →
      CopiedAs source f (importWithin source bound f id).1 number id (source.children id) (source.descendantsWithin bound id)
  | bound + 1, f, id, hends, hnumbers => by
    rw [descendantsWithin, List.map_cons, List.length_cons, List.range'_succ, List.cons.injEq] at hnumbers
    have htop := CopiedAs.alloc source f hnumbers.1
    have hsize : (f.alloc (source.content id)).1.size = f.size + 1 := size_alloc f _
    refine foldl_copiedAs (fun g c => hl.importWithin_copiedAs g c) htop (fun c hc => ⟨hends c hc, ?_⟩) ?_
    · exact hl.mem_children_iff.1 hc
    · rw [hsize]
      exact hnumbers.2

/-- Nodes can be numbered in the order of a list in which none comes twice. -/
theorem map_idxOf {order : List Nat} (h : order.Nodup) (base : Nat) :
    order.map (fun i => base + order.idxOf i) = List.range' base order.length := by
  refine List.ext_getElem (by simp) fun i hi _ => ?_
  simp [h.idxOf_getElem]

/-- A walk visits the copies of the nodes that it visits in the other forest, if they have the same children. -/
theorem descendantsWithin_map {f g : Forest} {number : Nat → Nat} : ∀ {bound id : Nat},
    (∀ i ∈ f.descendantsWithin bound id, g.children (number i) = (f.children i).map number) →
      g.descendantsWithin bound (number id) = (f.descendantsWithin bound id).map number
  | 0, _, _ => rfl
  | bound + 1, id, h => by
    have hbelow : ∀ c ∈ f.children id, g.descendantsWithin bound (number c) = (f.descendantsWithin bound c).map number :=
      fun c hc => descendantsWithin_map fun i hi => h i (List.mem_cons_of_mem _ (List.mem_flatMap.2 ⟨c, hc, hi⟩))
    rw [descendantsWithin, descendantsWithin, h id (by simp [descendantsWithin]), List.flatMap_map, List.map_cons,
      List.map_flatMap, List.flatMap_congr hbelow]

/-- A finished copy has the shape and the contents of the subtree. -/
theorem CopiedAs.sameSubtree {source f g : Forest} {number : Nat → Nat} {id : Nat} (hl : source.Linked)
    (hg : source.Grounded) (hid : id < source.size)
    (h : CopiedAs source f g number id (source.children id) (source.descendants id)) :
    SameSubtree source id g f.size number := by
  have hslot : ∀ i ∈ source.descendants id, ∃ p, g.slot? (number i) =
      some ⟨source.content i, p, (source.children i).map number⟩ ∧ (i ≠ id → p = (source.parent? i).map number) := by
    intro i hi
    by_cases hne : i = id
    · rw [hne, h.first]
      exact ⟨none, h.slot, fun hne => absurd rfl hne⟩
    · exact ⟨_, h.below i hi hne, fun _ => rfl⟩
  have hchildren : ∀ i ∈ source.descendants id, g.children (number i) = (source.children i).map number := by
    intro i hi
    obtain ⟨p, hp, -⟩ := hslot i hi
    exact children_eq hp
  refine ⟨h.first, ?_, fun i hi => ?_, hchildren, fun i hi hne => ?_⟩
  · -- the bounds of the two walks differ, but neither cuts its walk off
    have hsame : source.descendantsWithin g.size id = source.descendants id := by
      refine EndsWithin.descendantsWithin_eq (hg.endsWithin_of_length_le hl hid ?_) (hg.endsWithin_size hl hid)
      rw [h.size]
      omega
    rw [descendants, ← hsame, ← h.first]
    exact descendantsWithin_map fun i hi => hchildren i (hsame ▸ hi)
  · obtain ⟨p, hp, -⟩ := hslot i hi
    rw [content, hp]
  · obtain ⟨p, hp, hparent⟩ := hslot i hi
    rw [parent?_eq hp]
    exact hparent hne

/-- Copying a node over from a forest whose links agree and whose chains of parents end gives a node without parent,
whose subtree has the same shape and the same contents. There is one new slot for each node of the subtree, the new
slots follow the old ones in the order of the walk down, and no old slot changes. -/
theorem importSubtree_copies {source : Forest} (hl : source.Linked) (hg : source.Grounded) {id : Nat}
    (hid : id < source.size) (f : Forest) :
    (f.importSubtree source id).2 = f.size ∧
    (f.importSubtree source id).1.parent? f.size = none ∧
    (∀ i < f.size, (f.importSubtree source id).1.slot? i = f.slot? i) ∧
    (f.importSubtree source id).1.size = f.size + (source.descendants id).length ∧
    (source.descendants id).Nodup ∧ (∀ d, d ∈ source.descendants id ↔ ∃ n, source.climb^[n] (some d) = some id) ∧
    ∃ number : Nat → Nat, (source.descendants id).map number = List.range' f.size (source.descendants id).length ∧
      SameSubtree source id (f.importSubtree source id).1 f.size number := by
  have hnodup : (source.descendants id).Nodup := hg.nodup_descendantsWithin hl source.size id
  have hnumbers := map_idxOf hnodup f.size
  have hcopy := hl.importWithin_copiedAs f id (hg.endsWithin_size hl hid) hnumbers
  exact ⟨importWithin_snd source source.size f id, parent?_eq hcopy.slot, hcopy.old, hcopy.size, hnodup,
    fun d => hg.mem_descendants_iff hl hid, _, hnumbers, hcopy.sameSubtree hl hg hid⟩

/-- A section with a heading and, inside a box, a text and a comment. -/
def sectionEdits : List Edit :=
  [.alloc (.element "section" ⟨[("class", "lead")]⟩), .alloc (.element "box" .empty), .alloc (.text "second"),
    .alloc (.element "heading" .empty), .alloc (.comment "third"), .append root 1, .append 1 4, .append 1 2, .append 2 3,
    .append 2 5]

/-- The section is copied into a forest whose first slot names children that are not there. -/
theorem importSubtree_copies_section :
    (empty.run sectionEdits).Linked ∧ (empty.run sectionEdits).Grounded ∧
    (empty.run sectionEdits).descendants 1 = [1, 4, 2, 3, 5] ∧
    ∃ number : Nat → Nat, [1, 4, 2, 3, 5].map number = [1, 2, 3, 4, 5] ∧
      SameSubtree (empty.run sectionEdits) 1
        (importSubtree ⟨#[⟨.document, none, [1, 7]⟩]⟩ (empty.run sectionEdits) 1).1 1 number := by
  have hedits : Edit.All (fun f e => e.Fits f ∧ e.AvoidsCycles f) empty sectionEdits := by decide
  obtain ⟨hl, hg⟩ := Grounded.run hedits
  have hwalk : (empty.run sectionEdits).descendants 1 = [1, 4, 2, 3, 5] := by decide
  obtain ⟨-, -, -, -, -, -, number, hnumber, hsame⟩ :=
    importSubtree_copies hl hg (show 1 < (empty.run sectionEdits).size by decide) ⟨#[⟨.document, none, [1, 7]⟩]⟩
  rw [hwalk] at hnumber
  exact ⟨hl, hg, hwalk, number, hnumber, hsame⟩

end EmailMarkup.Forest
