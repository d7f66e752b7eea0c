import EmailMarkup.Include.InPlace
import EmailMarkup.Include.Resolver
import EmailMarkup.Proofs.Forest.Replace
import EmailMarkup.Proofs.Include.Calls
import EmailMarkup.Proofs.Include.Coupled
import EmailMarkup.Proofs.Template.Reader
/-!
# Expanding in place is expanding the tree

`Replaces` and `Expands` say when editing a forest follows rewriting the trees that the forest holds: the
two actions are `Coupled`, and what comes out of them differs only in the slots the trees lie in. The walk
visits the children of a node from left to right while it edits them (`foldlM_visit_coupled`), what is
included is read, expanded and spliced in as trees (`spliceMarkup_coupled`), and the levels of includes
carry the induction (`expandBelow_expands`). In the end no slot is left to tell the two apart, and the
actions are equal in the monad of any resolver (`expandInPlace_eq`).
-/
namespace EmailMarkup.Include

open EmailMarkup.Forest

variable {m : Type → Type} [Monad m]

/-! ## The walk -/

/-- One child on the walk. -/
def visit (replace : Forest → Nat → ExceptT Error m Forest) (bound : Nat) (f : Forest) (child : Nat) :
    ExceptT Error m Forest :=
  match f.tag? child with
  | none => return f
  | some tag => if tag = includeTag then replace f child else walkIncludes replace bound f child

theorem walkIncludes_succ (replace : Forest → Nat → ExceptT Error m Forest) (bound : Nat) (f : Forest) (node : Nat) :
    walkIncludes replace (bound + 1) f node = (f.children node).foldlM (visit replace bound) f := rfl

/-- Replacing an include in a forest puts the trees that `rewrite` yields in its place. -/
def Replaces (replace : Forest → Nat → ExceptT Error m Forest)
    (rewrite : String → Attributes → ExceptT Error m (List Node)) : Prop :=
  ∀ ⦃f : Forest⦄ ⦃node id : Nat⦄ ⦃s t : Slot⦄ ⦃tag : String⦄ ⦃b a : Attributes⦄ ⦃before after : List Nat⦄,
    IsChild f node id s t before after → s.content = .element tag b → t.content = .element includeTag a →
    Coupled (fun g nodes => ∃ ids slots, Replaced f g node before after [id] nodes ids slots)
      (replace f id) (rewrite tag a)

/-- Expanding below a node of a forest rewrites the trees below it. -/
def Expands (expand : Forest → Nat → ExceptT Error m Forest)
    (rewrite : String → List Node → ExceptT Error m (List Node)) : Prop :=
  ∀ ⦃f : Forest⦄ ⦃node : Nat⦄ ⦃s : Slot⦄ ⦃tag : String⦄ ⦃b : Attributes⦄ ⦃slots : List Nat⦄ ⦃nodes : List Node⦄,
    f.slot? node = some s → s.content = .element tag b → Holds f (some node) s.children nodes slots →
    (node :: slots).Nodup →
    Coupled (fun g nodes => ∃ ids slots', Replaced f g node [] [] slots nodes ids slots')
      (expand f node) (rewrite tag nodes)

variable [LawfulMonad m] {replace : Forest → Nat → ExceptT Error m Forest}
  {rewrite : String → Attributes → ExceptT Error m (List Node)}

/-- An element whose children are replaced is replaced by itself with the new children. -/
theorem Replaced.element {f g : Forest} {node id : Nat} {s t : Slot} {before after below ids slots : List Nat}
    {tag : String} {a : Attributes} {nodes : List Node} (hc : IsChild f node id s t before after)
    (ht : t.content = .element tag a) (hd : (node :: id :: below).Nodup)
    (h : Replaced f g id [] [] below nodes ids slots) :
    Replaced f g node before after (id :: below) [.element tag a nodes] [id] (id :: slots) := by
  rw [List.nodup_cons, List.nodup_cons] at hd
  have hslot : g.slot? id = some ⟨.element tag a, some node, ids⟩ := by
    rw [h.parent, hc.childSlot, ← ht, ← hc.up]
    simp
  refine ⟨?_, ?_, List.nodup_cons.2 ⟨fun hm => ?_, h.nodup⟩, ?_, ?_, h.grows⟩
  · rw [h.frame node (lt_size hc.nodeSlot) hc.ne fun hm => hd.1 (by simp [hm]), hc.nodeSlot]
    simp [← hc.siblings]
  · have := Holds.cons (n := .element tag a nodes) hslot h.holds (.nil _)
    simpa using this
  · rcases h.new id hm with ho | hn
    · exact hd.2.1 ho
    · exact Nat.not_le.2 (lt_size hc.childSlot) hn
  · intro i hi
    rcases List.mem_cons.1 hi with rfl | hi
    · simp
    · exact (h.new i hi).imp_left fun ho => List.mem_cons_of_mem _ ho
  · intro i hi _ ho
    rw [List.mem_cons, not_or] at ho
    exact h.frame i hi ho.1 ho.2

/-- Visiting a child rewrites its tree, if the walk below it does. -/
theorem visit_coupled (h : Replaces replace rewrite) {bound : Nat} {f : Forest} {node id : Nat} {s : Slot}
    {tag : String} {b : Attributes} {before after kids below : List Nat} {n : Node}
    (hc : IsChild f node id s ⟨n.content, some node, kids⟩ before after) (hs : s.content = .element tag b)
    (inner : Holds f (some id) kids n.children below) (hd : (node :: id :: below).Nodup)
    (hwalk : ∀ t a children, n = .element t a children →
      Coupled (fun g nodes => ∃ ids slots, Replaced f g id [] [] below nodes ids slots)
        (walkIncludes replace bound f id) (replaceAll rewrite t children)) :
    Coupled (fun g nodes => ∃ ids slots, Replaced f g node before after (id :: below) nodes ids slots)
      (visit replace bound f id) (replaceIn rewrite tag n) := by
  have hkept : Replaced f f node before after (id :: below) [n] [id] (id :: below) := by
    refine .refl hc.nodeSlot hc.siblings ?_ (List.nodup_cons.1 hd).2
    simpa using Holds.cons hc.childSlot inner (.nil _)
  rw [visit, tag?_eq hc.childSlot]
  cases n with
  | element t a children =>
    simp only [Node.tag?, replaceIn]
    split
    · rename_i ht
      subst ht
      exact (h hc hs rfl).mono fun g nodes ⟨ids, slots, hr⟩ => ⟨ids, slots, hr.mono (by simp)⟩
    · rw [← bind_pure (walkIncludes replace bound f id)]
      exact (hwalk t a children rfl).bind fun g nodes ⟨ids, slots, hr⟩ =>
        .pure ⟨_, _, Replaced.element hc rfl hd hr⟩
  | _ => exact .pure ⟨_, _, hkept⟩

/-- Visiting one more child before the others. -/
theorem foldlM_visit_cons {bound : Nat} {f : Forest} {node id : Nat} {s : Slot} {tag : String} {n : Node}
    {rest : List Node} {before ids after old beside : List Nat} (hnode : f.slot? node = some s)
    (hb : ∀ i ∈ id :: ids, i ∉ before) (others : Holds f (some node) ids rest beside)
    (hd : (node :: (old ++ beside)).Nodup) (hlt : ∀ i ∈ old, i < f.size)
    (hfirst : Coupled (fun g nodes => ∃ ids' slots, Replaced f g node before (ids ++ after) old nodes ids' slots)
      (visit replace bound f id) (replaceIn rewrite tag n))
    (hrest : ∀ g ids', g.slot? node = some { s with children := (before ++ ids') ++ (ids ++ after) } →
      Holds g (some node) ids rest beside → (∀ i ∈ ids, i ∉ before ++ ids') →
      Coupled (fun k nodes => ∃ ids₂ slots, Replaced g k node (before ++ ids') after beside nodes ids₂ slots)
        (ids.foldlM (visit replace bound) g) (replaceAll rewrite tag rest)) :
    Coupled (fun g nodes => ∃ ids' slots, Replaced f g node before after (old ++ beside) nodes ids' slots)
      ((id :: ids).foldlM (visit replace bound) f) (replaceAll rewrite tag (n :: rest)) := by
  rw [List.nodup_cons, List.nodup_append] at hd
  obtain ⟨hn, -, -, hdis⟩ := hd
  have hdis' : ∀ i ∈ beside, i ∉ old := fun i hi hm => hdis i hm i hi rfl
  rw [List.foldlM_cons, replaceAll]
  refine hfirst.bind ?_
  rintro g first ⟨ids', slots, hr⟩
  have hnode' : g.slot? node = some { s with children := (before ++ ids') ++ (ids ++ after) } := by
    rw [hr.parent, hnode]
    simp
  have hbefore : ∀ i ∈ ids, i ∉ before ++ ids' := by
    -- what stands before is older than the child visited, a part of it, or new
    intro i hi hm
    have hi' := others.ids_subset hi
    rcases List.mem_append.1 hm with hm | hm
    · exact hb i (by simp [hi]) hm
    · rcases hr.new i (hr.holds.ids_subset hm) with ho | hn
      · exact hdis' i hi' ho
      · exact Nat.not_le.2 (others.lt_size i hi') hn
  rw [← bind_pure (List.foldlM _ g ids)]
  refine (hrest g ids' hnode' (hr.holds_frame others (fun hm => hn (by simp [hm])) hdis') hbefore).bind ?_
  rintro k later ⟨ids₂, slots₂, hr'⟩
  refine .pure ⟨_, _, hr.trans hr' (lt_size hnode) (fun hm => hn (by simp [hm])) ?_ fun i hi hm => hdis' i hm hi⟩
  intro i hi
  rcases List.mem_append.1 hi with hi | hi
  · exact hlt i hi
  · exact others.lt_size i hi

/-- Visiting children from left to right rewrites their trees. The levels left are counted against the
slots that the trees take up, and what is visited already stands in `before`. -/
theorem foldlM_visit_coupled (h : Replaces replace rewrite) (bound : Nat) :
    ∀ (nodes : List Node) {f : Forest} {node : Nat} {s : Slot} {tag : String} {b : Attributes}
      {before ids after slots : List Nat}, f.slot? node = some s → s.content = .element tag b →
      s.children = before ++ (ids ++ after) → Holds f (some node) ids nodes slots → (node :: slots).Nodup →
      (∀ i ∈ ids, i ∉ before) → slots.length ≤ bound →
      Coupled (fun g nodes => ∃ ids' slots', Replaced f g node before after slots nodes ids' slots')
        (ids.foldlM (visit replace bound) f) (replaceAll rewrite tag nodes) := by
  induction bound with
  | zero =>
    intro nodes f node s tag b before ids after slots hnode _ hk hh _ _ hlen
    obtain ⟨⟩ | _ := hh
    · exact .pure ⟨[], [], .refl hnode hk (.nil _) (by simp)⟩
    · simp at hlen
  | succ bound ih =>
    intro nodes
    induction nodes with
    | nil =>
      intro f node s tag b before ids after slots hnode _ hk hh _ _ _
      obtain ⟨⟩ := hh
      exact .pure ⟨[], [], .refl hnode hk (.nil _) (by simp)⟩
    | cons n rest ihrest =>
      intro f node s tag b before ids after slots hnode hs hk hh hd hb hlen
      obtain _ | @⟨_, id, _, kids, ids, _, below, beside, slot, inner, others⟩ := hh
      simp only [List.length_cons, List.length_append] at hlen
      have hd' := hd
      rw [List.nodup_cons, List.mem_cons, List.nodup_cons, List.mem_append, List.mem_append, List.nodup_append] at hd'
      simp only [not_or] at hd'
      obtain ⟨⟨hne, hnbelow, hnbeside⟩, ⟨hid, -⟩, hbelow, hbeside, -⟩ := hd'
      have hc : IsChild f node id s ⟨n.content, some node, kids⟩ before (ids ++ after) :=
        ⟨hnode, slot, hk, rfl, hne, hb id (by simp)⟩
      rw [← List.cons_append] at hd ⊢
      refine foldlM_visit_cons hnode hb others hd ?_ (visit_coupled h hc hs inner ?_ ?_) ?_
      · intro i hi
        rcases List.mem_cons.1 hi with rfl | hi
        · exact lt_size slot
        · exact inner.lt_size i hi
      · simp [hne, hnbelow, hid, hbelow]
      · rintro t a children rfl
        rw [walkIncludes_succ, children_eq slot]
        exact ih children slot rfl (by simp) inner (List.nodup_cons.2 ⟨hid, hbelow⟩) (by simp) (by omega)
      · intro g ids' hnode' hothers hbefore
        exact ihrest hnode' hs rfl hothers (List.nodup_cons.2 ⟨hnbeside, hbeside⟩) hbefore (by omega)

/-- Walking as many levels as there are slots reaches every include. -/
theorem Replaces.expands (h : Replaces replace rewrite) :
    Expands (fun f node => walkIncludes replace f.size f node) (replaceAll rewrite) := by
  intro f node s tag b slots nodes hnode hs hh hd
  have hlen : (node :: slots).length ≤ f.size := by
    refine length_le_size hd fun i hi => ?_
    rcases List.mem_cons.1 hi with rfl | hi
    · exact lt_size hnode
    · exact hh.lt_size i hi
  rw [List.length_cons] at hlen
  obtain ⟨bound, hbound⟩ : ∃ b, f.size = b + 1 := ⟨f.size - 1, by omega⟩
  show Coupled _ (walkIncludes replace f.size f node) _
  rw [hbound, walkIncludes_succ, children_eq hnode]
  exact foldlM_visit_coupled h bound nodes hnode hs (by simp) hh hd (by simp) (by omega)

/-! ## Splicing -/

theorem spliceBlock_replaced {f : Forest} {node id : Nat} {s t : Slot} {before after : List Nat}
    (hc : IsChild f node id s t before after) (tag : String) (a : Attributes) (content : String) :
    ∃ ids slots, Replaced f (spliceBlock f id tag a content) node before after [id] [.block tag a content]
      ids slots := by
  obtain ⟨slots, h⟩ := plant_planted (.block tag a content) f
  exact ⟨_, _, replaceWith_replaced hc h⟩

theorem spliceChildren_replaced {f source : Forest} {node id parent : Nat} {s t s' : Slot}
    {before after slots : List Nat} {nodes : List Node} (hc : IsChild f node id s t before after)
    (hparent : source.slot? parent = some s') (h : Holds source (some parent) s'.children nodes slots)
    (hd : slots.Nodup) :
    ∃ ids slots, Replaced f (spliceChildren f id source parent) node before after [id] nodes ids slots := by
  obtain ⟨slots', hplanted⟩ := plantEach_planted nodes f
  rw [spliceChildren, children_eq hparent, foldl_importSubtree h (length_le_size hd h.lt_size)]
  exact ⟨_, _, replaceWith_replaced hc hplanted⟩

/-- The first child of a tag in a forest holds the first child of that tag in the tree. -/
theorem childByTag?_cases {g : Forest} {root : Nat} {s : Slot} {slots : List Nat} {t : Template}
    (hroot : g.slot? root = some s) (h : Holds g (some root) s.children t.children slots) (hd : slots.Nodup)
    (tag : String) :
    (g.childByTag? root tag = none ∧ t.root.child? tag = none) ∨
      ∃ id n ids below, g.childByTag? root tag = some id ∧ t.root.child? tag = some n ∧
        g.slot? id = some ⟨n.content, some root, ids⟩ ∧ Holds g (some id) ids n.children below ∧
        (id :: below).Nodup := by
  rw [childByTag?, children_eq hroot]
  rcases h.find?_tag hd tag with hn | ⟨id, n, ids, below, h₁, h₂, h₃, h₄, h₅, -⟩
  · exact .inl hn
  · exact .inr ⟨id, n, ids, below, h₁, h₂, h₃, h₄, h₅⟩

/-- The section of a forest holds the section of its tree. -/
theorem sectionIn?_cases {g : Forest} {root : Nat} {s : Slot} {slots : List Nat} {t : Template}
    (hroot : g.slot? root = some s) (h : Holds g (some root) s.children t.children slots) (hd : slots.Nodup)
    (parent : String) :
    (sectionIn? (parent == Template.headTag) g root = none ∧ section? parent t = none) ∨
      ∃ id n ids below, sectionIn? (parent == Template.headTag) g root = some id ∧ section? parent t = some n ∧
        g.slot? id = some ⟨n.content, some root, ids⟩ ∧ Holds g (some id) ids n.children below ∧
        (id :: below).Nodup := by
  have hcases := childByTag?_cases hroot h hd
  rw [sectionIn?, section?]
  split
  · rcases hcases Template.headTag with ⟨h₁, h₂⟩ | ⟨id, n, ids, below, h₁, h₂, hrest⟩
    · rw [h₁, Template.head?, h₂]
      exact hcases Template.bodyTag
    · rw [h₁, Template.head?, h₂]
      exact .inr ⟨id, n, ids, below, rfl, rfl, hrest⟩
  · exact hcases Template.bodyTag

theorem isUnderHead_eq {f : Forest} {node id : Nat} {s t : Slot} {before after : List Nat} {tag : String}
    {b : Attributes} (hc : IsChild f node id s t before after) (hs : s.content = .element tag b) :
    isUnderHead f id = (tag == Template.headTag) := by
  have htag : f.tag? node = some tag := by
    obtain ⟨c, p, kids⟩ := s
    obtain rfl : c = .element tag b := hs
    exact tag?_eq (n := .element tag b []) hc.nodeSlot
  rw [isUnderHead, parent?_eq hc.childSlot, hc.up, Option.bind_some, htag, Option.some_beq_some]

section

variable {expand : Forest → Nat → ExceptT Error m Forest}
  {rewriteAll : String → List Node → ExceptT Error m (List Node)}

/-- A whole template is expanded in a forest of its own, and its section is copied over. -/
theorem spliceDocument_coupled (h : Expands expand rewriteAll) {f : Forest} {node id : Nat} {s t : Slot}
    {before after : List Nat} {tag : String} {b : Attributes} (hc : IsChild f node id s t before after)
    (hs : s.content = .element tag b) (d : Template) :
    Coupled (fun g nodes => ∃ ids slots, Replaced f g node before after [id] nodes ids slots)
      (spliceMarkup expand f id (.document d)) (expandMarkup rewriteAll tag (.document d)) := by
  obtain ⟨kids, slots, hid, hroot, hh, hd, -, -⟩ := ofNode_holds d.root
  rw [spliceMarkup, expandMarkup]
  simp only [hid, isUnderHead_eq hc hs]
  refine (h hroot rfl hh hd).bind ?_
  rintro g children ⟨ids, slots', hr⟩
  have hroot' : g.slot? 1 = some ⟨d.root.content, some Forest.root, ids⟩ := by
    rw [hr.parent, hroot]
    simp
  rcases sectionIn?_cases (t := { d with children }) hroot' hr.holds hr.nodup tag with
    ⟨h₁, h₂⟩ | ⟨chosen, n, ids', below, h₁, h₂, hslot, hbelow, hd'⟩
  · obtain ⟨slots, hp⟩ := plantEach_planted [] f
    simp only [h₁, h₂]
    exact .pure ⟨_, _, replaceWith_replaced hc hp⟩
  · simp only [h₁, h₂]
    exact .pure (spliceChildren_replaced hc hslot hbelow (List.nodup_cons.1 hd').2)

/-- A fragment is expanded below the body of the template around it, and copied over from there. -/
theorem spliceFragment_coupled (h : Expands expand rewriteAll) {f : Forest} {node id : Nat} {s t : Slot}
    {before after : List Nat} {tag : String} (hc : IsChild f node id s t before after) {d : Template} {body : Node}
    (hbody : d.body? = some body) :
    Coupled (fun g nodes => ∃ ids slots, Replaced f g node before after [id] nodes ids slots)
      (spliceMarkup expand f id (.fragment d)) (expandMarkup rewriteAll tag (.fragment d)) := by
  obtain ⟨kids, slots, hid, hroot, hh, hd, -, -⟩ := ofNode_holds d.root
  rcases childByTag?_cases (t := d) hroot hh (List.nodup_cons.1 hd).2 Template.bodyTag with
    ⟨-, h₂⟩ | ⟨place, n, ids, below, h₁, h₂, hslot, hbelow, hd'⟩
  · rw [Template.body?, h₂] at hbody
    cases hbody
  · obtain rfl : n = body := Option.some.inj (h₂.symm.trans hbody)
    obtain ⟨a, children, rfl⟩ : ∃ a children, n = .element Template.bodyTag a children := by
      have htag := List.find?_some h₂
      cases n <;> simp_all [Node.hasTag, Node.tag?]
    rw [spliceMarkup, expandMarkup, hbody]
    simp only [hid, h₁]
    rw [← bind_pure (rewriteAll _ _)]
    refine (h hslot rfl hbelow hd').bind ?_
    rintro g nodes ⟨ids', slots', hr⟩
    have hslot' : g.slot? place = some ⟨.element Template.bodyTag a, some 1, ids'⟩ := by
      rw [hr.parent, hslot]
      simp [Node.content]
    exact .pure (spliceChildren_replaced hc hslot' hr.holds hr.nodup)

end

/-! ## Fragments -/

/-- The template around a fragment keeps its opening tags. -/
theorem protect_wrapFragment (s : List Char) :
    ∃ r, Template.protect (wrapFragment s) = "<mjml><mj-body>".toList ++ r := ⟨_, rfl⟩

/-- A document that opens with a body has that body as its first child. -/
theorem readDocument_body {maxDepth : Nat} {r : List Char} {n : Node}
    (h : Template.readDocument maxDepth ("<mjml><mj-body>".toList ++ r) = .ok n) :
    ∃ children more, n.children = .element Template.bodyTag .empty children :: more := by
  cases maxDepth with
  | zero => cases h
  | succ maxDepth =>
    have hopen : Template.readDocument (maxDepth + 1) ("<mjml><mj-body>".toList ++ r) = (do
        let read ← Template.readContent (maxDepth + 1) ("mj-body>".toList ++ r).length
          ⟨Template.bodyTag, .empty, []⟩ [⟨Template.rootTag, .empty, []⟩] r
        let rest ← Template.skipMisc false read.2
        if rest.isEmpty then return read.1
        throw (.malformed .contentAfterRoot rest)) := rfl
    obtain ⟨⟨node, rest⟩, hread, hrest⟩ := bind_eq_ok.1 (hopen.symm.trans h)
    obtain ⟨children, more, hnode⟩ := Template.readContent_within hread
    obtain ⟨rest', -, hrest⟩ := bind_eq_ok.1 hrest
    split at hrest
    · obtain rfl : node = n := Except.ok.inj hrest
      exact ⟨children, more, by rw [hnode]; rfl⟩
    · cases hrest

/-- A fragment that can be read has a body around it. -/
theorem ofChars_wrapFragment {maxDepth : Nat} {s : List Char} {t : Template}
    (h : Template.ofChars maxDepth (wrapFragment s) = .ok t) : ∃ body, t.body? = some body := by
  have hblank : (wrapFragment s).all Text.isBlank = false := rfl
  rw [Template.ofChars, hblank, if_neg Bool.false_ne_true, Template.ofProtected] at h
  split at h
  · rename_i n hn
    obtain ⟨r, hr⟩ := protect_wrapFragment s
    rw [hr] at hn
    obtain ⟨children, more, hc⟩ := readDocument_body hn
    obtain rfl := Except.ok.inj h
    refine ⟨.element Template.bodyTag .empty children, ?_⟩
    show n.children.find? (Node.hasTag Template.bodyTag) = _
    rw [hc]
    rfl
  · cases h

theorem readMarkup_fragment {limits : Limits} {content : String} {t : Template}
    (h : readMarkup limits content = .ok (.fragment t)) : ∃ body, t.body? = some body := by
  unfold readMarkup at h
  extract_lets trimmed at h
  split at h
  · split at h <;> cases h
  · split at h <;> cases h
    rename_i ht
    exact ofChars_wrapFragment ht

/-! ## The whole expansion -/

/-- Included markup, once it is read. -/
theorem spliceMarkup_coupled {expand : Forest → Nat → ExceptT Error m Forest}
    {rewriteAll : String → List Node → ExceptT Error m (List Node)} (h : Expands expand rewriteAll) {f : Forest}
    {node id : Nat} {s t : Slot} {before after : List Nat} {tag : String} {b : Attributes}
    (hc : IsChild f node id s t before after) (hs : s.content = .element tag b) {limits : Limits} {content : String}
    {markup : Markup} (hm : readMarkup limits content = .ok markup) :
    Coupled (fun g nodes => ∃ ids slots, Replaced f g node before after [id] nodes ids slots)
      (spliceMarkup expand f id markup) (expandMarkup rewriteAll tag markup) := by
  cases markup with
  | document d => exact spliceDocument_coupled h hc hs d
  | fragment d =>
    obtain ⟨body, hbody⟩ := readMarkup_fragment hm
    exact spliceFragment_coupled h hc hbody
  | raw text => exact .pure (spliceBlock_replaced hc rawTag .empty text)

/-- Expanding below a node of a forest is expanding the trees below it. The induction is on the levels of
includes left: what is included is expanded with one level less. -/
theorem expandBelow_expands (limits : Limits) (resolve : Resolver m) (levels : Nat) (chain : List String) :
    Expands (expandBelow limits resolve levels chain) (expandChildren limits resolve levels chain) := by
  induction levels generalizing chain with
  | zero => exact Replaces.expands fun _ _ _ _ _ _ _ _ _ _ _ _ _ => .throw _
  | succ levels ih =>
    refine Replaces.expands fun f node id s t tag b a before after hc hs ht => ?_
    have ha : f.element? id = some (includeTag, a) := by
      obtain ⟨c, p, kids⟩ := t
      obtain rfl : c = .element includeTag a := ht
      simp [element?, hc.childSlot]
    simp only [ha]
    refine Coupled.bind_same (fetch limits resolve chain a) ?_
    rintro ⟨r, content⟩
    simp only [replacement]
    cases r.context.kind with
    | markup =>
      refine (Coupled.lift (readMarkup limits content)).bind ?_
      rintro markup _ ⟨rfl, hm⟩
      exact spliceMarkup_coupled (ih _) hc hs hm
    | html => exact .pure (spliceBlock_replaced hc rawTag .empty content)
    | css => exact .pure (spliceBlock_replaced hc styleTag _ content)
    | inlineCss => exact .pure (spliceBlock_replaced hc styleTag _ content)

/-- Both expansions are the same action. -/
theorem expandInPlace_eq (limits : Limits) (resolve : Resolver m) (t : Template) :
    expandInPlace limits resolve t = expand limits resolve t := by
  obtain ⟨kids, slots, hid, hroot, hh, hd, -, -⟩ := ofNode_holds t.root
  unfold expandInPlace expand
  refine congrArg _ (funext fun _ => ?_)
  simp only [hid, bind_pure_comp]
  refine (expandBelow_expands limits resolve limits.includeDepth [] hroot rfl hh hd).map_eq ?_
  rintro g nodes ⟨ids, slots', hr⟩
  have hroot' : g.slot? 1 = some ⟨t.root.content, some Forest.root, ids⟩ := by
    rw [hr.parent, hroot]
    simp
  rw [childTrees, children_eq hroot', hr.holds.flatMap_treesWithin]
  exact length_le_size hr.nodup hr.holds.lt_size

/-- Expanding in a forest refines expanding the tree. As actions of the monad of the resolver the two
are equal, so they return the same template or the same first error; and they make the same calls to
the resolver, in the same order and with the same answers. -/
theorem expandInPlace_refines_expand (limits : Limits) (resolve : Resolver m) (t : Template) :
    expandInPlace limits resolve t = expand limits resolve t ∧
      (expandInPlace limits (recorded resolve) t).run.run [] = (expand limits (recorded resolve) t).run.run [] :=
  ⟨expandInPlace_eq limits resolve t, by rw [expandInPlace_eq]⟩

/-- An include whose content brings another one, with two elements in its place in the end. -/
theorem expandInPlace_refines_expand_nested :
    let t : Template := ⟨.empty, [.element "mj-body" .empty [.element "mj-include" ⟨[("path", "a")]⟩ []]]⟩
    let resolve : Resolver Id := ofList [("a", "<mj-include path=\"b\" /><mj-spacer />"), ("b", "<mj-divider />")]
    let run := (expandInPlace {} (recorded resolve) t).run.run []
    LawfulMonad Id ∧ (expandInPlace {} resolve t = expand {} resolve t ∧
      run = (expand {} (recorded resolve) t).run.run []) ∧
    run.2.map (fun c => (c.path, c.context.depth)) = [("a", 0), ("b", 1)] ∧
    run.1.toOption.map (fun t => t.root.preorder.filterMap Node.tag?) =
      some ["mjml", "mj-body", "mj-divider", "mj-spacer"] :=
  ⟨inferInstance, expandInPlace_refines_expand _ _ _, by decide +kernel, by decide +kernel⟩

end EmailMarkup.Include
