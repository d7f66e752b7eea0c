import EmailMarkup.Proofs.Head.Styles
import EmailMarkup.Proofs.Text.Search
import Mathlib.Data.List.Nodup
/-!
# Linked fonts

The fonts to link are found by going through the families that the body names, and for each of them through the fonts
that can be linked. Names tell those fonts apart, so what is linked is what a family names, each font once
(`linkFonts_fonts`). The addresses that a head gives are a table: only what it holds for a name counts, and not the
order of its entries (`availableFonts_perm`).
-/
namespace EmailMarkup

/-! ## Below a node -/

/-- The second node is the first one, or lies below it. -/
inductive Node.AtOrBelow : Node → Node → Prop
  | here {n : Node} : AtOrBelow n n
  | under {root child n : Node} (hc : child ∈ root.children) (h : AtOrBelow child n) : AtOrBelow root n

namespace Node

theorem mem_preorderAll {n : Node} {nodes : List Node} : n ∈ preorderAll nodes ↔ ∃ c ∈ nodes, n ∈ preorder c := by
  induction nodes with
  | nil => simp [preorderAll]
  | cons c rest ih => simp [preorderAll, ih]

theorem self_mem_preorder (n : Node) : n ∈ preorder n := by cases n <;> simp [preorder]

theorem AtOrBelow.mem_preorder {root n : Node} (h : AtOrBelow root n) : n ∈ preorder root := by
  induction h with
  | here => exact self_mem_preorder _
  | @under root child n hc h ih =>
    cases root with
    | element tag a children => exact List.mem_cons_of_mem _ (mem_preorderAll.2 ⟨child, hc, ih⟩)
    | text | cdata | comment => simp [children] at hc

mutual

theorem atOrBelow_of_mem_preorder {n : Node} : ∀ {root : Node}, n ∈ preorder root → AtOrBelow root n
  | element tag a children, h => by
    rw [preorder, List.mem_cons] at h
    rcases h with rfl | h
    · exact .here
    · obtain ⟨c, hc, hn⟩ := atOrBelow_of_mem_preorderAll h
      exact .under hc hn
  | text _, h | cdata _, h | comment _, h => by
    rw [List.mem_singleton.1 h]
    exact .here

theorem atOrBelow_of_mem_preorderAll {n : Node} :
    ∀ {nodes : List Node}, n ∈ preorderAll nodes → ∃ c ∈ nodes, AtOrBelow c n
  | [], h => by simp [preorderAll] at h
  | c :: rest, h => by
    rw [preorderAll, List.mem_append] at h
    rcases h with h | h
    · exact ⟨c, List.mem_cons_self, atOrBelow_of_mem_preorder h⟩
    · obtain ⟨d, hd, hn⟩ := atOrBelow_of_mem_preorderAll h
      exact ⟨d, List.mem_cons_of_mem c hd, hn⟩

end

theorem mem_preorder_iff {root n : Node} : n ∈ preorder root ↔ AtOrBelow root n :=
  ⟨atOrBelow_of_mem_preorder, AtOrBelow.mem_preorder⟩

end Node

theorem Builtin.ofTag?_eq_some_iff {s : String} {b : Builtin} : ofTag? s = some b ↔ s = b.tag := by
  constructor
  · intro h
    have htag := List.find?_some h
    exact (beq_iff_eq.1 htag).symm
  · rintro rfl
    cases b <;> rfl

namespace Head

/-! ## Families -/

/-- Some component of the body has `family` as its fonts. -/
def Uses (rules : AttributeRules) (body : Node) (family : String) : Prop :=
  ∃ (n : Node) (b : Builtin), body.AtOrBelow n ∧ n.tag? = some b.tag ∧
    (Cascade.mk n rules b.defaults).get? "font-family" = some family ∧ family ≠ ""

theorem mem_families {rules : AttributeRules} {body : Node} {family : String} :
    family ∈ families rules body ↔ Uses rules body family := by
  have hnode (n : Node) : (do
        let b ← n.tag?.bind Builtin.ofTag?
        (Cascade.mk n rules b.defaults).nonEmpty? "font-family") = some family ↔
      ∃ b : Builtin, n.tag? = some b.tag ∧ (Cascade.mk n rules b.defaults).get? "font-family" = some family ∧
        family ≠ "" := by
    simp only [Option.bind_eq_bind, Option.bind_eq_some_iff, Builtin.ofTag?_eq_some_iff, Cascade.nonEmpty?,
      Option.filter_eq_some_iff, Bool.not_eq_true', String.isEmpty_eq_false_iff]
    constructor
    · rintro ⟨b, ⟨tag, htag, rfl⟩, hget, hne⟩
      exact ⟨b, htag, hget, hne⟩
    · rintro ⟨b, htag, hget, hne⟩
      exact ⟨b, ⟨b.tag, htag, rfl⟩, hget, hne⟩
  unfold families Uses
  simp only [List.mem_filterMap, hnode, Node.mem_preorder_iff, exists_and_left]

/-! ## What the head says -/

/-- Fonts are linked when the body is known, and not before. -/
theorem read_fonts (registry : Registry) (head : Node) (ds : Diagnostics) :
    (read registry head ds).1.styles.fonts = [] :=
  read_induction (P := fun b => b.fonts = []) rfl (fun h hb => by cases h <;> exact hb) registry head ds

theorem nodup_setAddress {b : StyleBook} (h : (b.addresses.map Prod.fst).Nodup) (name address : String) :
    ((b.setAddress name address).addresses.map Prod.fst).Nodup := by
  have hrest : ((b.addresses.filter fun e => e.1 != name).map Prod.fst).Nodup :=
    h.sublist (List.filter_sublist.map _)
  have hnew : name ∉ (b.addresses.filter fun e => e.1 != name).map Prod.fst := by simp
  exact List.nodup_cons.2 ⟨hnew, hrest⟩

/-- A head gives at most one address for a name. -/
theorem read_addresses_nodup (registry : Registry) (head : Node) (ds : Diagnostics) :
    ((read registry head ds).1.styles.addresses.map Prod.fst).Nodup := by
  refine read_induction (P := fun b => (b.addresses.map Prod.fst).Nodup) (by simp) ?_ registry head ds
  intro b b' h hb
  cases h with
  | font => exact nodup_setAddress hb _ _
  | nothing | style | inlineStyle => exact hb

/-! ## Fonts that can be linked -/

theorem eq_of_mem_of_nodup {l : List (String × String)} (h : (l.map Prod.fst).Nodup) {name address other : String}
    (ha : (name, address) ∈ l) (ho : (name, other) ∈ l) : address = other :=
  congrArg Prod.snd (List.inj_on_of_nodup_map h ha ho rfl)

theorem lookup_eq_some_iff_mem {l : List (String × String)} (h : (l.map Prod.fst).Nodup) {name address : String} :
    l.lookup name = some address ↔ (name, address) ∈ l := by
  have hfound {a : String} (ha : l.lookup name = some a) : (name, a) ∈ l := by
    obtain ⟨front, back, rfl, -⟩ := List.lookup_eq_some_iff.1 ha
    simp
  refine ⟨hfound, fun hmem => ?_⟩
  cases hlookup : l.lookup name with
  | none => simpa using List.lookup_eq_none_iff.1 hlookup _ hmem
  | some a => rw [eq_of_mem_of_nodup h (hfound hlookup) hmem]

/-- In a table without repeated names, only what it holds counts. -/
theorem lookup_perm {l l' : List (String × String)} (h : (l.map Prod.fst).Nodup) (hperm : l'.Perm l) (name : String) :
    l'.lookup name = l.lookup name := by
  have h' : (l'.map Prod.fst).Nodup := (hperm.map Prod.fst).nodup_iff.2 h
  refine Option.ext fun address => ?_
  rw [lookup_eq_some_iff_mem h', lookup_eq_some_iff_mem h, hperm.mem_iff]

/-- The names of the fonts with a known address are different. -/
theorem nodup_knownFonts : (knownFonts.map Font.name).Nodup := by decide

namespace StyleBook

def nameLe (x y : String × String) : Bool := !(y.1 < x.1)

theorem nameLe_iff {x y : String × String} : nameLe x y = true ↔ x.1 ≤ y.1 := by
  rw [nameLe, Bool.not_eq_true', decide_eq_false_iff_not, String.not_lt]

/-- The entries for names that are not known. -/
def ownAddresses (b : StyleBook) : List (String × String) :=
  b.addresses.filter fun e => !knownFonts.any fun f => f.name == e.1

theorem mem_ownAddresses {b : StyleBook} {e : String × String} :
    e ∈ b.ownAddresses ↔ e ∈ b.addresses ∧ e.1 ∉ knownFonts.map Font.name := by
  simp [ownAddresses]

/-- The font of a known name, at the address that the head gives if it gives one. -/
def readdress (b : StyleBook) (f : Font) : Font := { f with address := (b.address? f.name).getD f.address }

theorem availableFonts_eq (b : StyleBook) :
    b.availableFonts =
      knownFonts.map b.readdress ++ (b.ownAddresses.mergeSort nameLe).map fun e => ⟨e.1, e.2⟩ := rfl

theorem names_availableFonts (b : StyleBook) :
    b.availableFonts.map Font.name =
      knownFonts.map Font.name ++ (b.ownAddresses.mergeSort nameLe).map Prod.fst := by
  rw [availableFonts_eq, List.map_append, List.map_map, List.map_map]
  rfl

variable {b : StyleBook} (h : (b.addresses.map Prod.fst).Nodup)

include h in
theorem nodup_ownAddresses : (b.ownAddresses.map Prod.fst).Nodup := h.sublist (List.filter_sublist.map _)

include h in
/-- Names tell the fonts that can be linked apart. -/
theorem nodup_availableFonts : (b.availableFonts.map Font.name).Nodup := by
  have hperm := (b.ownAddresses.mergeSort_perm nameLe).map Prod.fst
  rw [names_availableFonts, List.nodup_append]
  refine ⟨nodup_knownFonts, hperm.nodup_iff.2 (nodup_ownAddresses h), ?_⟩
  rintro name hknown _ hown rfl
  obtain ⟨e, he, rfl⟩ := List.mem_map.1 (hperm.mem_iff.1 hown)
  exact (mem_ownAddresses.1 he).2 hknown

theorem readdress_of_not_mem {f : Font} (hf : f.name ∉ b.addresses.map Prod.fst) : b.readdress f = f := by
  have hnone : b.address? f.name = none := by
    refine List.lookup_eq_none_iff.2 fun e he => bne_iff_ne.2 fun heq => hf ?_
    rw [heq]
    exact List.mem_map_of_mem he
  rw [readdress, hnone]
  rfl

include h in
theorem readdress_of_mem {f : Font} {address : String} (hf : (f.name, address) ∈ b.addresses) :
    b.readdress f = ⟨f.name, address⟩ := by
  have hsome : b.address? f.name = some address := (lookup_eq_some_iff_mem h).2 hf
  rw [readdress, hsome]
  rfl

include h in
/-- What can be linked is what the head gives an address for, and the known fonts that it does not mention. -/
theorem mem_availableFonts {f : Font} :
    f ∈ b.availableFonts ↔
      (f.name, f.address) ∈ b.addresses ∨ f ∈ knownFonts ∧ f.name ∉ b.addresses.map Prod.fst := by
  rw [availableFonts_eq, List.mem_append, List.mem_map, List.mem_map]
  constructor
  · rintro (⟨g, hg, rfl⟩ | ⟨e, he, rfl⟩)
    · by_cases hdeclared : g.name ∈ b.addresses.map Prod.fst
      · obtain ⟨⟨name, address⟩, hmem, rfl⟩ := List.mem_map.1 hdeclared
        exact .inl (readdress_of_mem h hmem ▸ hmem)
      · rw [readdress_of_not_mem hdeclared]
        exact .inr ⟨hg, hdeclared⟩
    · exact .inl (mem_ownAddresses.1 (List.mem_mergeSort.1 he)).1
  · rintro (hmem | ⟨hf, hdeclared⟩)
    · by_cases hknown : f.name ∈ knownFonts.map Font.name
      · obtain ⟨g, hg, hname⟩ := List.mem_map.1 hknown
        rw [← hname] at hmem
        exact .inl ⟨g, hg, by rw [readdress_of_mem h hmem, hname]⟩
      · exact .inr ⟨(f.name, f.address), List.mem_mergeSort.2 (mem_ownAddresses.2 ⟨hmem, hknown⟩), rfl⟩
    · exact .inl ⟨f, hf, readdress_of_not_mem hdeclared⟩

include h in
/-- The order in which the addresses are held does not matter. -/
theorem availableFonts_perm {addresses : List (String × String)} (hperm : addresses.Perm b.addresses) :
    availableFonts { b with addresses } = b.availableFonts := by
  have hknown : readdress { b with addresses } = b.readdress := by
    funext f
    rw [readdress, readdress, address?, address?, lookup_perm h hperm]
  have hown : ownAddresses { b with addresses } |>.Perm b.ownAddresses := hperm.filter _
  have hsorted (l : List (String × String)) : (l.mergeSort nameLe).Pairwise fun x y => nameLe x y = true := by
    refine List.pairwise_mergeSort (fun x y z hxy hyz => ?_) (fun x y => ?_) l
    · exact nameLe_iff.2 (String.le_trans (nameLe_iff.1 hxy) (nameLe_iff.1 hyz))
    · rw [Bool.or_eq_true, nameLe_iff, nameLe_iff]
      exact String.le_total x.1 y.1
  have hperm' := ((List.mergeSort_perm _ nameLe).trans hown).trans (List.mergeSort_perm b.ownAddresses nameLe).symm
  -- Names are compared alone, which is enough: no two entries share one.
  have heq : (ownAddresses { b with addresses }).mergeSort nameLe = b.ownAddresses.mergeSort nameLe := by
    refine hperm'.eq_of_pairwise (fun x y hx hy hxy hyx => ?_) (hsorted _) (hsorted _)
    have hname := String.le_antisymm (nameLe_iff.1 hxy) (nameLe_iff.1 hyx)
    have hx' := hown.mem_iff.1 (List.mem_mergeSort.1 hx)
    exact List.inj_on_of_nodup_map (nodup_ownAddresses h) hx' (List.mem_mergeSort.1 hy) hname
  rw [availableFonts_eq, availableFonts_eq, hknown, heq]

end StyleBook

/-! ## Linking -/

/-- Adds a font at the end of a list, unless the list has one of its name. -/
def addNamed (l : List Font) (f : Font) : List Font := if f.name ∈ l.map Font.name then l else l ++ [f]

/-- The fonts among some families, as often as a family names them. -/
def namedFonts (available : List Font) (families : List String) : List Font :=
  families.flatMap fun family => available.filter fun f => Text.contains family f.name

namespace StyleBook

theorem linkFont_eq (family : String) (b : StyleBook) (f : Font) :
    linkFont family b f = if Text.contains family f.name then { b with fonts := addNamed b.fonts f } else b := by
  have hhas : b.hasFont f.name = true ↔ f.name ∈ b.fonts.map Font.name := by simp [hasFont]
  unfold linkFont addNamed
  by_cases hnamed : Text.contains family f.name = true <;> by_cases hf : f.name ∈ b.fonts.map Font.name
  · simp [hnamed, hf, hhas.2 hf]
  · have hnew : f ∉ b.fonts := fun hmem => hf (List.mem_map_of_mem hmem)
    have hno : b.hasFont f.name = false := Bool.eq_false_iff.2 (mt hhas.1 hf)
    simp [hnamed, hf, hno, addFont, addNew, hnew]
  · simp [hnamed]
  · simp [hnamed]

theorem linkFamily_eq (b : StyleBook) (family : String) :
    b.linkFamily family =
      { b with fonts := (b.availableFonts.filter fun f => Text.contains family f.name).foldl addNamed b.fonts } := by
  have hrun (l : List Font) (b : StyleBook) : l.foldl (linkFont family) b =
      { b with fonts := (l.filter fun f => Text.contains family f.name).foldl addNamed b.fonts } := by
    induction l generalizing b with
    | nil => rfl
    | cons f l ih =>
      rw [List.foldl_cons, ih, linkFont_eq, List.filter_cons]
      split <;> rfl
  exact hrun b.availableFonts b

theorem foldl_linkFamily (b : StyleBook) (families : List String) :
    families.foldl linkFamily b =
      { b with fonts := (namedFonts b.availableFonts families).foldl addNamed b.fonts } := by
  induction families generalizing b with
  | nil => rfl
  | cons family families ih =>
    rw [List.foldl_cons, ih, linkFamily_eq, namedFonts, namedFonts, List.flatMap_cons, List.foldl_append]
    rfl

end StyleBook

/-- Where names tell the fonts apart, it does not matter that only names are compared. -/
theorem foldl_addNamed {available : List Font} (hnames : (available.map Font.name).Nodup) {l start : List Font}
    (hl : l ⊆ available) (hstart : start ⊆ available) : l.foldl addNamed start = l.foldl addNew start := by
  induction l generalizing start with
  | nil => rfl
  | cons f l ih =>
    obtain ⟨hf, hl⟩ := List.cons_subset.1 hl
    have hmem : f.name ∈ start.map Font.name ↔ f ∈ start := by
      refine ⟨fun h => ?_, List.mem_map_of_mem⟩
      obtain ⟨g, hg, hname⟩ := List.mem_map.1 h
      rwa [← List.inj_on_of_nodup_map hnames (hstart hg) hf hname]
    have hstep : addNamed start f = addNew start f := by simp only [addNamed, addNew, hmem]
    have hnew : addNew start f ⊆ available := by
      unfold addNew
      split
      · exact hstart
      · exact List.append_subset.2 ⟨hstart, by simpa using hf⟩
    rw [List.foldl_cons, List.foldl_cons, hstep]
    exact ih hl hnew

theorem mem_namedFonts {available : List Font} {families : List String} {f : Font} :
    f ∈ namedFonts available families ↔
      f ∈ available ∧ ∃ family ∈ families, f.name.toList <:+: family.toList := by
  simp only [namedFonts, List.mem_flatMap, List.mem_filter, Text.contains, Text.occurs_iff]
  constructor
  · rintro ⟨family, hfamily, hf, hnamed⟩
    exact ⟨hf, family, hfamily, hnamed⟩
  · rintro ⟨hf, family, hfamily, hnamed⟩
    exact ⟨family, hfamily, hf, hnamed⟩

def withAddresses (h : Head) (addresses : List (String × String)) : Head :=
  { h with styles := { h.styles with addresses } }

section

variable {h : Head} (hfonts : h.styles.fonts = []) (hnames : (h.styles.addresses.map Prod.fst).Nodup) (body : Node)

include hfonts hnames

/-- The linked fonts are those that the families name, each of them once and in the order in which they come first. -/
theorem linkFonts_fonts :
    (linkFonts h body).styles.fonts = (namedFonts h.styles.availableFonts (families h.rules body)).eraseDups := by
  have hsub : namedFonts h.styles.availableFonts (families h.rules body) ⊆ h.styles.availableFonts :=
    fun f hf => (mem_namedFonts.1 hf).1
  rw [linkFonts, StyleBook.foldl_linkFamily, hfonts,
    foldl_addNamed (StyleBook.nodup_availableFonts hnames) hsub (List.nil_subset _), foldl_addNew]

theorem mem_linkFonts {f : Font} :
    f ∈ (linkFonts h body).styles.fonts ↔
      f ∈ h.styles.availableFonts ∧ ∃ family, Uses h.rules body family ∧ f.name.toList <:+: family.toList := by
  simp only [linkFonts_fonts hfonts hnames, List.mem_eraseDups, mem_namedFonts, mem_families]

theorem nodup_linkFonts : ((linkFonts h body).styles.fonts.map Font.name).Nodup := by
  have hnodup : (linkFonts h body).styles.fonts.Nodup := by
    rw [linkFonts_fonts hfonts hnames, ← foldl_addNew]
    exact nodup_foldl_addNew _ List.nodup_nil
  refine hnodup.map_on fun f hf g hg hname => ?_
  have hf := ((mem_linkFonts hfonts hnames body).1 hf).1
  have hg := ((mem_linkFonts hfonts hnames body).1 hg).1
  exact List.inj_on_of_nodup_map (StyleBook.nodup_availableFonts hnames) hf hg hname

theorem linkFonts_perm {addresses : List (String × String)} (hperm : addresses.Perm h.styles.addresses) :
    (linkFonts (h.withAddresses addresses) body).styles.fonts = (linkFonts h body).styles.fonts := by
  have hnames' : ((h.withAddresses addresses).styles.addresses.map Prod.fst).Nodup :=
    (hperm.map Prod.fst).nodup_iff.2 hnames
  have havailable : (h.withAddresses addresses).styles.availableFonts = h.styles.availableFonts :=
    StyleBook.availableFonts_perm hnames hperm
  rw [linkFonts_fonts hfonts hnames, linkFonts_fonts (h := h.withAddresses addresses) hfonts hnames', havailable]
  rfl

end

/-- Fonts are linked once each, just those that the body names and that have an address; an address that the head gives
goes before the known one; and the order in which the head holds its addresses does not matter. -/
theorem linkFonts_exact (h : Head) (body : Node) (hfonts : h.styles.fonts = [])
    (hnames : (h.styles.addresses.map Prod.fst).Nodup) :
    ((linkFonts h body).styles.fonts.map Font.name).Nodup ∧
    (∀ name, name ∈ (linkFonts h body).styles.fonts.map Font.name ↔
      (name ∈ knownFonts.map Font.name ∨ name ∈ h.styles.addresses.map Prod.fst) ∧
        ∃ family, Uses h.rules body family ∧ name.toList <:+: family.toList) ∧
    (∀ f ∈ (linkFonts h body).styles.fonts,
      (f.name, f.address) ∈ h.styles.addresses ∨ f ∈ knownFonts ∧ f.name ∉ h.styles.addresses.map Prod.fst) ∧
    ∀ addresses, addresses.Perm h.styles.addresses →
      (linkFonts (h.withAddresses addresses) body).styles.fonts = (linkFonts h body).styles.fonts := by
  have hmem {f : Font} := mem_linkFonts hfonts hnames body (f := f)
  have havailable {f : Font} := StyleBook.mem_availableFonts hnames (f := f)
  refine ⟨nodup_linkFonts hfonts hnames body, fun name => ⟨fun hname => ?_, ?_⟩, fun f hf => havailable.1 (hmem.1 hf).1,
    fun _ hperm => linkFonts_perm hfonts hnames body hperm⟩
  · obtain ⟨f, hf, rfl⟩ := List.mem_map.1 hname
    obtain ⟨hf, hused⟩ := hmem.1 hf
    refine ⟨?_, hused⟩
    rcases havailable.1 hf with hdeclared | ⟨hknown, -⟩
    · exact .inr (List.mem_map_of_mem hdeclared)
    · exact .inl (List.mem_map_of_mem hknown)
  · rintro ⟨hsource, hused⟩
    -- Whatever the head gives for the name wins over what is known.
    by_cases hdeclared : name ∈ h.styles.addresses.map Prod.fst
    · obtain ⟨⟨_, address⟩, hentry, rfl⟩ := List.mem_map.1 hdeclared
      exact List.mem_map.2 ⟨⟨_, address⟩, hmem.2 ⟨havailable.2 (.inl hentry), hused⟩, rfl⟩
    · obtain ⟨f, hf, rfl⟩ := List.mem_map.1 (hsource.resolve_right hdeclared)
      exact List.mem_map_of_mem (hmem.2 ⟨havailable.2 (.inr ⟨hf, hdeclared⟩), hused⟩)

/-- A head that gives another address for a known font, and one for a font of its own. -/
def twoFonts : Node :=
  .element "mj-head" .empty
    [.element "mj-font" ⟨[("name", "Zilla"), ("href", "https://a.example/zilla")]⟩ [],
      .element "mj-font" ⟨[("name", "Lato"), ("href", "https://a.example/lato")]⟩ []]

/-- A body with one text, in a font that the head gives an address for. -/
def latoText : Node :=
  .element "mj-body" .empty [.element "mj-text" ⟨[("font-family", "Lato, serif")]⟩ []]

theorem linkFonts_exact_override :
    (read {} twoFonts {}).1.styles.fonts = [] ∧
    ((read {} twoFonts {}).1.styles.addresses.map Prod.fst).Nodup ∧
    "Lato" ∈ (linkFonts (read {} twoFonts {}).1 latoText).styles.fonts.map Font.name ∧
    ∀ f ∈ (linkFonts (read {} twoFonts {}).1 latoText).styles.fonts,
      f.name = "Lato" → f.address = "https://a.example/lato" := by
  have hfonts := read_fonts {} twoFonts {}
  have hnames := read_addresses_nodup {} twoFonts {}
  have haddresses : (read {} twoFonts {}).1.styles.addresses =
      [("Lato", "https://a.example/lato"), ("Zilla", "https://a.example/zilla")] := by rfl
  have huses : Uses (read {} twoFonts {}).1.rules latoText "Lato, serif" :=
    ⟨_, .text, .under List.mem_cons_self .here, rfl, by rfl, by decide⟩
  obtain ⟨-, hlinked, haddress, -⟩ := linkFonts_exact _ latoText hfonts hnames
  refine ⟨hfonts, hnames, (hlinked "Lato").2 ⟨.inl (by decide), _, huses, ⟨[], ", serif".toList, by decide⟩⟩, ?_⟩
  intro f hf hname
  rw [haddresses] at haddress
  rcases haddress f hf with hmem | ⟨-, hnot⟩
  · simpa [hname] using hmem
  · simp [hname] at hnot

end Head

end EmailMarkup
