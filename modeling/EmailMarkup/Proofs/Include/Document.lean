import EmailMarkup.Proofs.Include.Splice
import EmailMarkup.Proofs.Template.RoundTrip
/-!
# Whole templates as included content

Content is taken for a whole template if its text begins with `<mjml`, and for a fragment if not. Of a whole template the
children of the first body go in the place of the include, and nothing else, though its other children are expanded too
(`expandChildren_document`). The test is on the text alone: a comment in front of the root makes a template a fragment,
and an element with a longer name makes a fragment a template, which is refused then.
-/
namespace EmailMarkup.Include

open EmailMarkup.Template (rootTag headTag bodyTag levelsAll isWritable ofChars)

/-! ## Reading content -/

def stripped (content : String) : List Char := Text.trimBoth Text.isBlank content.toList

/-- Whether content is taken for a whole template. -/
def opensTemplate (content : String) : Bool := Text.startsWith rootOpening (stripped content)

section

variable {limits : Limits} {content : String}

theorem readMarkup_of_opensTemplate (h : opensTemplate content = true) :
    readMarkup limits content = match ofChars limits.nestingDepth (stripped content) with
      | .ok t => .ok (.document t)
      | .error fault => .error (.template fault) :=
  if_pos h

theorem readMarkup_of_not_opensTemplate (h : opensTemplate content = false) :
    readMarkup limits content = match ofChars limits.nestingDepth (wrapFragment (stripped content)) with
      | .ok t => .ok (.fragment t)
      | .error (.tooDeep limit) => .error (.template (.tooDeep limit))
      | .error _ => .ok (.raw (String.ofList (stripped content))) := by
  have hneg : ¬Text.startsWith rootOpening (stripped content) = true := by
    rw [← opensTemplate, h]
    exact Bool.false_ne_true
  exact if_neg hneg

/-- A fragment that cannot be read is refused only for its levels. -/
theorem readMarkup_error_of_not_opensTemplate (h : opensTemplate content = false) {e : Error}
    (he : readMarkup limits content = .error e) : ∃ limit, e = .template (.tooDeep limit) := by
  rw [readMarkup_of_not_opensTemplate h] at he
  split at he
  · cases he
  · cases he
    exact ⟨_, rfl⟩
  · cases he

/-- Another root than `mjml` is an error of content that begins with `<mjml`, and no other. -/
theorem readMarkup_eq_wrongRoot_iff {tag : String} : readMarkup limits content = .error (.template (.wrongRoot tag)) ↔
    opensTemplate content = true ∧ ofChars limits.nestingDepth (stripped content) = .error (.wrongRoot tag) := by
  cases h : opensTemplate content with
  | false =>
    refine ⟨fun he => ?_, nofun⟩
    obtain ⟨limit, hlimit⟩ := readMarkup_error_of_not_opensTemplate h he
    cases hlimit
  | true =>
    rw [readMarkup_of_opensTemplate h]
    cases ofChars limits.nestingDepth (stripped content) <;> simp

theorem getLast?_markup (tag : String) (a : Attributes) (children : List Node) :
    (Node.markup (.element tag a children)).toList.getLast? = some '>' := by
  cases children with
  | nil =>
    simp [Template.toList_markup_nil, Template.startText, Template.emptyClose, List.getLast?_cons, List.getLast?_append]
  | cons n rest => simp [Template.toList_markup_cons, Template.endText, Template.tagClose, List.getLast?_append]

/-- The text of a template is read as that template. -/
theorem readMarkup_markup {t : Template} (hw : isWritable t.root = true) (hd : levelsAll t.children ≤ limits.nestingDepth) :
    readMarkup limits t.root.markup = .ok (.document t) := by
  obtain ⟨r, hr⟩ : ∃ r, t.root.markup.toList = rootOpening ++ r := by
    unfold Template.root
    cases t.children with
    | nil => exact ⟨_, Template.toList_markup_nil _ _⟩
    | cons n rest => exact ⟨_, Template.toList_markup_cons _ _ _ _⟩
  have hhead : ∀ c ∈ t.root.markup.toList.head?, Text.isBlank c = false := by
    rw [hr]
    rintro _ ⟨⟩
    decide
  have hlast : ∀ c ∈ t.root.markup.toList.getLast?, Text.isBlank c = false := by
    rw [Template.root, getLast?_markup]
    rintro _ ⟨⟩
    decide
  have hstripped : stripped t.root.markup = t.root.markup.toList :=
    Text.trimBoth_append (t := []) (fun _ hc => absurd hc List.not_mem_nil) hhead hlast
  have hopens : opensTemplate t.root.markup = true := by
    rw [opensTemplate, hstripped, hr, Text.startsWith, Text.strip?_append]
    rfl
  rw [readMarkup_of_opensTemplate hopens, hstripped, Template.ofChars_markup hw hd]

end

/-! ## The first body -/

section

variable {m : Type → Type} [Monad m] [LawfulMonad m] {replace : String → Attributes → ExceptT Error m (List Node)}

theorem replaceIn_tag? (parent : String) {n : Node} (h : n.tag? ≠ some includeTag) :
    Returns (fun out => ∀ n' ∈ out, n'.tag? = n.tag?) (replaceIn replace parent n) := by
  cases n with
  | element tag a children =>
    have htag : tag ≠ includeTag := fun heq => h (by rw [heq]; rfl)
    rw [replaceIn, if_neg htag]
    refine Returns.bind_any _ fun out => .pure ?_
    rintro n' hn'
    rw [List.mem_singleton.1 hn']
    rfl
  | text | cdata | comment => exact .pure (by simp)

/-- Nodes that are no includes keep their tags, if what is below them changes. -/
theorem replaceAll_tag? (parent tag : String) {nodes : List Node}
    (h : ∀ n ∈ nodes, n.tag? ≠ some includeTag ∧ n.tag? ≠ some tag) :
    Returns (fun out => ∀ n ∈ out, n.tag? ≠ some tag) (replaceAll replace parent nodes) := by
  induction nodes with
  | nil => exact .pure nofun
  | cons n rest ih =>
    rw [List.forall_mem_cons] at h
    refine (replaceIn_tag? parent h.1.1).bind fun first hfirst => (ih h.2).bind fun others hothers => .pure ?_
    rw [List.forall_mem_append]
    exact ⟨fun n' hn' => hfirst n' hn' ▸ h.1.2, hothers⟩

theorem find?_append_hasTag {before after : List Node} {tag : String} {a : Attributes} {children : List Node}
    (h : ∀ n ∈ before, n.tag? ≠ some tag) :
    (before ++ .element tag a children :: after).find? (Node.hasTag tag) = some (.element tag a children) := by
  rw [List.find?_append, List.find?_eq_none.2 (fun n hn => by simpa [Node.hasTag] using h n hn)]
  simp [Node.hasTag, Node.tag?]

/-- The children of the first body, among the expanded children of a root. -/
theorem replaceAll_first {parent tag : String} (htag : tag ≠ includeTag) {before : List Node}
    (h : ∀ n ∈ before, n.tag? ≠ some includeTag ∧ n.tag? ≠ some tag) (a : Attributes) (children after : List Node) :
    (do
      let nodes ← replaceAll replace parent (before ++ .element tag a children :: after)
      return ((nodes.find? (Node.hasTag tag)).map Node.children).getD []) = (do
        let _ ← replaceAll replace parent before
        let nodes ← replaceAll replace tag children
        let _ ← replaceAll replace parent after
        return nodes) := by
  rw [replaceAll_middle, replaceIn, if_neg htag]
  simp only [bind_assoc, pure_bind]
  refine (replaceAll_tag? parent tag h).bind_congr fun front hfront => ?_
  refine bind_congr fun nodes => bind_congr fun back => ?_
  rw [List.singleton_append, find?_append_hasTag hfront]
  rfl

end

/-! ## Templates and fragments in place of an include -/

section

variable {m : Type → Type} [Monad m] [LawfulMonad m] {limits : Limits} {resolve : Resolver m} {content : String}
  {expand : String → List Node → ExceptT Error m (List Node)}

theorem splice_document {parent : String} (hparent : parent ≠ headTag) (hopens : opensTemplate content = true)
    {t : Template} (ht : ofChars limits.nestingDepth (stripped content) = .ok t) :
    splice limits expand parent content = (do
      let children ← expand rootTag t.children
      return ((children.find? (Node.hasTag bodyTag)).map Node.children).getD []) := by
  have hread : readMarkup limits content = .ok (.document t) := by rw [readMarkup_of_opensTemplate hopens, ht]
  have hbody (children : List Node) : section? parent { t with children } = children.find? (Node.hasTag bodyTag) := by
    rw [section?, if_neg (by simpa using hparent)]
    rfl
  rw [splice, hread, lift_ok_bind, expandMarkup]
  simp only [hbody]

theorem splice_fragment (parent : String) (hopens : opensTemplate content = false) :
    splice limits expand parent content = match ofChars limits.nestingDepth (wrapFragment (stripped content)) with
      | .ok t => expand bodyTag ((t.body?.map Node.children).getD [])
      | .error (.tooDeep limit) => throw (.template (.tooDeep limit))
      | .error _ => pure [.block rawTag .empty (String.ofList (stripped content))] := by
  rw [splice, readMarkup_of_not_opensTemplate hopens]
  split
  · exact lift_ok_bind _ _
  · exact throw_bind _
  · exact lift_ok_bind _ _

theorem expandChildren_first {levels : Nat} {chain : List String} {before : List Node}
    (h : ∀ n ∈ before, n.tag? ≠ some includeTag ∧ n.tag? ≠ some bodyTag) (a : Attributes) (children after : List Node) :
    (do
      let nodes ← expandChildren limits resolve levels chain rootTag (before ++ .element bodyTag a children :: after)
      return ((nodes.find? (Node.hasTag bodyTag)).map Node.children).getD []) = (do
        let _ ← expandChildren limits resolve levels chain rootTag before
        let nodes ← expandChildren limits resolve levels chain bodyTag children
        let _ ← expandChildren limits resolve levels chain rootTag after
        return nodes) := by
  have htag : bodyTag ≠ includeTag := by decide
  cases levels with
  | zero => exact replaceAll_first htag h a children after
  | succ => exact replaceAll_first htag h a children after

/-- An include of markup, wherever it stands but directly below a head, is replaced by what its content becomes. Content
that begins with `<mjml` and can be read becomes the expanded children of its first body: its first body after the
expansion, which is the one it has if no include stands before it. All other content is a fragment, and no error of a
fragment says that its root is not `mjml`. -/
theorem expandChildren_document {levels : Nat} {chain : List String} {path : String} {a : Attributes} {frames : List Frame}
    (hframes : ∀ f ∈ frames, f.tag ≠ includeTag) (ha : Asks path a) (hnew : path ∉ chain) {parent : String}
    (hparent : holder parent frames ≠ headTag) (before below after : List Node) :
    let expand := expandChildren limits resolve levels (path :: chain)
    let outside := expandChildren limits resolve (levels + 1) chain
    outside parent (plug frames (before ++ .element includeTag a below :: after)) =
      around outside (do
        let front ← outside (holder parent frames) before
        let content ← resolve path ⟨.markup, chain.head?, chain.length⟩
        checkSize limits path content
        let nodes ← splice limits expand (holder parent frames) content
        let back ← outside (holder parent frames) after
        return front ++ (nodes ++ back)) parent frames ∧
    (∀ content t, opensTemplate content = true → ofChars limits.nestingDepth (stripped content) = .ok t →
      splice limits expand (holder parent frames) content = (do
        let children ← expand rootTag t.children
        return ((children.find? (Node.hasTag bodyTag)).map Node.children).getD []) ∧
      ∀ front attributes children back, t.children = front ++ .element bodyTag attributes children :: back →
        (∀ n ∈ front, n.tag? ≠ some includeTag ∧ n.tag? ≠ some bodyTag) →
        splice limits expand (holder parent frames) content = (do
          let _ ← expand rootTag front
          let nodes ← expand bodyTag children
          let _ ← expand rootTag back
          return nodes)) ∧
    ∀ content, opensTemplate content = false →
      (∀ tag, readMarkup limits content ≠ .error (.template (.wrongRoot tag))) ∧
      splice limits expand (holder parent frames) content =
        match ofChars limits.nestingDepth (wrapFragment (stripped content)) with
        | .ok t => expand bodyTag ((t.body?.map Node.children).getD [])
        | .error (.tooDeep limit) => throw (.template (.tooDeep limit))
        | .error _ => pure [.block rawTag .empty (String.ofList (stripped content))] := by
  intro expand outside
  refine ⟨expandChildren_include hframes ha hnew parent before below after, ?_, ?_⟩
  · intro content t hopens ht
    have hsplice : splice limits expand (holder parent frames) content = _ := splice_document hparent hopens ht
    refine ⟨hsplice, fun front attributes children back hchildren hfront => ?_⟩
    rw [hsplice, hchildren]
    exact expandChildren_first hfront attributes children back
  · intro content hopens
    refine ⟨fun tag hread => ?_, splice_fragment _ hopens⟩
    rw [readMarkup_eq_wrongRoot_iff, hopens] at hread
    cases hread.1

end

def newsletter : Template := ⟨.empty, [.element headTag .empty [.element "mj-title" .empty [.text "News"]],
  .element bodyTag .empty [.element "mj-spacer" .empty []]]⟩

theorem expandChildren_document_newsletter :
    let resolve : Resolver Id := ofList [("a", newsletter.root.markup)]
    let place : Node := .element includeTag ⟨[("path", "a")]⟩ []
    opensTemplate newsletter.root.markup = true ∧
      ofChars 100 (stripped newsletter.root.markup) = .ok newsletter ∧
      expandChildren {} resolve 1 [] rootTag [.element bodyTag .empty [.text "x", place]] =
        pure [.element bodyTag .empty [.text "x", .element "mj-spacer" .empty []]] := by
  intro resolve place
  have hstripped : stripped newsletter.root.markup = newsletter.root.markup.toList := by decide +kernel
  have hopens : opensTemplate newsletter.root.markup = true := by decide +kernel
  have hread : ofChars 100 (stripped newsletter.root.markup) = .ok newsletter := by
    rw [hstripped]
    exact Template.ofChars_markup (by decide +kernel) (by decide +kernel)
  have hframes : ∀ f ∈ [Frame.mk [] bodyTag .empty []], f.tag ≠ includeTag := fun f hf => by
    rw [List.mem_singleton.1 hf]
    decide
  have hdocument := @expandChildren_document Id _ _ {} resolve 0 [] "a" ⟨[("path", "a")]⟩ [⟨[], bodyTag, .empty, []⟩]
    hframes ⟨rfl, rfl, rfl⟩ nofun rootTag (by decide) [.text "x"] [] []
  have hfront : ∀ n ∈ newsletter.children.take 1, n.tag? ≠ some includeTag ∧ n.tag? ≠ some bodyTag := fun n hn => by
    rw [List.mem_singleton.1 hn]
    decide
  have hsplice := (hdocument.2.1 _ _ hopens hread).2 _ _ _ [] rfl hfront
  have hresolve (context : Context) : resolve "a" context = pure newsletter.root.markup := rfl
  have hsize : checkSize {} "a" newsletter.root.markup = .ok () := if_neg (by decide +kernel)
  refine ⟨hopens, hread, hdocument.1.trans ?_⟩
  simp only [around, hresolve, hsize, pure_bind, lift_ok_bind, hsplice]
  rfl

/-- A comment before the root can be read, and still the template is put in place as a whole, below the body of another.
An element whose name only begins with `mjml` is no fragment. -/
theorem expandInPlace_prolog_document :
    let t : Template := ⟨.empty, [.element bodyTag .empty [.element includeTag ⟨[("path", "a")]⟩ []]]⟩
    let content := "<!-- c --><mjml><mj-body><mj-spacer /></mj-body></mjml>"
    (ofChars 100 (stripped content)).toOption.map (·.root.markup) =
        some "<mjml><mj-body><mj-spacer /></mj-body></mjml>" ∧
      (expandInPlace {} (ofList [("a", content)] : Resolver Id) t).run.toOption.map (·.root.markup) =
        some "<mjml><mj-body><!-- c --><mjml><mj-body><mj-spacer /></mj-body></mjml></mj-body></mjml>" ∧
      readMarkup {} "<mjml-x></mjml-x>" = .error (.template (.wrongRoot "mjml-x")) := by
  intro t content
  refine ⟨by decide +kernel, by decide +kernel, ?_⟩
  rfl

end EmailMarkup.Include
