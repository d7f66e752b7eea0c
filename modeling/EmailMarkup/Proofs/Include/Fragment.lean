import EmailMarkup.Proofs.Include.Document
import EmailMarkup.Proofs.Template.Wrapper
/-!
# Fragments as included content

A fragment is read in a body of its own, and the children of the first body go in the place of the include. A fragment
may close that body and go on behind it: it can be read, and what it has behind the first body is lost. This is so
exactly if no other element would do in place of the body (`expandChildren_fragment`). A fragment that cannot be read is
put in place as it is, unless it has too many levels.
-/
namespace EmailMarkup.Include

open EmailMarkup.Template (rootTag headTag bodyTag ofChars wrapIn)

theorem wrapFragment_eq (fragment : List Char) : wrapFragment fragment = wrapIn bodyTag fragment := by
  have hfront : "<mjml><mj-body>".toList =
      Template.startText rootTag .empty Template.tagClose ++ Template.startText bodyTag .empty Template.tagClose := by
    decide +kernel
  have hback : "</mj-body></mjml>".toList = Template.fence bodyTag := by decide +kernel
  calc wrapFragment fragment = "<mjml><mj-body>".toList ++ fragment ++ "</mj-body></mjml>".toList := rfl
    _ = wrapIn bodyTag fragment := by
      rw [hfront, hback]
      simp only [wrapIn, List.append_assoc]

section

variable {m : Type → Type} [Monad m] [LawfulMonad m] {limits : Limits} {resolve : Resolver m}

/-- A template around a fragment has the body that was put around it first, and another child if the fragment closes
that body: if it cannot be read in a head instead. -/
theorem ofChars_fragment {maxDepth : Nat} {fragment : List Char} {t : Template}
    (h : ofChars maxDepth (wrapFragment fragment) = .ok t) :
    ∃ nodes lost, t = ⟨.empty, .element bodyTag .empty nodes :: lost⟩ ∧
      (lost = [] ↔ ∃ t', ofChars maxDepth (wrapIn headTag fragment) = .ok t') := by
  rw [wrapFragment_eq] at h
  exact Template.ofChars_wrapIn_cases Template.isWrapper_body Template.isWrapper_head (by decide) h

/-- An include of markup, wherever it stands, is replaced by what its content becomes. Take content that does not begin
with `<mjml`. If it can be read in a body, the body has the nodes that go in place, as they are if there is no include
among them. The body is the only child of the root, so that nothing is lost, exactly if the content can be read in a
head too. If the content cannot be read, it goes in place as one raw block, or the expansion stops for its levels. -/
theorem expandChildren_fragment {levels : Nat} {chain : List String} {path : String} {a : Attributes} {frames : List Frame}
    (hframes : ∀ f ∈ frames, f.tag ≠ includeTag) (ha : Asks path a) (hnew : path ∉ chain) (parent : String)
    (before below after : List Node) :
    let expand := expandChildren limits resolve levels (path :: chain)
    let outside := expandChildren limits resolve (levels + 1) chain
    outside parent (plug frames (before ++ .element includeTag a below :: after)) =
      around outside (do
        let front ← outside (holder parent frames) before
        let content ← resolve path ⟨.markup, chain.head?, chain.length⟩
        checkSize limits path content
        let nodes ← splice limits expand (holder parent frames) content
        let back ← outside (holder parent frames) after
        return front ++ (nodes ++ back)) parent frames ∧
    ∀ content, opensTemplate content = false →
      match ofChars limits.nestingDepth (wrapFragment (stripped content)) with
      | .ok t => ∃ nodes lost, t = ⟨.empty, .element bodyTag .empty nodes :: lost⟩ ∧
          (includesAll nodes = [] → splice limits expand (holder parent frames) content = pure nodes) ∧
          (lost = [] ↔ ∃ t', ofChars limits.nestingDepth (wrapIn headTag (stripped content)) = .ok t')
      | .error (.tooDeep limit) =>
          splice limits expand (holder parent frames) content = throw (.template (.tooDeep limit))
      | .error _ => splice limits expand (holder parent frames) content =
          pure [.block rawTag .empty (String.ofList (stripped content))] := by
  intro expand outside
  refine ⟨expandChildren_include hframes ha hnew parent before below after, fun content hopens => ?_⟩
  have hsplice : splice limits expand (holder parent frames) content = _ := splice_fragment _ hopens
  generalize hread : ofChars limits.nestingDepth (wrapFragment (stripped content)) = read at hsplice ⊢
  cases read with
  | ok t =>
    obtain ⟨nodes, lost, rfl, hlost⟩ := ofChars_fragment hread
    exact ⟨nodes, lost, rfl, fun hplain => hsplice.trans (expandChildren_plain hplain levels _ bodyTag), hlost⟩
  | error fault => cases fault <;> exact hsplice

end

theorem expandChildren_fragment_spacer :
    let content := "<mj-spacer />"
    let spacer : Node := .element "mj-spacer" .empty []
    let resolve : Resolver Id := ofList [("a", content)]
    let place : Node := .element includeTag ⟨[("path", "a")]⟩ []
    opensTemplate content = false ∧
      ofChars 100 (wrapFragment (stripped content)) = .ok ⟨.empty, [.element bodyTag .empty [spacer]]⟩ ∧
      (∃ t', ofChars 100 (wrapIn headTag (stripped content)) = .ok t') ∧
      expandChildren {} resolve 1 [] rootTag [.element bodyTag .empty [.text "x", place]] =
        pure [.element bodyTag .empty [.text "x", spacer]] := by
  intro content spacer resolve place
  let t : Template := ⟨.empty, [.element bodyTag .empty [spacer]]⟩
  have hopens : opensTemplate content = false := by decide +kernel
  have htext : wrapFragment (stripped content) = t.root.markup.toList := by decide +kernel
  have hread : ofChars 100 (wrapFragment (stripped content)) = .ok t := by
    rw [htext]
    exact Template.ofChars_markup (by decide +kernel) (by decide +kernel)
  have hframes : ∀ f ∈ [Frame.mk [] bodyTag .empty []], f.tag ≠ includeTag := fun f hf => by
    rw [List.mem_singleton.1 hf]
    decide
  have hfragment := @expandChildren_fragment Id _ _ {} resolve 0 [] "a" ⟨[("path", "a")]⟩ [⟨[], bodyTag, .empty, []⟩]
    hframes ⟨rfl, rfl, rfl⟩ nofun rootTag [.text "x"] [] []
  have hcontent := hfragment.2 content hopens
  have hread' : ofChars ({} : Limits).nestingDepth (wrapFragment (stripped content)) = .ok t := hread
  rw [hread'] at hcontent
  obtain ⟨nodes, lost, heq, hsplice, hlost⟩ := hcontent
  obtain ⟨hbody, rfl⟩ := List.cons.inj (Template.mk.inj heq).2
  obtain rfl : [spacer] = nodes := (Node.element.inj hbody).2.2
  have hresolve (context : Context) : resolve "a" context = pure content := rfl
  have hsize : checkSize {} "a" content = .ok () := if_neg (by decide +kernel)
  refine ⟨hopens, hread, hlost.1 rfl, hfragment.1.trans ?_⟩
  simp only [around, hresolve, hsize, pure_bind, lift_ok_bind, hsplice rfl]
  rfl

/-- A fragment that closes its body and opens another one can be read, and only its first part goes in place. -/
theorem expandInPlace_second_body :
    let t : Template := ⟨.empty, [.element bodyTag .empty [.element includeTag ⟨[("path", "a")]⟩ []]]⟩
    let content := "<mj-spacer /></mj-body><mj-body><mj-divider />"
    opensTemplate content = false ∧
      (ofChars 100 (wrapFragment (stripped content))).toOption.map (·.root.markup) =
        some "<mjml><mj-body><mj-spacer /></mj-body><mj-body><mj-divider /></mj-body></mjml>" ∧
      (expandInPlace {} (ofList [("a", content)] : Resolver Id) t).run.toOption.map (·.root.markup) =
        some "<mjml><mj-body><mj-spacer /></mj-body></mjml>" := by
  intro t content
  exact ⟨by decide +kernel, by decide +kernel, by decide +kernel⟩

end EmailMarkup.Include
