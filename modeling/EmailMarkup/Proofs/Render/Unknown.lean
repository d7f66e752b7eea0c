import EmailMarkup.Proofs.Compiler
import EmailMarkup.Proofs.Render.Containers
import EmailMarkup.Proofs.Warnings
/-!
# Warnings of unknown tags

An unknown tag is warned of where it is looked up: among the children of the head, and among those of the containers
that render whatever they hold. Sections and groups choose their children by tag before they look at them, so what is
unknown there is left out without a word. `compile_reports_unknown` says exactly which unknown tags a compile warns of.
-/
namespace EmailMarkup

/-! ## Warnings that are told apart -/

/-- The component of the warning has no closing bracket, so that it can be read off the shown text. -/
def Diagnostic.IsPlain (d : Diagnostic) : Prop := ']' ∉ d.component.toList

theorem Diagnostic.eq_of_shown_eq {d e : Diagnostic} (hd : d.IsPlain) (he : e.IsPlain) (h : d.shown = e.shown) :
    d = e := by
  rcases Diagnostic.shown_eq_iff.1 h with heq | hruns | hruns
  · exact heq
  · exact absurd hruns.bracket_mem he
  · exact absurd hruns.bracket_mem hd

namespace Diagnostics

def IsPlain (ds : Diagnostics) : Prop := ∀ d ∈ ds.entries, d.IsPlain

/-- What a warning adds to plain ones. -/
theorem mem_warn {ds : Diagnostics} (h : ds.IsPlain) {component message : String} (hc : ']' ∉ component.toList)
    (d : Diagnostic) : d ∈ (ds.warn component message).entries ↔ d ∈ ds.entries ∨ d = ⟨component, message⟩ := by
  rw [entries_warn]
  split
  · rename_i hseen
    obtain ⟨e, he, hshown⟩ := hseen
    have hnew : e = ⟨component, message⟩ := Diagnostic.eq_of_shown_eq (h e he) hc hshown
    rw [hnew] at he
    constructor
    · exact .inl
    · rintro (hd | rfl)
      · exact hd
      · exact he
  · simp

end Diagnostics

def unknownTag (tag : String) : Diagnostic := ⟨"registry", "Unknown MJML tag: " ++ tag⟩

/-- Of the warnings that a step adds to plain ones, the one of this tag is there exactly if `P` holds. -/
def Diagnostics.Reports (tag : String) (P : Prop) (ds ds' : Diagnostics) : Prop :=
  ds.IsPlain → ds'.IsPlain ∧ (unknownTag tag ∈ ds'.entries ↔ unknownTag tag ∈ ds.entries ∨ P)

namespace Diagnostics.Reports

variable {tag : String} {P Q : Prop} {ds ds' ds'' : Diagnostics}

theorem congr (h : ds.Reports tag P ds') (hPQ : P ↔ Q) : ds.Reports tag Q ds' := by
  rwa [propext hPQ] at h

theorem refl (ds : Diagnostics) : ds.Reports tag False ds := by
  intro h
  exact ⟨h, by simp⟩

theorem trans (h : ds.Reports tag P ds') (h' : ds'.Reports tag Q ds'') : ds.Reports tag (P ∨ Q) ds'' := by
  intro hp
  obtain ⟨hp', hmem⟩ := h hp
  obtain ⟨hp'', hmem'⟩ := h' hp'
  exact ⟨hp'', by rw [hmem', hmem, or_assoc]⟩

/-- The warning itself. -/
theorem warn (ds : Diagnostics) (found : String) :
    ds.Reports tag (found = tag) (ds.warn "registry" s!"Unknown MJML tag: {found}") := by
  intro hp
  have hplain : ']' ∉ "registry".toList := by decide
  constructor
  · intro d hd
    rcases (mem_warn hp hplain d).1 hd with hd | rfl
    · exact hp d hd
    · exact hplain
  · rw [mem_warn hp hplain]
    simp [unknownTag, toString, eq_comm]

/-- Warnings of other components do not count. -/
theorem of_adds {components : List String} (h : ds.Adds components ds') (hc : ∀ c ∈ components, ']' ∉ c.toList)
    (hr : "registry" ∉ components) : ds.Reports tag False ds' := by
  intro hp
  obtain ⟨new, hnew, hall⟩ := h
  have hnot : unknownTag tag ∉ new := fun hm => hr (hall _ hm)
  constructor
  · intro d hd
    rw [hnew] at hd
    rcases List.mem_append.1 hd with hd | hd
    · exact hp d hd
    · exact hc _ (hall d hd)
  · simp [hnew, hnot]

end Diagnostics.Reports

open Diagnostics

/-! ## The head -/

namespace Head

theorem readChild_reports {registry : Registry} {tag : String} (hu : registry.lookup? tag = none) (r : Reading)
    (n : Node) : r.2.Reports tag (n.tag? = some tag) (readChild registry r n).2 := by
  have hother {x : Option String} {r' : Reading} (hx : x ≠ some tag) (h : r.2.Adds ownWarners r'.2) :
      r.2.Reports tag (x = some tag) r'.2 :=
    (Reports.of_adds h (by decide) (by decide)).congr (by simp [hx])
  cases n with
  | element found a children =>
    have hne (hsome : (registry.lookup? found).isSome) : Node.tag? (.element found a children) ≠ some tag := by
      intro h
      rw [Option.some.inj h, hu] at hsome
      cases hsome
    rw [readChild]
    split
    · rename_i b hb
      split
      · exact hother (hne (by simp [hb])) (readComponent_adds _ _ r)
      · exact hother (hne (by simp [hb])) (.warn _ (by decide) _)
    · rename_i hb
      exact hother (hne (by simp [hb])) (.warn _ (by decide) _)
    · exact (Reports.warn r.2 found).congr (by simp [Node.tag?])
  | comment content =>
    refine hother (by simp [Node.tag?]) ?_
    rw [readChild]
    split
    · exact .refl _ _
    · exact adds_of_snd_eq (r.metadata_snd _)
  | text content => exact hother (by simp [Node.tag?]) (.refl _ _)
  | cdata content => exact hother (by simp [Node.tag?]) (.refl _ _)

theorem read_reports {registry : Registry} {tag : String} (hu : registry.lookup? tag = none) (head : Node)
    (ds : Diagnostics) : ds.Reports tag (∃ n ∈ head.children, n.tag? = some tag) (read registry head ds).2 := by
  have hfold (nodes : List Node) (r : Reading) :
      r.2.Reports tag (∃ n ∈ nodes, n.tag? = some tag) (nodes.foldl (readChild registry) r).2 := by
    induction nodes generalizing r with
    | nil => exact (Reports.refl r.2).congr (by simp)
    | cons n nodes ih => exact ((readChild_reports hu r n).trans (ih _)).congr (by simp)
  exact hfold head.children ({}, ds)

end Head

/-! ## The body -/

namespace Render

/-- Rendering the container `k` at a node comes to the container `k'` at a node below it, or at itself. -/
inductive Renders (registry : Registry) : Container → Node → Container → Node → Prop
  | self (k : Container) (n : Node) : Renders registry k n k n
  | child {k k₁ k' : Container} {n c n' : Node} {tag : String} {b : Builtin} (hmem : c ∈ n.children)
      (htag : c.tag? = some tag) (hrenders : k.renders tag = true) (hb : registry.lookup? tag = some (.builtin b))
      (hk : container? b = some k₁) (hrest : Renders registry k₁ c k' n') : Renders registry k n k' n'

/-- Rendering the container at a node comes to a child of this tag. -/
def Meets (registry : Registry) (tag : String) (k : Container) (n : Node) : Prop :=
  ∃ k' p, Renders registry k n k' p ∧ ∃ c ∈ p.children, c.tag? = some tag ∧ k'.renders tag = true

/-- Rendering a node comes to this tag: it is its own, or the node is a container where it is met. -/
def MeetsAt (registry : Registry) (tag : String) (n : Node) : Prop :=
  n.tag? = some tag ∨ ∃ found b k, n.tag? = some found ∧ registry.lookup? found = some (.builtin b) ∧
    container? b = some k ∧ Meets registry tag k n

theorem keeps_eq_true_iff {k : Container} {n : Node} {tag : String} (h : n.tag? = some tag) :
    k.keeps n = true ↔ k.renders tag = true := by
  simp [Container.keeps, h]

/-- A container meets what the children meet that it renders. -/
theorem meets_iff {registry : Registry} {tag : String} {k : Container} {n : Node} :
    Meets registry tag k n ↔ ∃ c ∈ n.children, k.keeps c = true ∧ MeetsAt registry tag c := by
  constructor
  · rintro ⟨k', p, hr, c, hc, htag, hrenders⟩
    cases hr with
    | self => exact ⟨c, hc, (keeps_eq_true_iff htag).2 hrenders, .inl htag⟩
    | child hmem htag' hrenders' hb hk hrest =>
      exact ⟨_, hmem, (keeps_eq_true_iff htag').2 hrenders',
        .inr ⟨_, _, _, htag', hb, hk, k', p, hrest, c, hc, htag, hrenders⟩⟩
  · rintro ⟨c, hc, hkeeps, htag | ⟨found, b, k₁, htag', hb, hk, k', p, hrest, hmeets⟩⟩
    · exact ⟨k, n, .self k n, c, hc, htag, (keeps_eq_true_iff htag).1 hkeeps⟩
    · exact ⟨k', p, .child hc htag' ((keeps_eq_true_iff htag').1 hkeeps) hb hk hrest, hmeets⟩

section

variable {registry : Registry} {tag found : String} {a : Attributes} {children : List Node}

theorem meetsAt_of_unknown (hfound : registry.lookup? found = none) :
    MeetsAt registry tag (.element found a children) ↔ found = tag := by
  constructor
  · rintro (h | ⟨_, b, k, h, hb, -⟩)
    · exact Option.some.inj h
    · rw [← Option.some.inj h, hfound] at hb
      cases hb
  · rintro rfl
    exact .inl rfl

variable (hu : registry.lookup? tag = none)

include hu

theorem ne_of_lookup?_eq_some {e : Component} (hfound : registry.lookup? found = some e) : found ≠ tag := by
  rintro rfl
  rw [hu] at hfound
  cases hfound

theorem not_meetsAt_of_custom {c : Custom} (hfound : registry.lookup? found = some (.custom c)) :
    ¬MeetsAt registry tag (.element found a children) := by
  rintro (h | ⟨_, b, k, h, hb, -⟩)
  · exact ne_of_lookup?_eq_some hu hfound (Option.some.inj h)
  · rw [← Option.some.inj h, hfound] at hb
    cases hb

theorem meetsAt_of_builtin {b : Builtin} (hfound : registry.lookup? found = some (.builtin b)) :
    MeetsAt registry tag (.element found a children) ↔
      ∃ k, container? b = some k ∧ Meets registry tag k (.element found a children) := by
  constructor
  · rintro (h | ⟨_, b', k, h, hb, hk, hmeets⟩)
    · exact absurd (Option.some.inj h) (ne_of_lookup?_eq_some hu hfound)
    · rw [← Option.some.inj h, hfound] at hb
      cases hb
      exact ⟨k, hk, hmeets⟩
  · rintro ⟨k, hk, hmeets⟩
    exact .inr ⟨found, b, k, rfl, hfound, hk, hmeets⟩

end

/-- Of the warnings that a rendering step adds, the one of this tag is there exactly if `P` holds. -/
def Reports (tag : String) (P : Prop) {α : Type} (x : RenderM α) : Prop :=
  ∀ ⦃o : Outcome⦄ ⦃a : α⦄ ⦃o' : Outcome⦄, x.run o = .ok (a, o') → o.diagnostics.Reports tag P o'.diagnostics

namespace Reports

variable {tag : String} {P Q : Prop} {α β : Type}

theorem congr {x : RenderM α} (h : Reports tag P x) (hPQ : P ↔ Q) : Reports tag Q x := by
  rwa [propext hPQ] at h

theorem pure (a : α) : Reports tag False (Pure.pure a) := by
  intro o _ _ h
  cases h
  exact .refl _

theorem bind {x : RenderM α} {f : α → RenderM β} (hx : Reports tag P x) (hf : ∀ a, Reports tag Q (f a)) :
    Reports tag (P ∨ Q) (x >>= f) := by
  intro o b o' h
  rw [StateT.run_bind] at h
  obtain ⟨p, hrun, h⟩ := bind_eq_ok.1 h
  exact (hx hrun).trans (hf p.1 h)

/-- A step after which nothing is rendered. -/
theorem bind_quiet {x : RenderM α} {f : α → RenderM β} (hx : Reports tag P x) (hf : ∀ a, Reports tag False (f a)) :
    Reports tag P (x >>= f) :=
  (hx.bind hf).congr (by simp)

theorem warn (found : String) : Reports tag (found = tag) (warn "registry" s!"Unknown MJML tag: {found}") := by
  intro o _ _ h
  cases h
  exact .warn _ found

theorem emit (effects : List Effect) : Reports tag False (emit effects) := by
  intro o _ _ h
  cases h
  exact .refl _

theorem renderCustom (ctx : Context) (c : Custom) (n : Node) (s : Surroundings) :
    Reports tag False (renderCustom ctx c n s) := by
  intro o html o' h
  obtain ⟨_, rfl⟩ := renderCustom_eq_ok h
  exact .refl _

end Reports

mutual

/-- Rendering a node warns of the unknown tags that it comes to. -/
theorem renderNode_reports {ctx : Context} {tag : String} (hu : ctx.registry.lookup? tag = none) :
    ∀ (n : Node) (s : Surroundings), Reports tag (MeetsAt ctx.registry tag n) (renderNode ctx n s)
  | .element found a children, s => by
    rw [renderNode]
    split
    · rename_i hfound
      exact ((Reports.warn found).bind_quiet fun _ => .pure _).congr (meetsAt_of_unknown hfound).symm
    · rename_i custom hfound
      exact (Reports.renderCustom ..).congr ⟨False.elim, not_meetsAt_of_custom hu hfound⟩
    · rename_i b hfound
      extract_lets o
      rw [meetsAt_of_builtin hu hfound]
      cases hk : container? b with
      | none =>
        -- a component that is no container has no place for a child
        have hplaces : Places (fun _ => false) children o.children := by
          rw [show o.children = [] from outline_children_eq_nil ctx hk _ s]
          exact .none fun _ _ => rfl
        refine ((renderChildren_reports hu children hplaces).bind_quiet fun _ =>
          (Reports.emit _).bind_quiet fun _ => .pure _).congr ?_
        simp
      | some k =>
        have hplaces : Places k.keeps children o.children :=
          places_outline ctx hk (.element found a children) s
        refine ((renderChildren_reports hu children hplaces).bind_quiet fun _ =>
          (Reports.emit _).bind_quiet fun _ => .pure _).congr ?_
        have hmeets_iff : Meets ctx.registry tag k (.element found a children) ↔
            ∃ c ∈ children, k.keeps c = true ∧ MeetsAt ctx.registry tag c := meets_iff
        simp [hmeets_iff]
  | .text _, _ | .cdata _, _ | .comment _, _ => by
    refine (Reports.pure _).congr ?_
    simp [MeetsAt, Node.tag?]

theorem renderChildren_reports {ctx : Context} {tag : String} (hu : ctx.registry.lookup? tag = none)
    {keep : Node → Bool} : ∀ (nodes : List Node) {places : List Placement}, Places keep nodes places →
      Reports tag (∃ c ∈ nodes, keep c = true ∧ MeetsAt ctx.registry tag c) (renderChildren ctx nodes places)
  | nodes, [], .none h => by
    have hpure : renderChildren ctx nodes [] = pure "" := by
      cases nodes <;> rfl
    rw [hpure]
    refine (Reports.pure _).congr ⟨False.elim, ?_⟩
    rintro ⟨c, hc, hkeep, -⟩
    rw [h c hc] at hkeep
    cases hkeep
  | n :: nodes, .child before s after :: places, .cons h hrest => by
    have hkeep : keep n = true := h.symm
    refine ((renderNode_reports hu n s).bind fun _ =>
      (renderChildren_reports hu nodes hrest).bind_quiet fun _ => .pure _).congr ?_
    simp [hkeep]
  | n :: nodes, .literal text :: places, .cons h hrest => by
    have hkeep : keep n = false := h.symm
    refine ((renderChildren_reports hu nodes hrest).bind_quiet fun _ => .pure _).congr ?_
    simp [hkeep]
  | n :: nodes, .skip :: places, .cons h hrest => by
    have hkeep : keep n = false := h.symm
    refine (renderChildren_reports hu nodes hrest).congr ?_
    simp [hkeep]

end

theorem renderBody_reports {ctx : Context} {tag : String} (hu : ctx.registry.lookup? tag = none) (body : Node) :
    Reports tag (Meets ctx.registry tag .body body) (renderBody ctx body) := by
  have hplaces : Places Container.body.keeps body.children (bodyOutline ctx (ctx.cascade body .body)).children :=
    places_bodyOutline ctx (ctx.cascade body .body)
  rw [meets_iff]
  exact (renderChildren_reports hu body.children hplaces).bind_quiet fun _ => .pure _

end Render

/-! ## The whole compile -/

namespace Compiler

variable {m : Type → Type}

theorem warnIncludes_adds (t : Template) (ds : Diagnostics) : ds.Adds ["include"] (warnIncludes t ds) := by
  unfold warnIncludes
  generalize t.root.preorder.filter (Node.hasTag Include.includeTag) = includes
  induction includes generalizing ds with
  | nil => exact .refl _ _
  | cons n includes ih => exact (Adds.warn ds (by decide) _).trans (ih _)

/-- The node is the head, or a container of the body that is rendered and renders whatever it holds. -/
def LooksUp (registry : Registry) (t : Template) (p : Node) : Prop :=
  t.head? = some p ∨ ∃ body k, t.body? = some body ∧ Render.Renders registry .body body k p ∧
    k ∈ [.body, .wrapper, .column]

/-- Only sections and groups choose their children by tag, and the tags they choose are known. -/
theorem renders_iff_of_unknown {registry : Registry} {tag : String} (hu : registry.lookup? tag = none)
    (k : Render.Container) : k.renders tag = true ↔ k ∈ [.body, .wrapper, .column] := by
  have hcolumn : tag ≠ Render.columnTag := by
    rintro rfl
    cases hc : registry.custom.lookup Render.columnTag <;> simp [Registry.lookup?, hc] at hu
    exact absurd hu (by decide)
  have hgroup : tag ≠ Render.groupTag := by
    rintro rfl
    cases hc : registry.custom.lookup Render.groupTag <;> simp [Registry.lookup?, hc] at hu
    exact absurd hu (by decide)
  cases k <;> simp [Render.Container.renders, hcolumn, hgroup]

theorem looksUp_iff {registry : Registry} {t : Template} {tag : String} (hu : registry.lookup? tag = none) :
    (∃ p, LooksUp registry t p ∧ ∃ n ∈ p.children, n.tag? = some tag) ↔
      (∃ head, t.head? = some head ∧ ∃ n ∈ head.children, n.tag? = some tag) ∨
      ∃ body, t.body? = some body ∧ Render.Meets registry tag .body body := by
  constructor
  · rintro ⟨p, hhead | ⟨body, k, hbody, hr, hk⟩, n, hn, htag⟩
    · exact .inl ⟨p, hhead, n, hn, htag⟩
    · exact .inr ⟨body, hbody, k, p, hr, n, hn, htag, (renders_iff_of_unknown hu k).2 hk⟩
  · rintro (⟨head, hhead, hn⟩ | ⟨body, hbody, k, p, hr, n, hn, htag, hk⟩)
    · exact ⟨head, .inl hhead, hn⟩
    · exact ⟨p, .inr ⟨body, k, hbody, hr, (renders_iff_of_unknown hu k).1 hk⟩, n, hn, htag⟩

theorem readHead_reports {registry : Registry} {tag : String} (hu : registry.lookup? tag = none) {t : Template}
    {ds ds' : Diagnostics} {h : Head}
    (hr : (match t.head? with
      | some head => Head.read registry head ds
      | none => ({}, ds)) = (h, ds')) :
    ds.Reports tag (∃ head, t.head? = some head ∧ ∃ n ∈ head.children, n.tag? = some tag) ds' := by
  split at hr
  · rename_i head hhead
    have hreports := Head.read_reports hu head ds
    rw [hr] at hreports
    exact hreports.congr (by simp [hhead])
  · rename_i hhead
    cases hr
    exact (Reports.refl ds).congr (by simp [hhead])

theorem renderTemplate_reports {c : Configuration m} {t : Template} {tag : String}
    (hu : c.registry.lookup? tag = none) {html : String} {h : Head} {ds : Diagnostics}
    (hr : renderTemplate c t = .ok (html, h, ds)) :
    ({} : Diagnostics).Reports tag (∃ p, LooksUp c.registry t p ∧ ∃ n ∈ p.children, n.tag? = some tag) ds := by
  unfold renderTemplate at hr
  extract_lets ds₀ at hr
  split at hr
  rename_i h₁ ds₁ hhead
  have hincludes : ({} : Diagnostics).Reports tag False ds₀ :=
    .of_adds (warnIncludes_adds t {}) (by decide) (by decide)
  have hread := hincludes.trans (readHead_reports hu hhead)
  split at hr
  · rename_i hbody
    cases hr
    have hwarn : ds₁.Reports tag False (ds₁.warn "pipeline" "Document has no mj-body") :=
      .of_adds (.warn ds₁ (List.mem_singleton.2 rfl) _) (by decide) (by decide)
    refine (hread.trans hwarn).congr ?_
    rw [looksUp_iff hu]
    simp [hbody]
  · rename_i body hbody
    extract_lets h₂ ctx at hr
    obtain ⟨_, hb, hp⟩ := bind_eq_ok.1 hr
    cases hp
    have hrender : Render.Reports tag (Render.Meets c.registry tag .body body) (Render.renderBody ctx body) :=
      Render.renderBody_reports hu body
    refine (hread.trans (hrender hb)).congr ?_
    rw [looksUp_iff hu]
    simp [hbody]

theorem finish_reports {c : Configuration m} {t : Template} {out : Output} (h : finish c t = .ok out) {tag : String}
    (hu : c.registry.lookup? tag = none) :
    unknownTag tag ∈ out.diagnostics ↔ ∃ p, LooksUp c.registry t p ∧ ∃ n ∈ p.children, n.tag? = some tag := by
  obtain ⟨html, head, ds, hr, rfl⟩ := finish_eq_ok.1 h
  have hplain : ({} : Diagnostics).IsPlain := by
    intro d hd
    simp at hd
  exact ((renderTemplate_reports hu hr) hplain).2.trans (by simp)

/-- A compile warns of an unknown tag exactly if the expanded template has it on a child of the head, or on a child of
a rendered body, wrapper or column. -/
theorem compile_reports_unknown {σ : Type} {c : Configuration (StateM σ)} {source : String} {s s' : σ} {out : Output}
    (h : (compile c source).run.run s = (.ok out, s')) :
    ∃ t, (expanded c source).run.run s = (.ok t, s') ∧ ∀ tag, c.registry.lookup? tag = none →
      (⟨"registry", "Unknown MJML tag: " ++ tag⟩ ∈ out.diagnostics ↔
        ∃ p, LooksUp c.registry t p ∧ ∃ n ∈ p.children, n.tag? = some tag) := by
  obtain ⟨t, ht, hf⟩ := run_compile_eq_ok.1 h
  exact ⟨t, ht, fun tag hu => finish_reports hf hu⟩

/-- Unknown tags in the head and in a wrapper, and one in a section beside them that is not warned of. -/
theorem compile_reports_unknown_wrapper :
    let c : Configuration (StateM Unit) := {}
    let source := "<mjml><mj-head><mj-a /></mj-head><mj-body><mj-wrapper><mj-b /><mj-section><mj-c /></mj-section>" ++
      "</mj-wrapper></mj-body></mjml>"
    ∃ out t, (compile c source).run.run () = (.ok out, ()) ∧ (expanded c source).run.run () = (.ok t, ()) ∧
      (∃ p, LooksUp c.registry t p ∧ ∃ n ∈ p.children, n.tag? = some "mj-b") ∧
      ¬∃ p, LooksUp c.registry t p ∧ ∃ n ∈ p.children, n.tag? = some "mj-c" := by
  intro c source
  obtain ⟨out, hout, hdiagnostics⟩ := exists_of_map_eq (f := Output.diagnostics)
    (v := [unknownTag "mj-a", unknownTag "mj-b"]) (r := (compile c source).run.run ()) (by decide +kernel)
  obtain ⟨t, ht, hreports⟩ := compile_reports_unknown hout
  refine ⟨out, t, hout, ht, ?_, ?_⟩
  · rw [← hreports "mj-b" (by decide), hdiagnostics]
    decide
  · rw [← hreports "mj-c" (by decide), hdiagnostics]
    decide

/-- A section leaves an unknown child out without a warning. -/
theorem compile_section_silent :
    let c : Configuration (StateM Unit) := {}
    let row : Node := .element "mj-section" .empty [.element "mj-foo" .empty []]
    let body : Node := .element "mj-body" .empty [row]
    let t : Template := ⟨.empty, [body]⟩
    c.registry.lookup? "mj-foo" = none ∧ Render.Renders c.registry .body body .sectionRow row ∧
      (∃ n ∈ row.children, n.tag? = some "mj-foo") ∧
      ∃ out, (compile c t.root.markup).run.run () = (.ok out, ()) ∧ out.diagnostics = [] := by
  intro c row body t
  refine ⟨by decide, ?_, ⟨_, List.mem_singleton.2 rfl, rfl⟩, ?_⟩
  · exact .child (List.mem_singleton.2 rfl) (show row.tag? = some "mj-section" from rfl) rfl
      (show c.registry.lookup? "mj-section" = some (.builtin .sectionRow) from rfl) rfl (.self _ _)
  · exact exists_of_map_eq (f := Output.diagnostics) (by decide +kernel)

end Compiler

end EmailMarkup
