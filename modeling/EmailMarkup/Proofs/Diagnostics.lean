import EmailMarkup.Compiler
import EmailMarkup.Proofs.Template.Reader
/-!
# Where warnings come from

Warnings are only ever added. Reading a head adds those of fonts, of the head and of unknown tags,
rendering a body those of unknown tags; the only warnings about includes are those for the includes
that are still in the template when it is compiled (`finish_diagnostics`).
-/
namespace EmailMarkup

/-- The warnings of `ds'` are those of `ds` and then some that the given components raised. -/
def Diagnostics.Adds (components : List String) (ds ds' : Diagnostics) : Prop :=
  ∃ new, ds'.entries = ds.entries ++ new ∧ ∀ d ∈ new, d.component ∈ components

namespace Diagnostics.Adds

variable {components more : List String} {ds ds' ds'' : Diagnostics}

theorem refl (components : List String) (ds : Diagnostics) : ds.Adds components ds :=
  ⟨[], by simp, by simp⟩

theorem trans (h : ds.Adds components ds') (h' : ds'.Adds components ds'') : ds.Adds components ds'' := by
  obtain ⟨new, hnew, hall⟩ := h
  obtain ⟨new', hnew', hall'⟩ := h'
  refine ⟨new ++ new', ?_, List.forall_mem_append.2 ⟨hall, hall'⟩⟩
  rw [hnew', hnew, List.append_assoc]

theorem mono (h : ds.Adds components ds') (hsub : components ⊆ more) : ds.Adds more ds' := by
  obtain ⟨new, hnew, hall⟩ := h
  exact ⟨new, hnew, fun d hd => hsub (hall d hd)⟩

theorem warn (ds : Diagnostics) {component : String} (h : component ∈ components) (message : String) :
    ds.Adds components (ds.warn component message) := by
  rw [Diagnostics.Adds, entries_warn]
  split
  · exact refl components ds
  · exact ⟨[⟨component, message⟩], rfl, by simpa using h⟩

theorem foldl {α : Type} {f : Head.Reading → α → Head.Reading}
    (h : ∀ (r : Head.Reading) a, r.2.Adds components (f r a).2)
    (l : List α) (r : Head.Reading) : r.2.Adds components (l.foldl f r).2 := by
  induction l generalizing r with
  | nil => exact refl components r.2
  | cons a l ih => exact (h r a).trans (ih (f r a))

end Diagnostics.Adds

open Diagnostics

/-! ## The head -/

namespace Head

/-- The components that warn while a child of a head is read that is known. -/
def ownWarners : List String := ["mj-font", "head"]

/-- The components that warn while a head is read. -/
def warners : List String := ["mj-font", "head", "registry"]

@[simp] theorem Reading.metadata_snd (r : Reading) (change : Metadata → Metadata) : (r.metadata change).2 = r.2 := rfl

@[simp] theorem Reading.styles_snd (r : Reading) (change : StyleBook → StyleBook) : (r.styles change).2 = r.2 := rfl

@[simp] theorem Reading.rules_snd (r : Reading) (change : AttributeRules → AttributeRules) :
    (r.rules change).2 = r.2 := rfl

theorem readTitle_snd (n : Node) (r : Reading) : (readTitle n r).2 = r.2 := by
  unfold readTitle
  split <;> simp

theorem readPreview_snd (n : Node) (r : Reading) : (readPreview n r).2 = r.2 := by
  unfold readPreview
  split <;> simp

theorem readBreakpoint_snd (n : Node) (r : Reading) : (readBreakpoint n r).2 = r.2 := by
  unfold readBreakpoint
  split <;> simp

theorem readStyle_snd (n : Node) (r : Reading) : (readStyle n r).2 = r.2 := by
  unfold readStyle
  extract_lets css
  split <;> simp

theorem readRule_snd (n : Node) (r : Reading) : (readRule n r).2 = r.2 := by
  unfold readRule
  split
  · rfl
  · split
    · split <;> simp
    · simp

theorem readHtmlRule_snd (n : Node) (r : Reading) : (readHtmlRule n r).2 = r.2 := by
  unfold readHtmlRule
  split
  · rfl
  · extract_lets found
    split <;> simp

theorem readRaw_snd (n : Node) (r : Reading) : (readRaw n r).2 = r.2 := by
  unfold readRaw
  split <;> simp

theorem adds_of_snd_eq {components : List String} {r r' : Reading} (h : r'.2 = r.2) : r.2.Adds components r'.2 := by
  rw [h]
  exact .refl _ _

theorem readFont_adds (n : Node) (r : Reading) : r.2.Adds ownWarners (readFont n r).2 := by
  unfold readFont
  split
  · split
    · exact adds_of_snd_eq (r.styles_snd _)
    · exact .warn _ (by decide) _
  · exact .refl _ _

theorem readComponent_adds (b : Builtin) (n : Node) (r : Reading) :
    r.2.Adds ownWarners (readComponent b n r).2 := by
  unfold readComponent
  split
  · exact adds_of_snd_eq (readTitle_snd n r)
  · exact adds_of_snd_eq (readPreview_snd n r)
  · exact adds_of_snd_eq (readBreakpoint_snd n r)
  · exact readFont_adds n r
  · exact adds_of_snd_eq (readStyle_snd n r)
  · exact .foldl (fun r n => adds_of_snd_eq (readRule_snd n r)) _ r
  · exact .foldl (fun r n => adds_of_snd_eq (readHtmlRule_snd n r)) _ r
  · exact adds_of_snd_eq (readRaw_snd n r)
  · exact .warn _ (by decide) _
  · exact .refl _ _

theorem readChild_adds (registry : Registry) (r : Reading) (n : Node) :
    r.2.Adds warners (readChild registry r n).2 := by
  cases n with
  | comment content =>
    rw [readChild]
    split
    · exact .refl _ _
    · exact adds_of_snd_eq (r.metadata_snd _)
  | element tag a children =>
    rw [readChild]
    split
    · split
      · exact (readComponent_adds _ _ r).mono (by decide)
      · exact .warn _ (by decide) _
    · exact .warn _ (by decide) _
    · exact .warn _ (by decide) _
  | _ => exact .refl _ _

theorem read_adds (registry : Registry) (head : Node) (ds : Diagnostics) :
    ds.Adds warners (read registry head ds).2 :=
  .foldl (readChild_adds registry) head.children ({}, ds)

end Head

/-! ## The body -/

namespace Render

/-- A component of the caller's changes nothing but the number of the next identifier. -/
theorem renderCustom_eq_ok {ctx : Context} {c : Custom} {n : Node} {s : Surroundings} {o o' : Outcome} {html : String}
    (h : (renderCustom ctx c n s).run o = .ok (html, o')) : ∃ nextId, o' = { o with nextId } := by
  obtain ⟨_, hlift, h⟩ := bind_eq_ok.1 h
  obtain ⟨_, -, hp⟩ := bind_eq_ok.1 hlift
  cases hp
  cases h
  exact ⟨_, rfl⟩

/-- The warnings that a rendering step adds are those of the given components. -/
def Warns (components : List String) {α : Type} (x : RenderM α) : Prop :=
  ∀ ⦃o : Outcome⦄ ⦃a : α⦄ ⦃o' : Outcome⦄, x.run o = .ok (a, o') → o.diagnostics.Adds components o'.diagnostics

namespace Warns

variable {components : List String} {α β : Type}

theorem pure (a : α) : Warns components (Pure.pure a) := by
  intro o _ _ h
  cases h
  exact .refl _ _

theorem bind {x : RenderM α} {f : α → RenderM β} (hx : Warns components x) (hf : ∀ a, Warns components (f a)) :
    Warns components (x >>= f) := by
  intro o b o' h
  rw [StateT.run_bind] at h
  obtain ⟨p, hrun, h⟩ := bind_eq_ok.1 h
  exact (hx hrun).trans (hf p.1 h)

theorem emit (effects : List Effect) : Warns components (emit effects) := by
  intro o _ _ h
  cases h
  exact .refl _ _

theorem renderCustom (ctx : Context) (c : Custom) (n : Node) (s : Surroundings) :
    Warns components (renderCustom ctx c n s) := by
  intro o html o' h
  obtain ⟨_, rfl⟩ := renderCustom_eq_ok h
  exact .refl _ _

end Warns

mutual

/-- Rendering warns of unknown tags only. -/
theorem renderNode_warns (ctx : Context) : ∀ (n : Node) (s : Surroundings), Warns ["registry"] (renderNode ctx n s)
  | .element tag a children, s => by
    rw [renderNode]
    split
    · refine .bind ?_ fun _ => .pure _
      intro o _ _ h
      cases h
      exact .warn _ (by decide) _
    · exact .renderCustom ..
    · exact (renderChildren_warns ctx children _).bind fun _ => (Warns.emit _).bind fun _ => .pure _
  | .text _, _ | .cdata _, _ | .comment _, _ => .pure _

theorem renderChildren_warns (ctx : Context) :
    ∀ (nodes : List Node) (places : List Placement), Warns ["registry"] (renderChildren ctx nodes places)
  | n :: rest, .child _ s _ :: places =>
    (renderNode_warns ctx n s).bind fun _ => (renderChildren_warns ctx rest places).bind fun _ => .pure _
  | _ :: rest, .literal _ :: places => (renderChildren_warns ctx rest places).bind fun _ => .pure _
  | _ :: rest, .skip :: places => renderChildren_warns ctx rest places
  | [], _ => .pure _
  | _ :: _, [] => .pure _

end

theorem renderBody_warns (ctx : Context) (body : Node) : Warns ["registry"] (renderBody ctx body) :=
  (renderChildren_warns ctx body.children _).bind fun _ => .pure _

end Render

/-! ## The whole compile -/

namespace Compiler

variable {m : Type → Type}

/-- The components that warn while a template is compiled, apart from those that warn of its includes. -/
def warners : List String := "pipeline" :: Head.warners

/-- What the head adds to the warnings of the includes, if there is a head. -/
theorem readHead_adds {registry : Registry} {t : Template} {ds ds' : Diagnostics} {h : Head}
    (hr : (match t.head? with
      | some head => Head.read registry head ds
      | none => ({}, ds)) = (h, ds')) : ds.Adds warners ds' := by
  split at hr
  · rename_i head _
    have hadds := Head.read_adds registry head ds
    rw [hr] at hadds
    exact hadds.mono (List.subset_cons_self ..)
  · cases hr
    exact .refl _ _

theorem renderTemplate_adds {c : Configuration m} {t : Template} {html : String} {h : Head} {ds : Diagnostics}
    (hr : renderTemplate c t = .ok (html, h, ds)) : (warnIncludes t {}).Adds warners ds := by
  unfold renderTemplate at hr
  extract_lets ds₀ at hr
  split at hr
  rename_i h₁ ds₁ hhead
  refine (readHead_adds hhead).trans ?_
  split at hr
  · cases hr
    exact .warn _ (by decide) _
  · extract_lets h₂ ctx at hr
    rename_i body _
    obtain ⟨_, hb, hp⟩ := bind_eq_ok.1 hr
    cases hp
    exact (Render.renderBody_warns ctx body hb).mono (by decide)

/-- A compile warns of the includes that are left, and of other things in the name of other components. -/
theorem finish_diagnostics {c : Configuration m} {t : Template} {out : Output} (h : finish c t = .ok out) :
    ∃ ds, ds.entries = out.diagnostics ∧ (warnIncludes t {}).Adds warners ds := by
  obtain ⟨_, hr, hp⟩ := bind_eq_ok.1 h
  cases hp
  exact ⟨_, rfl, renderTemplate_adds hr⟩

end Compiler

end EmailMarkup
