import EmailMarkup.Proofs.Diagnostics
import EmailMarkup.Proofs.Include.InPlace
/-!
# Expansion is complete

An expansion that returns a template leaves no include in it, at any place and whatever was spliced in.
The walk does not look at what it has put in the place of an include, so each replacement has to be free
of includes by itself: markup is, because it is expanded before it is spliced, and a block is, because
its content is kept as text. So a compile with a resolver has no include left to warn of.
-/
namespace EmailMarkup

/-! ## What an action returns -/

section

variable {m : Type → Type} [Monad m] [LawfulMonad m] {α β : Type} {P : α → Prop} {Q : β → Prop}

/-- Whatever the action returns has the property. -/
def Returns (P : α → Prop) (x : ExceptT Error m α) : Prop := Coupled (fun a b => a = b ∧ P a) x x

theorem Returns.pure {a : α} (h : P a) : Returns P (Pure.pure a : ExceptT Error m α) := Coupled.pure ⟨rfl, h⟩

theorem Returns.bind {x : ExceptT Error m α} {f : α → ExceptT Error m β} (h : Returns P x)
    (hf : ∀ a, P a → Returns Q (f a)) : Returns Q (x >>= f) := by
  refine Coupled.bind h ?_
  rintro a _ ⟨rfl, ha⟩
  exact hf a ha

/-- Nothing is known of what another action returns. -/
theorem Returns.bind_any (x : ExceptT Error m α) {f : α → ExceptT Error m β} (hf : ∀ a, Returns Q (f a)) :
    Returns Q (x >>= f) :=
  Coupled.bind_same x hf

theorem Returns.throw (e : Error) : Returns P (throw e : ExceptT Error m α) := Coupled.throw e

theorem Returns.lift {x : Except Error α} (h : ∀ a, x = .ok a → P a) : Returns P (liftM x : ExceptT Error m α) :=
  (Coupled.lift x).mono fun _ _ ⟨hab, ha⟩ => ⟨hab, h _ ha⟩

/-- Functions that agree on whatever is returned make the same action. -/
theorem Returns.bind_congr {x : ExceptT Error m α} {f g : α → ExceptT Error m β} (h : Returns P x)
    (hfg : ∀ a, P a → f a = g a) : x >>= f = x >>= g := by
  obtain ⟨z, hz, -⟩ := h
  rw [← hz, bind_map_left, bind_map_left]
  exact congrArg (z >>= ·) (funext fun p => hfg _ p.2.2)

/-- In an action with a state, the property holds of what a run returns. -/
theorem Returns.of_run {σ : Type} {x : ExceptT Error (StateM σ) α} (h : Returns P x) {s s' : σ} {a : α}
    (hrun : x.run.run s = (.ok a, s')) : P a := by
  obtain ⟨z, rfl, -⟩ := h
  rw [ExceptT.run_map, StateT.run_map] at hrun
  have hr : (z.run.run s).1.map (fun p => p.1.1) = .ok a := congrArg Prod.fst hrun
  cases hz : (z.run.run s).1 with
  | error e =>
    rw [hz] at hr
    cases hr
  | ok p =>
    rw [hz] at hr
    cases hr
    exact p.2.2

end

/-! ## Expansion -/

namespace Include

variable {m : Type → Type} [Monad m] [LawfulMonad m]

theorem replaceAll_append {replace : String → Attributes → ExceptT Error m (List Node)} (parent : String)
    (nodes more : List Node) : replaceAll replace parent (nodes ++ more) = (do
      let first ← replaceAll replace parent nodes
      let others ← replaceAll replace parent more
      return first ++ others) := by
  induction nodes with
  | nil => simp [replaceAll]
  | cons n rest ih => simp only [List.cons_append, replaceAll, ih, bind_assoc, pure_bind, List.append_assoc]

/-- The action returns nodes without includes. -/
def Complete (x : ExceptT Error m (List Node)) : Prop := Returns (fun nodes => includesAll nodes = []) x

mutual

theorem replaceIn_complete {replace : String → Attributes → ExceptT Error m (List Node)}
    (h : ∀ parent a, Complete (replace parent a)) (parent : String) : ∀ n, Complete (replaceIn replace parent n)
  | .element tag a children => by
    rw [replaceIn]
    split
    · exact h parent a
    · rename_i htag
      refine (replaceAll_complete h tag children).bind fun nodes hn => .pure ?_
      rw [includesAll_singleton, includesIn, if_neg htag, hn]
  | .text _ | .cdata _ | .comment _ => .pure rfl

/-- If each replacement is free of includes, so is the whole. -/
theorem replaceAll_complete {replace : String → Attributes → ExceptT Error m (List Node)}
    (h : ∀ parent a, Complete (replace parent a)) (parent : String) : ∀ nodes, Complete (replaceAll replace parent nodes)
  | [] => .pure rfl
  | n :: rest => by
    refine (replaceIn_complete h parent n).bind fun first hfirst => ?_
    refine (replaceAll_complete h parent rest).bind fun others hothers => .pure ?_
    rw [includesAll_append, hfirst, hothers, List.append_nil]

end

theorem block_complete {tag : String} (h : tag ≠ includeTag) (a : Attributes) (content : String) :
    Complete (pure [.block tag a content] : ExceptT Error m (List Node)) :=
  .pure (by rw [includesAll_singleton, includesIn_block h])

/-- A section of a template without includes has none below it. -/
theorem includesAll_section {t : Template} (h : includesAll t.children = []) (parent : String) :
    includesAll (((section? parent t).map Node.children).getD []) = [] := by
  cases hs : section? parent t with
  | none => rfl
  | some n => exact includesAll_children (includesAll_eq_nil.1 h n (mem_of_section? hs))

theorem expandMarkup_complete {expand : String → List Node → ExceptT Error m (List Node)}
    (h : ∀ parent nodes, Complete (expand parent nodes)) (parent : String) (markup : Markup) :
    Complete (expandMarkup expand parent markup) := by
  cases markup with
  | document t => exact (h _ _).bind fun children hc => .pure (includesAll_section hc parent)
  | fragment t => exact h _ _
  | raw text => exact block_complete (by decide) _ _

theorem replacement_complete {limits : Limits} {expand : String → List Node → ExceptT Error m (List Node)}
    (h : ∀ parent nodes, Complete (expand parent nodes)) (parent : String) (a : Attributes) (r : Request)
    (content : String) : Complete (replacement limits expand parent a r content) := by
  unfold replacement
  split
  · exact Returns.bind_any _ fun markup => expandMarkup_complete h parent markup
  · exact block_complete (by decide) _ _
  · exact block_complete (by decide) _ _

/-- What is expanded has no includes; the induction is on the levels of includes left. -/
theorem expandChildren_complete (limits : Limits) (resolve : Resolver m) (levels : Nat) (chain : List String)
    (parent : String) (nodes : List Node) : Complete (expandChildren limits resolve levels chain parent nodes) := by
  induction levels generalizing chain parent nodes with
  | zero => exact replaceAll_complete (fun _ _ => .throw _) parent nodes
  | succ levels ih =>
    exact replaceAll_complete (fun parent a => .bind_any _ fun (r, content) =>
      replacement_complete (ih (r.path :: chain)) parent a r content) parent nodes

theorem expand_complete (limits : Limits) (resolve : Resolver m) (t : Template) :
    Returns (fun t => includesAll t.children = []) (expand limits resolve t) :=
  .bind_any _ fun _ => (expandChildren_complete ..).bind fun _ h => .pure h

/-- A template without includes has no node that is one. -/
theorem tag?_ne_of_includesAll {t : Template} (h : includesAll t.children = []) :
    ∀ n ∈ t.root.preorder, n.tag? ≠ some includeTag := by
  refine (includesIn_eq_nil_iff t.root).1 ?_
  rw [Template.root, includesIn, if_neg (by decide), h]

/-! ## Compiling -/

theorem warnIncludes_eq {t : Template} (h : includesAll t.children = []) (ds : Diagnostics) :
    Compiler.warnIncludes t ds = ds := by
  have hnone : t.root.preorder.filter (Node.hasTag includeTag) = [] := by
    refine List.filter_eq_nil_iff.2 fun n hn => ?_
    simpa [Node.hasTag] using tag?_ne_of_includesAll h n hn
  rw [Compiler.warnIncludes, hnone, List.foldl_nil]

/-- A compile with a resolver has nothing to say about includes. -/
theorem compile_complete {c : Configuration m} {resolve : Resolver m} (h : c.resolver = some resolve)
    (source : String) :
    Returns (fun out => ∀ d ∈ out.diagnostics, d.component ≠ "include") (Compiler.compile c source) := by
  unfold Compiler.compile
  simp only [h]
  refine .bind_any _ fun t => (expand_complete c.limits resolve t).bind fun t' ht => .lift fun out hout => ?_
  obtain ⟨ds, hds, new, hnew, hall⟩ := Compiler.finish_diagnostics hout
  rw [warnIncludes_eq ht, hds] at hnew
  obtain rfl : out.diagnostics = new := hnew
  intro d hd heq
  have hmem := hall d hd
  rw [heq] at hmem
  exact absurd hmem (by decide)

/-- Expanding leaves no include behind, whatever is included and however deep, and so a compile with a
resolver records no warning about an include that is left. -/
theorem expandInPlace_leaves_no_include {σ : Type} (s s' : σ) :
    (∀ (limits : Limits) (resolve : Resolver (StateM σ)) (t t' : Template),
      (expandInPlace limits resolve t).run.run s = (.ok t', s') →
        ∀ n ∈ t'.root.preorder, n.tag? ≠ some includeTag) ∧
    (∀ (c : Configuration (StateM σ)) (resolve : Resolver (StateM σ)) (source : String) (out : Output),
      c.resolver = some resolve → (Compiler.compile c source).run.run s = (.ok out, s') →
        ∀ d ∈ out.diagnostics, d.component ≠ "include") := by
  constructor
  · intro limits resolve t t' hrun
    rw [expandInPlace_eq] at hrun
    exact tag?_ne_of_includesAll ((expand_complete limits resolve t).of_run hrun)
  · intro c resolve source out hc hrun
    exact (compile_complete hc source).of_run hrun

/-- A compile in which an include brings another one. -/
theorem expandInPlace_leaves_no_include_nested :
    let resolve : Resolver (StateM Unit) :=
      ofList [("a", "<mj-include path=\"b\" /><mj-spacer />"), ("b", "<mj-unknown />")]
    let t : Template := ⟨.empty, [.element "mj-body" .empty [.element "mj-include" ⟨[("path", "a")]⟩ []]]⟩
    let c : Configuration (StateM Unit) := { resolver := some resolve }
    (∃ t', (expandInPlace {} resolve t).run.run () = (.ok t', ()) ∧
      ∀ n ∈ t'.root.preorder, n.tag? ≠ some includeTag) ∧
    ∃ out, (Compiler.compile c t.root.markup).run.run () = (.ok out, ()) ∧
      ∀ d ∈ out.diagnostics, d.component ≠ "include" := by
  intro resolve t c
  have hok {α : Type} {r : Except Error α × Unit} (h : r.1.isOk = true) : ∃ a, r = (.ok a, ()) := by
    obtain ⟨_ | a, _⟩ := r
    · cases h
    · exact ⟨a, rfl⟩
  obtain ⟨t', ht'⟩ := hok (r := (expandInPlace {} resolve t).run.run ()) (by decide +kernel)
  obtain ⟨out, hout⟩ := hok (r := (Compiler.compile c t.root.markup).run.run ()) (by decide +kernel)
  exact ⟨⟨t', ht', (expandInPlace_leaves_no_include () ()).1 {} resolve t t' ht'⟩,
    out, hout, (expandInPlace_leaves_no_include () ()).2 c resolve _ out rfl hout⟩

end Include

end EmailMarkup
