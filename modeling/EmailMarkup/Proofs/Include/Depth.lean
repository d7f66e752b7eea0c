import EmailMarkup.Proofs.Include.InPlace
/-!
# How deep includes nest

An include that asks for content with an include in it, and so on, is a chain. An expansion follows a
chain of distinct paths to its end exactly when it is no longer than the limit; a longer one is cut off
with an error, and never one level too early or too late. Around every call, for any resolver, fewer
includes are open than the limit allows (`expandInPlace_stays_within_limits`).
-/
namespace EmailMarkup.Include

variable {m : Type → Type} [Monad m] [LawfulMonad m] {limits : Limits} {resolve : Resolver m}
  {replace : String → Attributes → ExceptT Error m (List Node)} {e : Error}

/-! ## Replacing that always goes well, or never -/

theorem throw_bind {α β : Type} (f : α → ExceptT Error m β) : (throw e >>= f) = throw e := by
  apply ExceptT.ext
  simp

theorem lift_ok_bind {α β : Type} (a : α) (f : α → ExceptT Error m β) :
    (liftM (Except.ok a : Except Error α) >>= f) = f a :=
  pure_bind a f

mutual

theorem replaceIn_eq_pure (parent : String) : ∀ n : Node,
    (∀ a ∈ includesIn n, ∀ parent, ∃ out, replace parent a = pure out) → ∃ out, replaceIn replace parent n = pure out
  | .element tag a children, h => by
    rw [includesIn] at h
    rw [replaceIn]
    split
    · rename_i htag
      rw [if_pos htag] at h
      exact h a (by simp) parent
    · rename_i htag
      rw [if_neg htag] at h
      obtain ⟨out, hout⟩ := replaceAll_eq_pure tag children h
      exact ⟨_, by rw [hout, pure_bind]⟩
  | .text _, _ | .cdata _, _ | .comment _, _ => ⟨_, rfl⟩

/-- If every include has a replacement, so has the whole. -/
theorem replaceAll_eq_pure (parent : String) : ∀ nodes : List Node,
    (∀ a ∈ includesAll nodes, ∀ parent, ∃ out, replace parent a = pure out) →
      ∃ out, replaceAll replace parent nodes = pure out
  | [], _ => ⟨_, rfl⟩
  | n :: rest, h => by
    rw [includesAll, List.forall_mem_append] at h
    obtain ⟨first, hfirst⟩ := replaceIn_eq_pure parent n h.1
    obtain ⟨others, hothers⟩ := replaceAll_eq_pure parent rest h.2
    exact ⟨_, by rw [replaceAll, hfirst, pure_bind, hothers, pure_bind]⟩

end

mutual

theorem replaceIn_plain (parent : String) : ∀ n : Node, includesIn n = [] → replaceIn replace parent n = pure [n]
  | .element tag a children, h => by
    rw [includesIn] at h
    rw [replaceIn]
    split at h
    · cases h
    · rename_i htag
      rw [if_neg htag, replaceAll_plain tag children h, pure_bind]
  | .text _, _ | .cdata _, _ | .comment _, _ => rfl

/-- Nodes without includes stay as they are. -/
theorem replaceAll_plain (parent : String) : ∀ nodes : List Node, includesAll nodes = [] →
    replaceAll replace parent nodes = pure nodes
  | [], _ => rfl
  | n :: rest, h => by
    rw [includesAll, List.append_eq_nil_iff] at h
    rw [replaceAll, replaceIn_plain parent n h.1, pure_bind, replaceAll_plain parent rest h.2, pure_bind]
    rfl

end

mutual

theorem replaceIn_eq_throw (parent : String) : ∀ n : Node, includesIn n ≠ [] →
    (∀ a ∈ includesIn n, ∀ parent, replace parent a = throw e) → replaceIn replace parent n = throw e
  | .element tag a children, hne, h => by
    rw [includesIn] at h hne
    rw [replaceIn]
    split
    · rename_i htag
      rw [if_pos htag] at h
      exact h a (by simp) parent
    · rename_i htag
      rw [if_neg htag] at h hne
      rw [replaceAll_eq_throw tag children hne h, throw_bind]
  | .text _, hne, _ | .cdata _, hne, _ | .comment _, hne, _ => absurd rfl hne

/-- If no include has a replacement, the first one stops the expansion. -/
theorem replaceAll_eq_throw (parent : String) : ∀ nodes : List Node, includesAll nodes ≠ [] →
    (∀ a ∈ includesAll nodes, ∀ parent, replace parent a = throw e) → replaceAll replace parent nodes = throw e
  | [], hne, _ => absurd rfl hne
  | n :: rest, hne, h => by
    rw [includesAll] at h hne
    rw [List.forall_mem_append] at h
    rw [replaceAll]
    by_cases hn : includesIn n = []
    · rw [hn, List.nil_append] at hne
      rw [replaceIn_plain parent n hn, pure_bind, replaceAll_eq_throw parent rest hne h.2, throw_bind]
    · rw [replaceIn_eq_throw parent n hn h.1, throw_bind]

end

theorem expandMarkup_eq_pure {expand : String → List Node → ExceptT Error m (List Node)} {markup : Markup}
    (h : ∀ parent, ∃ out, expand parent markup.nodes = pure out) (parent : String) :
    ∃ out, expandMarkup expand parent markup = pure out := by
  cases markup with
  | document t =>
    obtain ⟨out, hout⟩ := h Template.rootTag
    rw [Markup.nodes] at hout
    exact ⟨_, by rw [expandMarkup, hout, pure_bind]⟩
  | fragment t => exact h Template.bodyTag
  | raw text => exact ⟨_, rfl⟩

theorem expandMarkup_eq_throw {expand : String → List Node → ExceptT Error m (List Node)} {markup : Markup}
    (hne : includesAll markup.nodes ≠ []) (h : ∀ parent, expand parent markup.nodes = throw e) (parent : String) :
    expandMarkup expand parent markup = throw e := by
  cases markup with
  | document t =>
    have hout := h Template.rootTag
    rw [Markup.nodes] at hout
    rw [expandMarkup, hout, throw_bind]
  | fragment t => exact h Template.bodyTag
  | raw text => exact absurd rfl hne

/-! ## Chains -/

/-- An include with attributes `a` asks for the markup at `path`. -/
structure Asks (path : String) (a : Attributes) : Prop where
  given : a.get? "path" = some path
  notBlank : Text.isBlankText path = false
  kind : Kind.parse? ((a.get? "type").getD "mjml") = some .markup

/-- The resolver serves markup at `path`, wherever it is asked for, that is not too long and can be read. -/
def Serves (limits : Limits) (resolve : Resolver m) (path : String) (markup : Markup) : Prop :=
  ∃ content, (∀ context, resolve path context = pure content) ∧ content.length ≤ limits.inputSize ∧
    readMarkup limits content = .ok markup

/-- There are includes, and all of them ask for `path`. -/
def OnlyAsk (nodes : List Node) (path : String) : Prop :=
  includesAll nodes ≠ [] ∧ ∀ a ∈ includesAll nodes, Asks path a

/-- What is served at the first path asks for the next one, and so on; at the last there is no include. -/
inductive Leads (limits : Limits) (resolve : Resolver m) : String → List String → Prop
  | last {path : String} {markup : Markup} (serves : Serves limits resolve path markup)
      (plain : includesAll markup.nodes = []) : Leads limits resolve path []
  | next {path following : String} {rest : List String} {markup : Markup} (serves : Serves limits resolve path markup)
      (asks : OnlyAsk markup.nodes following) (leads : Leads limits resolve following rest) :
      Leads limits resolve path (following :: rest)

/-- An include of a served path, inside other ones, becomes what the markup expands to. -/
theorem replace_of_serves {levels : Nat} {chain : List String} {path : String} {a : Attributes} {markup : Markup}
    (h : Asks path a) (hnew : path ∉ chain) (hs : Serves limits resolve path markup) (parent : String) :
    (do
      let (r, content) ← fetch limits resolve chain a
      replacement limits (expandChildren limits resolve levels (r.path :: chain)) parent a r content) =
      expandMarkup (expandChildren limits resolve levels (path :: chain)) parent markup := by
  obtain ⟨content, hresolve, hsize, hm⟩ := hs
  have hr : request chain a = .ok ⟨path, ⟨.markup, chain.head?, chain.length⟩⟩ := by
    simp [request, h.given, Option.filter, h.notBlank, hnew, h.kind]
  have hc : checkSize limits path content = .ok () := by
    rw [checkSize, if_neg (by omega)]
  simp only [fetch, pure_bind, hr, lift_ok_bind, hresolve, hc, replacement, hm]

theorem not_mem_of_nodup {chain rest : List String} {path : String} (h : (chain.reverse ++ path :: rest).Nodup) :
    path ∉ chain := fun hm =>
  (List.nodup_append.1 h).2.2 path (List.mem_reverse.2 hm) path (by simp) rfl

theorem expandChildren_plain {nodes : List Node} (h : includesAll nodes = []) (levels : Nat) (chain : List String)
    (parent : String) : expandChildren limits resolve levels chain parent nodes = pure nodes := by
  cases levels with
  | zero => exact replaceAll_plain parent nodes h
  | succ levels => exact replaceAll_plain parent nodes h

/-- With enough levels left, a chain is followed to its end. -/
theorem expandChildren_of_leads {path : String} {rest : List String} (h : Leads limits resolve path rest)
    {levels : Nat} (hl : rest.length < levels) {chain : List String} (hd : (chain.reverse ++ path :: rest).Nodup)
    {nodes : List Node} (hn : ∀ a ∈ includesAll nodes, Asks path a) (parent : String) :
    ∃ out, expandChildren limits resolve levels chain parent nodes = pure out := by
  obtain ⟨levels, rfl⟩ := Nat.exists_eq_add_one_of_ne_zero (by omega : levels ≠ 0)
  induction h generalizing levels chain nodes parent with
  | last serves plain =>
    refine replaceAll_eq_pure parent nodes fun a ha parent => ?_
    rw [replace_of_serves (hn a ha) (not_mem_of_nodup hd) serves]
    exact expandMarkup_eq_pure (fun parent => ⟨_, expandChildren_plain plain levels _ parent⟩) parent
  | next serves asks leads ih =>
    rw [List.length_cons] at hl
    obtain ⟨levels, rfl⟩ := Nat.exists_eq_add_one_of_ne_zero (by omega : levels ≠ 0)
    refine replaceAll_eq_pure parent nodes fun a ha parent => ?_
    rw [replace_of_serves (hn a ha) (not_mem_of_nodup hd) serves]
    exact expandMarkup_eq_pure (ih (by simpa using hd) asks.2 · levels (by omega)) parent

/-- With too few levels left, a chain is cut off. -/
theorem expandChildren_tooDeep {path : String} {rest : List String} (h : Leads limits resolve path rest)
    {levels : Nat} (hl : levels ≤ rest.length) {chain : List String} (hd : (chain.reverse ++ path :: rest).Nodup)
    {nodes : List Node} (hn : OnlyAsk nodes path) (parent : String) :
    expandChildren limits resolve levels chain parent nodes = throw (.inclusion (.tooDeep limits.includeDepth)) := by
  induction h generalizing levels chain nodes parent with
  | last =>
    obtain rfl : levels = 0 := by simpa using hl
    exact replaceAll_eq_throw parent nodes hn.1 fun _ _ _ => rfl
  | next serves asks leads ih =>
    cases levels with
    | zero => exact replaceAll_eq_throw parent nodes hn.1 fun _ _ _ => rfl
    | succ levels =>
      refine replaceAll_eq_throw parent nodes hn.1 fun a ha parent => ?_
      rw [replace_of_serves (hn.2 a ha) (not_mem_of_nodup hd) serves]
      exact expandMarkup_eq_throw asks.1 (ih (by simpa using hl) (by simpa using hd) asks) parent

/-- A template that starts a chain is expanded exactly if the chain is within the limit. -/
theorem expand_of_leads {t : Template} {path : String} {rest : List String} (hl : limits.check = .ok ())
    (ht : OnlyAsk t.children path) (h : Leads limits resolve path rest) (hd : (path :: rest).Nodup) :
    ((path :: rest).length ≤ limits.includeDepth → ∃ t', expand limits resolve t = pure t') ∧
      (limits.includeDepth < (path :: rest).length →
        expand limits resolve t = throw (.inclusion (.tooDeep limits.includeDepth))) := by
  have hd' : (([] : List String).reverse ++ path :: rest).Nodup := hd
  simp only [expand, hl, lift_ok_bind]
  constructor
  · intro hlen
    obtain ⟨out, hout⟩ := expandChildren_of_leads h hlen hd' ht.2 Template.rootTag
    exact ⟨_, by rw [hout, pure_bind]⟩
  · intro hlen
    rw [expandChildren_tooDeep h (Nat.le_of_lt_succ hlen) hd' ht, throw_bind]

/-! ## Limits of every expansion -/

/-- For every resolver, one with a state included, an expansion ends with a result and a record of calls
in which each call is for a path that is not blank and not among those it is nested in, and says how
many includes are around it, fewer than the limit, and which is the innermost. A chain of contents that
can be read, each asking for the next, is expanded exactly if it is not longer than the limit. -/
theorem expandInPlace_stays_within_limits (limits : Limits) :
    (∀ {σ : Type} (resolve : Resolver (StateM σ)) (t : Template) (s : σ), ∃ r log s',
      (expandInPlace limits (recorded resolve) t).run.run [] s = ((r, log), s') ∧
      Trace limits r.isOk [] (includesAll t.children) log ∧
      ∀ c ∈ log, Text.isBlankText c.path = false ∧ c.context.depth < limits.includeDepth ∧
        (c.context.within = none ↔ c.context.depth = 0)) ∧
    (∀ {m : Type → Type} [Monad m] [LawfulMonad m] (resolve : Resolver m) (t : Template) (path : String)
      (rest : List String), limits.check = .ok () → OnlyAsk t.children path → Leads limits resolve path rest →
      (path :: rest).Nodup →
      ((path :: rest).length ≤ limits.includeDepth → ∃ t', expandInPlace limits resolve t = pure t') ∧
      (limits.includeDepth < (path :: rest).length →
        expandInPlace limits resolve t = throw (.inclusion (.tooDeep limits.includeDepth)))) := by
  constructor
  · intro σ resolve t s
    rw [expandInPlace_eq]
    obtain ⟨r, log, s', hrun, htrace⟩ := expand_traces limits resolve t [] s
    exact ⟨r, log, s', hrun, htrace, htrace.context_eq⟩
  · intro m _ _ resolve t path rest hl ht h hd
    rw [expandInPlace_eq]
    exact expand_of_leads hl ht h hd

/-- A chain of two paths is expanded with a limit of two and cut off with a limit of one. -/
theorem expandInPlace_stays_within_limits_two :
    let t : Template := ⟨.empty, [.element "mj-body" .empty [.element "mj-include" ⟨[("path", "a")]⟩ []]]⟩
    let resolve : Resolver Id := ofList [("a", "<mj-include path=\"b\" />"), ("b", "<mj-spacer />")]
    OnlyAsk t.children "a" ∧ Leads ⟨2, 100, 100⟩ resolve "a" ["b"] ∧ Leads ⟨1, 100, 100⟩ resolve "a" ["b"] ∧
      (∃ t', expandInPlace ⟨2, 100, 100⟩ resolve t = pure t') ∧
      expandInPlace ⟨1, 100, 100⟩ resolve t = throw (.inclusion (.tooDeep 1)) := by
  intro t resolve
  let a : Node := .element "mj-include" ⟨[("path", "b")]⟩ []
  let b : Node := .element "mj-spacer" .empty []
  have hasks {path : String} (hp : Text.isBlankText path = false) {nodes : List Node}
      (hn : includesAll nodes = [⟨[("path", path)]⟩]) : OnlyAsk nodes path := by
    refine ⟨by simp [hn], fun a ha => ?_⟩
    obtain rfl : a = ⟨[("path", path)]⟩ := by simpa [hn] using ha
    have hkind : Attributes.get? ⟨[("path", path)]⟩ "type" = none := rfl
    exact ⟨rfl, hp, by rw [hkind]; rfl⟩
  have ha (depth : Nat) : Serves ⟨depth, 100, 100⟩ resolve "a" (.fragment ⟨.empty, [.element "mj-body" .empty [a]]⟩) :=
    ⟨_, fun _ => rfl, (by decide : "<mj-include path=\"b\" />".length ≤ 100), rfl⟩
  have hb (depth : Nat) : Serves ⟨depth, 100, 100⟩ resolve "b" (.fragment ⟨.empty, [.element "mj-body" .empty [b]]⟩) :=
    ⟨_, fun _ => rfl, (by decide : "<mj-spacer />".length ≤ 100), rfl⟩
  have ht : OnlyAsk t.children "a" := hasks rfl rfl
  have hleads (depth : Nat) : Leads ⟨depth, 100, 100⟩ resolve "a" ["b"] :=
    .next (ha depth) (hasks rfl rfl) (.last (hb depth) rfl)
  exact ⟨ht, hleads 2, hleads 1,
    ((expandInPlace_stays_within_limits _).2 resolve t "a" ["b"] rfl ht (hleads 2) (by decide)).1 (by decide),
    ((expandInPlace_stays_within_limits _).2 resolve t "a" ["b"] rfl ht (hleads 1) (by decide)).2 (by decide)⟩

/-- A chain of one path, which is within the limit on the depth, is refused if its content is longer than the
limit on the size. -/
theorem expandInPlace_oversized_chain :
    let t : Template := ⟨.empty, [.element "mj-body" .empty [.element "mj-include" ⟨[("path", "a")]⟩ []]]⟩
    let resolve : Resolver Id := ofList [("a", "<mj-spacer />")]
    Limits.check ⟨1, 12, 100⟩ = .ok () ∧ ["a"].length ≤ 1 ∧
      (expandInPlace ⟨1, 12, 100⟩ resolve t).run = .error (.inclusion (.oversized "a" 13 12)) :=
  ⟨rfl, by decide, rfl⟩

end EmailMarkup.Include
