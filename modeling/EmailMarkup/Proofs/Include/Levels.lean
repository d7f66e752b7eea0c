import EmailMarkup.Proofs.Include.Document
import EmailMarkup.Proofs.Template.Levels
/-!
# How deep the elements of an expansion lie

The ceiling on nesting is a ceiling for each text that is read: the template, and the content of every include by itself.
What an include becomes lies as deep as the include, and its content may go down from there, less the root and the body
that are left out. So every level of includes may add the ceiling less two, and no more
(`expandInPlace_levels`); the bound is reached for every ceiling and every number of levels (`expandInPlace_tower`).
-/
namespace EmailMarkup.Include

open EmailMarkup.Template (levels levelsAll LiesAt)

/-! ## What an action returns, by its calls -/

/-- Fewer than `k` includes are open around an include of markup. -/
def Shallow (k : Nat) (log : List Call) : Prop := ∀ c ∈ log, c.context.kind = .markup → c.context.depth < k

theorem Shallow.mono {k : Nat} {log more : List Call} (h : Shallow k more) (hsub : log ⊆ more) : Shallow k log :=
  fun c hc => h c (hsub hc)

section

variable {σ α β : Type} {k : Nat} {P : α → Prop} {Q : β → Prop}

/-- The action keeps the calls recorded before, and what it returns has the property if the calls are shallow. -/
def Yields (k : Nat) (P : α → Prop) (x : ExceptT Error (StateT (List Call) (StateM σ)) α) : Prop :=
  ∀ log s a log' s', x.run.run log s = ((.ok a, log'), s') → log ⊆ log' ∧ (Shallow k log' → P a)

namespace Yields

theorem pure {a : α} (h : P a) : Yields (σ := σ) k P (Pure.pure a) := by
  intro log s b log' s' hrun
  cases hrun
  exact ⟨List.Subset.refl _, fun _ => h⟩

theorem throw (e : Error) : Yields (σ := σ) k P (MonadExcept.throw e) := nofun

theorem bind {x : ExceptT Error (StateT (List Call) (StateM σ)) α}
    {f : α → ExceptT Error (StateT (List Call) (StateM σ)) β} (hx : Yields k P x)
    (hf : ∀ a, Yields k (fun b => P a → Q b) (f a)) : Yields k Q (x >>= f) := by
  intro log s b log' s' hrun
  change (let p := x.run.run log s; ExceptT.bindCont f p.1.1 p.1.2 p.2) = ((.ok b, log'), s') at hrun
  rcases hx₁ : x.run.run log s with ⟨⟨_ | a, log₁⟩, s₁⟩
  · rw [hx₁] at hrun
    cases hrun
  · rw [hx₁] at hrun
    obtain ⟨hsub, ha⟩ := hx log s a log₁ s₁ hx₁
    obtain ⟨hsub', hb⟩ := hf a log₁ s₁ b log' s' hrun
    exact ⟨List.Subset.trans hsub hsub', fun hshallow => hb hshallow (ha (hshallow.mono hsub'))⟩

theorem mono {P' : α → Prop} {x : ExceptT Error (StateT (List Call) (StateM σ)) α} (hx : Yields k P x)
    (h : ∀ a, P a → P' a) : Yields k P' x := fun log s a log' s' hrun =>
  ⟨(hx log s a log' s' hrun).1, fun hshallow => h a ((hx log s a log' s' hrun).2 hshallow)⟩

/-- A check comes first. -/
theorem lift_bind {x : Except Error α} {f : α → ExceptT Error (StateT (List Call) (StateM σ)) β}
    (h : ∀ a, x = .ok a → Yields k Q (f a)) : Yields k Q (liftM x >>= f) := by
  cases x with
  | error e => exact nofun
  | ok a => exact h a rfl

/-- A call is recorded. -/
theorem recorded (resolve : Resolver (StateM σ)) (path : String) (context : Context) :
    Yields k (fun _ => context.kind = .markup → context.depth < k) (recorded resolve path context) := by
  intro log s content log' s' hrun
  obtain ⟨r, new, s₁, hrun', rfl⟩ := Records.recorded resolve path context log s
  rw [hrun'] at hrun
  cases hrun
  exact ⟨List.subset_append_left _ _, fun hshallow => hshallow _ (List.mem_append_right _ List.mem_cons_self)⟩

end Yields

end

/-! ## Levels of what includes become -/

section

variable {σ : Type} {limits : Limits} {k more : Nat}
  {replace : String → Attributes → ExceptT Error (StateT (List Call) (StateM σ)) (List Node)}
  {expand : String → List Node → ExceptT Error (StateT (List Call) (StateM σ)) (List Node)}

mutual

theorem replaceIn_levels (h : ∀ parent a, Yields k (levelsAll · ≤ more + 1) (replace parent a)) (parent : String) :
    ∀ n, Yields k (levelsAll · ≤ levels n + more) (replaceIn replace parent n)
  | .element tag a children => by
    rw [replaceIn, levels]
    split
    · exact (h parent a).mono fun out hout => by omega
    · refine (replaceAll_levels h tag children).bind fun out => .pure fun hout => ?_
      simp only [levelsAll, levels]
      omega
  | .text _ | .cdata _ | .comment _ => .pure (Nat.zero_le _)

/-- If each replacement has at most `more` levels below its first, so much is added to the whole. -/
theorem replaceAll_levels (h : ∀ parent a, Yields k (levelsAll · ≤ more + 1) (replace parent a)) (parent : String) :
    ∀ nodes, Yields k (levelsAll · ≤ levelsAll nodes + more) (replaceAll replace parent nodes)
  | [] => .pure (Nat.zero_le _)
  | n :: rest => by
    refine (replaceIn_levels h parent n).bind fun first => (replaceAll_levels h parent rest).bind fun others => .pure ?_
    intro hothers hfirst
    simp only [Template.levelsAll_append, levelsAll]
    omega

end

theorem levelsAll_block (tag : String) (a : Attributes) (content : String) : levelsAll [.block tag a content] = 1 := rfl

/-- A section lies one level below the root. -/
theorem levelsAll_section (parent : String) (t : Template) :
    levelsAll (((section? parent t).map Node.children).getD []) ≤ levelsAll t.children - 1 := by
  cases hs : section? parent t with
  | none => exact Nat.zero_le _
  | some n =>
    have hmem := Template.levels_le_of_mem (mem_of_section? hs)
    have hchildren := Template.levelsAll_children_le n
    simp only [Option.map_some, Option.getD_some]
    omega

theorem readMarkup_levels {content : String} {markup : Markup} (h : readMarkup limits content = .ok markup) :
    match markup with
    | .document t => levelsAll t.children ≤ limits.nestingDepth
    | .fragment t => levelsAll t.children ≤ limits.nestingDepth
    | .raw _ => True := by
  unfold readMarkup at h
  extract_lets trimmed at h
  split at h
  · split at h <;> cases h
    rename_i ht
    exact Template.ofChars_levels ht
  · split at h <;> cases h
    · rename_i ht
      exact Template.ofChars_levels ht
    · trivial

/-- Markup loses its root and its body in the place of an include. -/
theorem expandMarkup_levels (h : ∀ parent nodes, Yields k (levelsAll · ≤ levelsAll nodes + more) (expand parent nodes))
    (parent : String) {content : String} {markup : Markup} (hm : readMarkup limits content = .ok markup) :
    Yields k (levelsAll · ≤ more + (limits.nestingDepth - 2) + 1) (expandMarkup expand parent markup) := by
  have hceiling := readMarkup_levels hm
  cases markup with
  | document t =>
    refine (h Template.rootTag t.children).bind fun children => .pure fun hchildren => ?_
    have hsection := levelsAll_section parent { t with children }
    dsimp only at hsection hceiling
    omega
  | fragment t =>
    refine (h Template.bodyTag _).mono fun out hout => ?_
    have hbody := levelsAll_section Template.bodyTag t
    rw [show section? Template.bodyTag t = t.body? from rfl] at hbody
    dsimp only at hceiling
    omega
  | raw text => exact .pure (by rw [levelsAll_block]; omega)

/-- What an include becomes, by how many levels are left open for the includes in it. -/
theorem replacement_levels (h : ∀ parent nodes, Yields k (levelsAll · ≤ levelsAll nodes + more) (expand parent nodes))
    (parent : String) (a : Attributes) (r : Request) (content : String) :
    Yields k (levelsAll · ≤ (if r.context.kind = .markup then more + (limits.nestingDepth - 2) else 0) + 1)
      (replacement limits expand parent a r content) := by
  unfold replacement
  cases hkind : r.context.kind with
  | markup => exact .lift_bind fun markup hm => expandMarkup_levels h parent hm
  | html | css | inlineCss => exact .pure (Nat.le_refl _)

/-- Every level of includes that is left may add the ceiling less two. The induction is on the levels. -/
theorem expandChildren_levels (resolve : Resolver (StateM σ)) (left : Nat) (chain : List String) (parent : String)
    (nodes : List Node) : Yields k (levelsAll · ≤ levelsAll nodes + (k - chain.length) * (limits.nestingDepth - 2))
      (expandChildren limits (recorded resolve) left chain parent nodes) := by
  induction left generalizing chain parent nodes with
  | zero => exact replaceAll_levels (fun _ _ => .throw _) parent nodes
  | succ left ih =>
    refine replaceAll_levels (fun parent a => ?_) parent nodes
    unfold fetch
    simp only [bind_assoc, pure_bind]
    refine .lift_bind fun r hr => ?_
    have hroom : chain.length < Limits.includeDepth ⟨chain.length + 1, 0, 0⟩ := Nat.lt_succ_self _
    have hdepth : r.context.depth = chain.length := (request_eq_ok hr hroom (.ok "")).depth
    refine (Yields.recorded resolve r.path r.context).bind fun content => .lift_bind fun _ _ => ?_
    refine (replacement_levels (ih (r.path :: chain)) parent a r content).mono fun out hout hcall => ?_
    refine Nat.le_trans hout (Nat.add_le_add_right ?_ 1)
    split
    · rename_i hkind
      have hlt : chain.length < k := hdepth ▸ hcall hkind
      have hsucc : k - chain.length = k - (r.path :: chain).length + 1 := by
        rw [List.length_cons]
        omega
      refine Nat.le_of_eq ?_
      rw [hsucc, Nat.succ_mul]
    · exact Nat.zero_le _

theorem expand_levels (resolve : Resolver (StateM σ)) (t : Template) :
    Yields k (fun out : Template => levelsAll out.children ≤ levelsAll t.children + k * (limits.nestingDepth - 2))
      (Include.expand limits (recorded resolve) t) :=
  .lift_bind fun _ _ => (expandChildren_levels resolve limits.includeDepth [] _ _).bind fun _ => .pure id

end

/-! ## Towers -/

/-- Wrappers in wrappers, around nodes. -/
def tower (nodes : List Node) : Nat → List Node
  | 0 => nodes
  | n + 1 => [.element "mj-wrapper" .empty (tower nodes n)]

/-- The names of the contents that a tower is made of. -/
def storey (n : Nat) : String := String.ofList (List.replicate n 'a')

/-- The top of a content, with `n` contents to go: an include of the next one, or a wrapper. -/
def landing : Nat → Node
  | 0 => .element "mj-wrapper" .empty []
  | n + 1 => .element includeTag ⟨[("path", storey (n + 1))]⟩ []

/-- A template that is as deep as the ceiling `d` allows, with `n` contents to go. -/
def storeyTemplate (d n : Nat) : Template := ⟨.empty, [.element Template.bodyTag .empty (tower [landing n] (d - 2))]⟩

/-- The same with its includes replaced: what is in the body. -/
def raised (d : Nat) : Nat → List Node
  | 0 => tower [landing 0] (d - 2)
  | n + 1 => tower (raised d n) (d - 2)

/-- Serves the contents of a tower. -/
def ofTower {m : Type → Type} [Monad m] (d : Nat) : Resolver m := fun path _ =>
  return (storeyTemplate d (path.length - 1)).root.markup

section

variable {d n : Nat}

theorem length_storey (n : Nat) : (storey n).length = n := by simp [storey]

theorem levelsAll_tower (nodes : List Node) (n : Nat) : levelsAll (tower nodes n) = n + levelsAll nodes := by
  induction n with
  | zero => simp [tower]
  | succ n ih => simp [tower, levelsAll, levels, ih]; omega

theorem levelsAll_landing (n : Nat) : levelsAll [landing n] = 1 := by cases n <;> rfl

theorem levelsAll_raised (d n : Nat) : levelsAll (raised d n) = (n + 1) * (d - 2) + 1 := by
  induction n with
  | zero => rw [raised, levelsAll_tower, levelsAll_landing, Nat.one_mul]
  | succ n ih =>
    rw [raised, levelsAll_tower, ih, Nat.succ_mul (n + 1)]
    omega

/-- A landing asks for the next content. -/
theorem asks_storey (n : Nat) : Asks (storey (n + 1)) ⟨[("path", storey (n + 1))]⟩ := by
  have hkind : Attributes.get? ⟨[("path", storey (n + 1))]⟩ "type" = none := rfl
  have hblank : Text.isBlank 'a' = false := by decide
  refine ⟨rfl, ?_, by rw [hkind]; rfl⟩
  simp [Text.isBlankText, storey, List.replicate_succ, hblank]

theorem isWritable_landing (n : Nat) : Template.isWritable (landing n) = true := by
  cases n with
  | zero => rfl
  | succ n =>
    have hname : Template.isName includeTag = true := by decide +kernel
    have hpath : Template.isName "path" = true := by decide +kernel
    have hending : Template.isEndingTag includeTag = false := by decide +kernel
    simp [landing, storey, Template.isWritable, Template.areWritableAttributes, Template.areWritable, hname, hpath, hending]

theorem areWritable_tower (n k : Nat) : Template.areWritable (tower [landing n] k) = true := by
  have hname : Template.isName "mj-wrapper" = true := by decide +kernel
  have hending : Template.isEndingTag "mj-wrapper" = false := by decide +kernel
  have hempty : Template.areWritableAttributes .empty = true := rfl
  induction k with
  | zero => simp [tower, Template.areWritable, isWritable_landing]
  | succ k ih => simp [tower, Template.areWritable, Template.isWritable, hname, hending, hempty, ih]

theorem isWritable_storeyTemplate (d n : Nat) : Template.isWritable (storeyTemplate d n).root = true := by
  have hroot : Template.isName Template.rootTag = true := by decide +kernel
  have hbody : Template.isName Template.bodyTag = true := by decide +kernel
  have hending : Template.isEndingTag Template.rootTag = false ∧ Template.isEndingTag Template.bodyTag = false := by
    decide +kernel
  have hempty : Template.areWritableAttributes .empty = true := rfl
  simp [storeyTemplate, Template.root, Template.isWritable, Template.areWritable, hroot, hbody, hending, hempty,
    areWritable_tower]

theorem levelsAll_storeyTemplate (hd : 2 ≤ d) (n : Nat) : levelsAll (storeyTemplate d n).children = d := by
  have htower : levelsAll (tower [landing n] (d - 2)) = d - 2 + 1 := by rw [levelsAll_tower, levelsAll_landing]
  simp only [storeyTemplate, levelsAll, levels, htower]
  omega

end

section

variable {m : Type → Type} [Monad m] {limits : Limits} {d : Nat}

theorem serves_storey (hd : 2 ≤ d) (hlimit : limits.nestingDepth = d) (n : Nat)
    (hsize : (storeyTemplate d n).root.markup.length ≤ limits.inputSize) :
    Serves limits (ofTower d : Resolver m) (storey (n + 1)) (.document (storeyTemplate d n)) := by
  refine ⟨(storeyTemplate d n).root.markup, fun context => ?_, hsize, ?_⟩
  · rw [ofTower, length_storey, Nat.add_sub_cancel]
  · refine readMarkup_markup (isWritable_storeyTemplate d n) ?_
    exact Nat.le_of_eq ((levelsAll_storeyTemplate hd n).trans hlimit.symm)

variable [LawfulMonad m]

/-- Through the wrappers of a tower. -/
theorem expandChildren_tower {left : Nat} {chain : List String} {nodes out : List Node}
    (h : ∀ parent, expandChildren limits (ofTower d : Resolver m) left chain parent nodes = pure out) (k : Nat)
    (parent : String) :
    expandChildren limits (ofTower d : Resolver m) left chain parent (tower nodes k) = pure (tower out k) := by
  have htag : "mj-wrapper" ≠ includeTag := by decide
  induction k generalizing parent with
  | zero => exact h parent
  | succ k ih => rw [tower, expandChildren_element htag, ih, tower, pure_bind]

/-- The landing becomes all that is above it. -/
theorem expandChildren_landing {left n : Nat} {chain : List String} (hchain : ∀ path ∈ chain, n + 1 < path.length)
    (hserves : Serves limits (ofTower d : Resolver m) (storey (n + 1)) (.document (storeyTemplate d n)))
    (hinner : expandChildren limits (ofTower d : Resolver m) left (storey (n + 1) :: chain) Template.rootTag
      (storeyTemplate d n).children = pure [.element Template.bodyTag .empty (raised d n)]) (parent : String) :
    expandChildren limits (ofTower d : Resolver m) (left + 1) chain parent [landing (n + 1)] = pure (raised d n) := by
  have hnew : storey (n + 1) ∉ chain := fun hm => by
    have hlt := hchain _ hm
    rw [length_storey] at hlt
    exact Nat.lt_irrefl _ hlt
  have hbody : section? parent ⟨.empty, [.element Template.bodyTag .empty (raised d n)]⟩ =
      some (.element Template.bodyTag .empty (raised d n)) := by
    unfold section?
    split <;> rfl
  rw [expandChildren, replaceAll, landing, replaceIn, if_pos rfl, replace_of_serves (asks_storey n) hnew hserves,
    expandMarkup, hinner]
  simp [storeyTemplate, hbody, Node.children, replaceAll]

/-- A storey is raised with all that are above it. The induction is on the contents to go. -/
theorem expandChildren_storey (hd : 2 ≤ d) (hlimit : limits.nestingDepth = d) {n : Nat}
    (hsize : ∀ k < n, (storeyTemplate d k).root.markup.length ≤ limits.inputSize) {left : Nat} (hleft : n ≤ left)
    {chain : List String} (hchain : ∀ path ∈ chain, n < path.length) (parent : String) :
    expandChildren limits (ofTower d : Resolver m) left chain parent (storeyTemplate d n).children =
      pure [.element Template.bodyTag .empty (raised d n)] := by
  have hbody : Template.bodyTag ≠ includeTag := by decide
  induction n generalizing left chain parent with
  | zero =>
    have hlanding (parent : String) :
        expandChildren limits (ofTower d : Resolver m) left chain parent [landing 0] = pure [landing 0] :=
      expandChildren_plain (by decide) left chain parent
    rw [storeyTemplate, expandChildren_element hbody, expandChildren_tower hlanding, pure_bind, raised]
  | succ n ih =>
    obtain ⟨left, rfl⟩ := Nat.exists_eq_add_one_of_ne_zero (by omega : left ≠ 0)
    have hchain' : ∀ path ∈ storey (n + 1) :: chain, n < path.length := by
      refine List.forall_mem_cons.2 ⟨?_, fun path hm => Nat.lt_of_succ_lt (hchain path hm)⟩
      rw [length_storey]
      exact Nat.lt_succ_self n
    have hinner := ih (fun k hk => hsize k (Nat.lt_succ_of_lt hk)) (Nat.le_of_succ_le_succ hleft) hchain' Template.rootTag
    have hserves : Serves limits (ofTower d : Resolver m) (storey (n + 1)) (.document (storeyTemplate d n)) :=
      serves_storey hd hlimit n (hsize n (Nat.lt_succ_self n))
    rw [storeyTemplate, expandChildren_element hbody,
      expandChildren_tower (expandChildren_landing hchain hserves hinner), pure_bind, raised]

end

/-- Some size is enough for finitely many contents. -/
theorem exists_size (d k : Nat) : ∃ size, 0 < size ∧ ∀ n < k, (storeyTemplate d n).root.markup.length ≤ size := by
  induction k with
  | zero => exact ⟨1, Nat.one_pos, nofun⟩
  | succ k ih =>
    obtain ⟨size, hpos, hsize⟩ := ih
    refine ⟨size + (storeyTemplate d k).root.markup.length, Nat.add_pos_left hpos _, fun n hn => ?_⟩
    rcases Nat.lt_succ_iff_lt_or_eq.1 hn with hlt | rfl
    · exact Nat.le_add_right_of_le (hsize n hlt)
    · exact Nat.le_add_left _ _

/-- The bound of an expansion is reached, for every ceiling and every number of levels of includes. -/
theorem expandInPlace_tower {m : Type → Type} [Monad m] [LawfulMonad m] {d k : Nat} (hd : 2 ≤ d) (hk : 1 ≤ k) :
    ∃ limits, limits.nestingDepth = d ∧ limits.includeDepth = k ∧
      Template.parse d (storeyTemplate d k).root.markup = .ok (storeyTemplate d k) ∧
      ∃ out, expandInPlace limits (ofTower d : Resolver m) (storeyTemplate d k) = pure out ∧
        ∃ tag, LiesAt tag (d + k * (d - 2)) out.children := by
  obtain ⟨size, hpos, hsize⟩ := exists_size d k
  have hcheck : Limits.check ⟨k, size, d⟩ = .ok () := by
    have hk' : k ≠ 0 := by omega
    have hd' : d ≠ 0 := by omega
    have hsize' : size ≠ 0 := by omega
    simp [Limits.check, hk', hd', hsize']
  have hparse : Template.parse d (storeyTemplate d k).root.markup = .ok (storeyTemplate d k) :=
    Template.ofChars_markup (isWritable_storeyTemplate d k) (Nat.le_of_eq (levelsAll_storeyTemplate hd k))
  have hexpand := @expandChildren_storey m _ ⟨k, size, d⟩ d _ hd rfl k hsize k (Nat.le_refl k) [] nofun Template.rootTag
  refine ⟨⟨k, size, d⟩, rfl, rfl, hparse, ⟨.empty, [.element Template.bodyTag .empty (raised d k)]⟩, ?_, ?_⟩
  · rw [expandInPlace_eq, expand, hcheck, lift_ok_bind, hexpand, pure_bind]
    rfl
  · have hlevels : levelsAll [.element Template.bodyTag .empty (raised d k)] = d + k * (d - 2) := by
      have hraised := levelsAll_raised d k
      rw [Nat.succ_mul] at hraised
      simp only [levelsAll, levels]
      omega
    rw [← hlevels]
    exact Template.exists_liesAt_levelsAll _ (by rw [hlevels]; omega)

/-! ## The ceiling of an expansion -/

/-- The elements of a template that was read with a ceiling keep within it. After an expansion, with fewer than `k`
includes of markup open at any time, they lie at most `k` times the ceiling for included markup, less two, below it; and
fewer includes are open than the limit on them. -/
theorem expandInPlace_levels {σ : Type} {limits : Limits} {resolve : Resolver (StateM σ)} {maxDepth : Nat} {source : String}
    {t out : Template} {log : List Call} {s s' : σ} (hparse : Template.parse maxDepth source = .ok t)
    (hrun : (expandInPlace limits (recorded resolve) t).run.run [] s = ((.ok out, log), s')) :
    (∀ tag level, LiesAt tag level t.children → level ≤ maxDepth) ∧
      (∀ k, Shallow k log → ∀ tag level, LiesAt tag level out.children → level ≤ maxDepth + k * (limits.nestingDepth - 2)) ∧
      Shallow limits.includeDepth log := by
  have hceiling : levelsAll t.children ≤ maxDepth := Template.ofChars_levels hparse
  rw [expandInPlace_eq] at hrun
  refine ⟨Template.levelsAll_le_iff.1 hceiling, fun k hshallow => ?_, fun c hc _ => ?_⟩
  · have hlevels := (expand_levels resolve t [] s out log s' hrun).2 hshallow
    exact Template.levelsAll_le_iff.1 (Nat.le_trans hlevels (Nat.add_le_add_right hceiling _))
  · obtain ⟨r, new, s₁, hrun', htrace⟩ := expand_traces limits resolve t [] s
    rw [hrun'] at hrun
    cases hrun
    exact (htrace.context_eq c hc).2.1

def deepening : Template :=
  ⟨.empty, [.element Template.bodyTag .empty [.element "mj-section" .empty [.element includeTag ⟨[("path", "a")]⟩ []]]]⟩

def column : String := "<mj-column><mj-text>x</mj-text></mj-column>"

/-- The run of the expansion of `deepening` with a ceiling of three, with its calls. -/
def deepened : (Except Error Template × List Call) × Unit :=
  (expandInPlace ⟨50, 1000, 3⟩ (recorded (ofList [("a", column)] : Resolver (StateM Unit))) deepening).run.run [] ()

theorem expandInPlace_levels_column : ∃ out log, deepened = ((.ok out, log), ()) ∧
      Template.parse 3 deepening.root.markup = .ok deepening ∧ Shallow 1 log ∧
      ∀ tag level, LiesAt tag level out.children → level ≤ 4 := by
  have hparse : Template.parse 3 deepening.root.markup = .ok deepening :=
    Template.ofChars_markup (by decide +kernel) (by decide +kernel)
  have hok : deepened.1.1.isOk = true := by decide +kernel
  have hdepth : deepened.1.2.all (fun c => decide (c.context.depth < 1)) = true := by decide +kernel
  rcases hr : deepened with ⟨⟨_ | out, log⟩, u⟩
  · rw [hr] at hok
    cases hok
  · rw [hr] at hdepth
    have hlog : Shallow 1 log := fun c hc _ => of_decide_eq_true (List.all_eq_true.1 hdepth c hc)
    rw [deepened] at hr
    exact ⟨out, log, rfl, hparse, hlog, (expandInPlace_levels hparse hr).2.1 1 hlog⟩

/-- With a ceiling of three, an expansion leaves an element at the fourth level. -/
theorem expandInPlace_above_ceiling :
    Template.parse 3 deepening.root.markup = .ok deepening ∧ deepened.1.1.toOption.map (·.root.markup) =
      some "<mjml><mj-body><mj-section><mj-column><mj-text>x</mj-text></mj-column></mj-section></mj-body></mjml>" ∧
    deepened.1.1.toOption.map (levelsAll ·.children) = some 4 := by
  refine ⟨Template.ofChars_markup (by decide +kernel) (by decide +kernel), ?_, ?_⟩ <;> decide +kernel

end EmailMarkup.Include
