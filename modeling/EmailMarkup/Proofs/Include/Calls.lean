import EmailMarkup.Proofs.Include.Includes
/-!
# The calls of an expansion

`recorded` keeps the calls that are made to a resolver, with what it answers. A record is read against
the includes that it comes from: `Trace` says that every call is made for an include, that the calls
between it and the next one at its level are made for the includes of the content it was answered
with, and that each call knows how many includes are open around it and which one is the innermost.
Nothing is assumed of the resolver, which may keep a state and answer each call with new includes.
-/
namespace EmailMarkup.Include

/-- A call to a resolver, and what it was answered. -/
structure Call where
  path : String
  context : Context
  answer : Except Error String

/-- A resolver with a record of the calls made to it. -/
def recorded {m : Type → Type} [Monad m] (resolve : Resolver m) : Resolver (StateT (List Call) m) :=
  fun path context => ExceptT.mk do
    let answer ← StateT.lift (resolve path context).run
    modify (· ++ [⟨path, context, answer⟩])
    return answer

/-! ## Traces -/

/-- The includes that the answer to a call brings. -/
def Call.includes (limits : Limits) (c : Call) : List Attributes :=
  match c.context.kind, c.answer with
  | .markup, .ok content =>
    match readMarkup limits content with
    | .ok markup => includesAll markup.nodes
    | .error _ => []
  | _, _ => []

/-- The call is made for an include with attributes `a`, with the paths `chain` around it, the
innermost first. -/
structure Call.For (limits : Limits) (chain : List String) (a : Attributes) (c : Call) : Prop where
  path : a.get? "path" = some c.path
  notBlank : Text.isBlankText c.path = false
  new : c.path ∉ chain
  kind : Kind.parse? ((a.get? "type").getD "mjml") = some c.context.kind
  within : c.context.within = chain.head?
  depth : c.context.depth = chain.length
  shallow : chain.length < limits.includeDepth

/-- The calls made for includes, in turn, each with the calls for what it brings after it. All of them
if `done`, else those up to some point. -/
inductive Trace (limits : Limits) : (done : Bool) → (chain : List String) → List Attributes → List Call → Prop
  | nil (chain : List String) : Trace limits true chain [] []
  | stop (chain : List String) (includes : List Attributes) : Trace limits false chain includes []
  | next {done : Bool} {chain : List String} {a : Attributes} {c : Call} {rest : List Attributes}
      {inner log : List Call} (made : c.For limits chain a)
      (below : Trace limits true (c.path :: chain) (c.includes limits) inner)
      (after : Trace limits done chain rest log) : Trace limits done chain (a :: rest) (c :: (inner ++ log))
  | last {chain : List String} {a : Attributes} {c : Call} {rest : List Attributes} {inner : List Call}
      (made : c.For limits chain a) (below : Trace limits false (c.path :: chain) (c.includes limits) inner) :
      Trace limits false chain (a :: rest) (c :: inner)

namespace Trace

variable {limits : Limits} {done : Bool} {chain : List String} {includes more : List Attributes}
  {log log' : List Call}

theorem append (h : Trace limits true chain includes log) (h' : Trace limits done chain more log') :
    Trace limits done chain (includes ++ more) (log ++ log') := by
  generalize ht : true = d at h
  induction h with
  | nil => exact h'
  | stop => cases ht
  | next made below _ _ ih =>
    rw [List.cons_append, List.cons_append, List.append_assoc]
    exact .next made below (ih h' ht)
  | last => cases ht

theorem append_right (h : Trace limits false chain includes log) (more : List Attributes) :
    Trace limits false chain (includes ++ more) log := by
  generalize hf : false = d at h
  induction h with
  | nil => cases hf
  | stop => exact .stop _ _
  | next made below _ _ ih => exact .next made below (ih hf)
  | last made below _ => exact .last made below

/-- A call followed by the calls for what it brings. -/
theorem single {a : Attributes} {c : Call} (made : c.For limits chain a)
    (below : Trace limits done (c.path :: chain) (c.includes limits) log) :
    Trace limits done chain [a] (c :: log) := by
  cases done with
  | false => exact .last made below
  | true =>
    rw [← List.append_nil log]
    exact .next made below (.nil chain)

/-- What a context says about a call, wherever in the trace it is. -/
theorem context_eq (h : Trace limits done chain includes log) :
    ∀ c ∈ log, Text.isBlankText c.path = false ∧ c.context.depth < limits.includeDepth ∧
      (c.context.within = none ↔ c.context.depth = 0) := by
  have hcall {chain : List String} {a : Attributes} {c : Call} (made : c.For limits chain a) :
      Text.isBlankText c.path = false ∧ c.context.depth < limits.includeDepth ∧
        (c.context.within = none ↔ c.context.depth = 0) := by
    refine ⟨made.notBlank, made.depth ▸ made.shallow, ?_⟩
    rw [made.within, made.depth, List.head?_eq_none_iff, List.length_eq_zero_iff]
  induction h with
  | nil | stop => simp
  | next made _ _ ih ih' => exact List.forall_mem_cons.2 ⟨hcall made, List.forall_mem_append.2 ⟨ih, ih'⟩⟩
  | last made _ ih => exact List.forall_mem_cons.2 ⟨hcall made, ih⟩

end Trace

/-! ## Recording actions -/

variable {σ α β : Type}

/-- The calls that an action adds to the record are as `P` says, for what it returns. -/
def Records (P : Except Error α → List Call → Prop) (x : ExceptT Error (StateT (List Call) (StateM σ)) α) : Prop :=
  ∀ log s, ∃ r new s', x.run.run log s = ((r, log ++ new), s') ∧ P r new

namespace Records

theorem pure {P : Except Error α → List Call → Prop} {a : α} (h : P (.ok a) []) :
    Records (σ := σ) P (Pure.pure a) :=
  fun log s => ⟨.ok a, [], s, by rw [List.append_nil]; rfl, h⟩

theorem throw {P : Except Error α → List Call → Prop} {e : Error} (h : P (.error e) []) :
    Records (σ := σ) P (MonadExcept.throw e) :=
  fun log s => ⟨.error e, [], s, by rw [List.append_nil]; rfl, h⟩

theorem bind {P : Except Error α → List Call → Prop} {Q : Except Error β → List Call → Prop}
    {x : ExceptT Error (StateT (List Call) (StateM σ)) α}
    {f : α → ExceptT Error (StateT (List Call) (StateM σ)) β} (hx : Records P x)
    (herror : ∀ e new, P (.error e) new → Q (.error e) new)
    (hok : ∀ a new, P (.ok a) new → Records (fun r more => Q r (new ++ more)) (f a)) : Records Q (x >>= f) := by
  intro log s
  obtain ⟨r, new, s', hrun, hp⟩ := hx log s
  show ∃ r new s', (let p := x.run.run log s; ExceptT.bindCont f p.1.1 p.1.2 p.2) = ((r, log ++ new), s') ∧ Q r new
  rw [hrun]
  cases r with
  | error e => exact ⟨.error e, new, s', rfl, herror e new hp⟩
  | ok a =>
    obtain ⟨r, more, s'', hrun', hq⟩ := hok a new hp (log ++ new) s'
    exact ⟨r, new ++ more, s'', by rw [← List.append_assoc]; exact hrun', hq⟩

/-- A check comes first. -/
theorem lift_bind {Q : Except Error β → List Call → Prop} {x : Except Error α}
    {f : α → ExceptT Error (StateT (List Call) (StateM σ)) β} (herror : ∀ e, x = .error e → Q (.error e) [])
    (hok : ∀ a, x = .ok a → Records Q (f a)) : Records Q (liftM x >>= f) := by
  cases x with
  | error e => exact fun log s => ⟨.error e, [], s, by rw [List.append_nil]; rfl, herror e rfl⟩
  | ok a => exact hok a rfl

/-- One call to a recorded resolver. -/
theorem recorded (resolve : Resolver (StateM σ)) (path : String) (context : Context) :
    Records (fun r new => new = [⟨path, context, r⟩]) (recorded resolve path context) :=
  fun _ s => ⟨((resolve path context).run s).1, _, ((resolve path context).run s).2, rfl, rfl⟩

end Records

/-! ## The calls of an expansion -/

section

variable {limits : Limits} {chain : List String}
  {replace : String → Attributes → ExceptT Error (StateT (List Call) (StateM σ)) (List Node)}

/-- The calls of an action are those for the includes `includes`. -/
def Traces (limits : Limits) (chain : List String) (includes : List Attributes)
    (x : ExceptT Error (StateT (List Call) (StateM σ)) α) : Prop :=
  Records (fun r new => Trace limits r.isOk chain includes new) x

/-- Going on after the calls for some includes with those for others. -/
theorem Traces.bind {includes more : List Attributes} {x : ExceptT Error (StateT (List Call) (StateM σ)) α}
    {f : α → ExceptT Error (StateT (List Call) (StateM σ)) β} (hx : Traces limits chain includes x)
    (hf : ∀ a, Traces limits chain more (f a)) : Traces limits chain (includes ++ more) (x >>= f) := by
  refine Records.bind hx (fun _ _ h => h.append_right more) fun a new h => ?_
  intro log s
  obtain ⟨r, new', s', hrun, h'⟩ := hf a log s
  exact ⟨r, new', s', hrun, h.append h'⟩

theorem Traces.pure {a : α} : Traces (σ := σ) limits chain [] (pure a) := Records.pure (.nil chain)

/-- Building something from the result makes no more calls. -/
theorem Traces.bind_pure {includes : List Attributes} {x : ExceptT Error (StateT (List Call) (StateM σ)) α}
    (hx : Traces limits chain includes x) (f : α → β) : Traces limits chain includes (do return f (← x)) := by
  have h := Traces.bind hx fun a => Traces.pure (a := f a)
  rwa [List.append_nil] at h

mutual

theorem replaceIn_traces (h : ∀ parent a, Traces limits chain [a] (replace parent a)) (parent : String) :
    ∀ n, Traces limits chain (includesIn n) (replaceIn replace parent n)
  | .element tag a children => by
    rw [includesIn, replaceIn]
    split
    · exact h parent a
    · exact (replaceAll_traces h tag children).bind_pure _
  | .text _ | .cdata _ | .comment _ => .pure

/-- Replacing includes one after the other makes their calls one after the other. -/
theorem replaceAll_traces (h : ∀ parent a, Traces limits chain [a] (replace parent a)) (parent : String) :
    ∀ nodes, Traces limits chain (includesAll nodes) (replaceAll replace parent nodes)
  | [] => .pure
  | n :: rest => by
    rw [includesAll, replaceAll]
    exact (replaceIn_traces h parent n).bind fun _ => (replaceAll_traces h parent rest).bind_pure _

end

/-- Expanding included markup makes the calls for its nodes. -/
theorem expandMarkup_traces {expand : String → List Node → ExceptT Error (StateT (List Call) (StateM σ)) (List Node)}
    (h : ∀ parent nodes, Traces limits chain (includesAll nodes) (expand parent nodes)) (parent : String) (markup : Markup) :
    Traces limits chain (includesAll markup.nodes) (expandMarkup expand parent markup) := by
  cases markup with
  | document t => exact (h _ _).bind_pure _
  | fragment t => exact h _ _
  | raw text => exact .pure

/-- What an include becomes makes the calls for what its content brings. -/
theorem replacement_traces {expand : String → List Node → ExceptT Error (StateT (List Call) (StateM σ)) (List Node)}
    {path : String} (h : ∀ parent nodes, Traces limits (path :: chain) (includesAll nodes) (expand parent nodes)) (parent : String)
    (a : Attributes) (context : Context) (content : String) :
    Traces limits (path :: chain) (Call.includes limits ⟨path, context, .ok content⟩)
      (replacement limits expand parent a ⟨path, context⟩ content) := by
  unfold replacement Call.includes
  cases context.kind with
  | markup =>
    refine Records.lift_bind (fun e he => ?_) fun markup hm => ?_
    · exact .stop _ _
    · simp only [hm]
      exact expandMarkup_traces h parent markup
  | html | css | inlineCss => exact .pure

theorem request_eq_ok {a : Attributes} {r : Request} (h : request chain a = .ok r) (hs : chain.length < limits.includeDepth)
    (answer : Except Error String) : Call.For limits chain a ⟨r.path, r.context, answer⟩ := by
  unfold request at h
  split at h
  · cases h
  · rename_i path hpath
    rw [Option.filter_eq_some_iff] at hpath
    split at h
    · cases h
    · rename_i hnew
      extract_lets declared at h
      split at h
      · cases h
      · rename_i kind hkind
        cases h
        exact ⟨hpath.1, by simpa using hpath.2, by simpa using hnew, hkind, rfl, rfl, hs⟩

/-- The levels left and the includes around add up to the limit, so the calls stay below it. The
induction is on the levels. -/
theorem expandChildren_traces (resolve : Resolver (StateM σ)) (levels : Nat) (chain : List String)
    (hl : levels + chain.length = limits.includeDepth) (parent : String) (nodes : List Node) :
    Traces limits chain (includesAll nodes) (expandChildren limits (recorded resolve) levels chain parent nodes) := by
  induction levels generalizing chain parent nodes with
  | zero => exact replaceAll_traces (fun _ a => Records.throw (.stop chain [a])) parent nodes
  | succ levels ih =>
    refine replaceAll_traces (fun parent a => ?_) parent nodes
    unfold fetch
    simp only [bind_assoc, pure_bind]
    refine Records.lift_bind (fun _ _ => .stop _ _) fun r hr => ?_
    have made : ∀ answer, Call.For limits chain a ⟨r.path, r.context, answer⟩ := request_eq_ok hr (by omega)
    refine Records.bind (Records.recorded resolve r.path r.context) ?_ ?_
    · rintro e _ rfl
      exact .single (made _) (.stop _ _)
    · rintro content _ rfl
      refine Records.lift_bind (fun _ _ => .single (made _) (.stop _ _)) fun _ _ log s => ?_
      have hchain : levels + (r.path :: chain).length = limits.includeDepth := by
        rw [List.length_cons]
        omega
      obtain ⟨x, new, s', hrun, h⟩ := replacement_traces (ih _ hchain) parent a r.context content log s
      exact ⟨x, new, s', hrun, .single (made _) h⟩

theorem expand_traces (limits : Limits) (resolve : Resolver (StateM σ)) (t : Template) :
    Traces limits [] (includesAll t.children) (expand limits (recorded resolve) t) :=
  Records.lift_bind (fun _ _ => .stop _ _) fun _ _ =>
    (expandChildren_traces resolve limits.includeDepth [] rfl _ _).bind_pure _

end

end EmailMarkup.Include
