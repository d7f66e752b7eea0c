import EmailMarkup.Include.Cache
import Mathlib.Data.List.Nodup
/-!
# What a cache answers

A cache in use is asked, told to forget a path, and cleared, in any order. The resolver behind it and the clock depend
on a world of their own, in which both may answer differently each time and the resolver may fail. A session keeps the
history of all that happens: readings of the clock, answers of the resolver, and what is forgotten.

`Stands` says what a history knows about a key: the latest content the resolver answered for it, if nothing has
displaced that since. Every entry of the cache stands or is too old for good (`Session.Coherent`). One step keeps this
(`Session.Coherent.step`), whatever is dropped to make room, so every run does.

The clock has a last time. An answer whose end would be past it is not stored, and the question ends without an answer
(`RunsOut`). An older entry for its key may then stay in the cache; it is too old, and stays so unless the clock goes
back.
-/
namespace EmailMarkup.Include

/-! ## Sessions -/

/-- What can happen while a cache is in use. -/
inductive CacheEvent where
  /-- The clock was read. -/
  | time (t : Nat)
  /-- The resolver was asked. -/
  | answer (key : CacheKey) (result : Except Error String)
  | forget (path : String)
  | clear
  deriving DecidableEq

/-- Whether after the event an earlier content for the key does not count any more. -/
def CacheEvent.Displaces (key : CacheKey) : CacheEvent → Prop
  | answer key' (.ok _) => key' = key
  | forget path => path = key.path
  | clear => True
  | time _ | answer _ (.error _) => False

/-- The resolver answered `content` for the key, and the answer was to be stored at time `t`. The clock is read twice
then: for making room, and for the age of the entry. -/
def Answered (history : List CacheEvent) (key : CacheKey) (content : String) (t : Nat) : Prop :=
  ∃ before room after, history = before ++ .answer key (.ok content) :: .time room :: .time t :: after

/-- `content` is what the resolver answered last for the key, it was to be stored at time `t`, and nothing has displaced
it since. -/
def Stands (history : List CacheEvent) (key : CacheKey) (content : String) (t : Nat) : Prop :=
  ∃ before room after, history = before ++ .answer key (.ok content) :: .time room :: .time t :: after ∧
    ∀ e ∈ after, ¬e.Displaces key

/-- The reading of the clock, if the event is one. -/
def CacheEvent.time? : CacheEvent → Option Nat
  | time t => some t
  | _ => none

/-- The clock did not go back. -/
def Chronological (history : List CacheEvent) : Prop := (history.filterMap CacheEvent.time?).Pairwise (· ≤ ·)

/-- The resolver answers, and the end of the answer would be past the last time of the clock. -/
def RunsOut (last lifetime : Nat) (key : CacheKey) (new : List CacheEvent) : Prop :=
  ∃ now content room t, new = [.time now, .answer key (.ok content), .time room, .time t] ∧ last < t + lifetime

/-- A cache in use, the world around it, and what has happened so far. -/
structure Session (σ : Type) where
  cache : Cache
  world : σ
  history : List CacheEvent := []

inductive CacheStep where
  | ask (path : String) (context : Context)
  | forget (path : String)
  | clear

variable {σ : Type}

namespace Session

def afterReading (clock : StateM σ Nat) (s : Session σ) : Session σ :=
  { s with world := (clock.run s.world).2, history := s.history ++ [.time (clock.run s.world).1] }

/-- The cache of a session, with a clock of the world around it whose last time is `last`. -/
def store (last : Nat) (clock : StateM σ Nat) : CacheStore (ExceptT Overflow (StateM (Session σ))) where
  now := ExceptT.mk fun s => (.ok (clock.run s.world).1, s.afterReading clock)
  later now lifetime := ExceptT.mk fun s => (addTime last now lifetime, s)
  load := ExceptT.mk fun s => (.ok s.cache, s)
  save c := ExceptT.mk fun s => (.ok (), { s with cache := c })

/-- A resolver of the world around a session, which is noted in the history each time it is asked. -/
def noted (resolve : Resolver (StateM σ)) : Resolver (ExceptT Overflow (StateM (Session σ))) := fun path context =>
  ExceptT.mk (ExceptT.mk fun s =>
    let asked := (resolve path context).run.run s.world
    (.ok asked.1, { s with world := asked.2, history := s.history ++ [.answer (.of path context) asked.1] }))

/-- Asks the cache, and through it the resolver. -/
def ask (last : Nat) (clock : StateM σ Nat) (resolve : Resolver (StateM σ)) (s : Session σ) (path : String)
    (context : Context) : Except Overflow (Except Error String) × Session σ :=
  (cached (store last clock) (noted resolve) path context).run.run.run s

def step (last : Nat) (clock : StateM σ Nat) (resolve : Resolver (StateM σ)) (s : Session σ) : CacheStep → Session σ
  | .ask path context => (s.ask last clock resolve path context).2
  | .forget path => { s with cache := s.cache.forget path, history := s.history ++ [.forget path] }
  | .clear => { s with cache := s.cache.clear, history := s.history ++ [.clear] }

def run (last : Nat) (clock : StateM σ Nat) (resolve : Resolver (StateM σ)) (s : Session σ) (steps : List CacheStep) :
    Session σ :=
  steps.foldl (step last clock resolve) s

end Session

/-! ## The entries of a cache -/

theorem Cache.find?_eq_some {c : Cache} {now : Nat} {key : CacheKey} {content : String}
    (h : c.find? now key = some content) :
    ∃ e ∈ c.entries, e.key = key ∧ e.content = content ∧ now ≤ e.expires := by
  obtain ⟨e, he, hcontent⟩ := Option.map_eq_some_iff.1 h
  obtain ⟨hfind, hlive⟩ := Option.filter_eq_some_iff.1 he
  have hkey := List.find?_some hfind
  refine ⟨e, List.mem_of_find?_eq_some hfind, by simpa using hkey, hcontent, ?_⟩
  simpa [CacheEntry.isExpired] using hlive

/-- Making room drops entries and adds none. -/
theorem Cache.entries_makeRoom_sublist (c : Cache) (now : Nat) : (c.makeRoom now).entries.Sublist c.entries := by
  unfold makeRoom
  split
  · exact List.Sublist.refl _
  · dsimp only
    split
    · exact List.filter_sublist
    · exact List.filter_sublist.trans List.filter_sublist

theorem Cache.lifetime_makeRoom (c : Cache) (now : Nat) : (c.makeRoom now).lifetime = c.lifetime := by
  unfold Cache.makeRoom
  split
  · rfl
  · dsimp only
    split <;> rfl

/-- No key has two entries. -/
def Cache.Keyed (c : Cache) : Prop := (c.entries.map CacheEntry.key).Nodup

namespace Cache.Keyed

variable {c : Cache}

theorem of_sublist (h : c.Keyed) {c' : Cache} (hsub : c'.entries.Sublist c.entries) : c'.Keyed :=
  h.sublist (hsub.map _)

theorem insert (h : c.Keyed) (key : CacheKey) (content : String) (expires : Nat) : (c.insert key content expires).Keyed := by
  have hkept : ((c.entries.filter fun e => e.key != key).map CacheEntry.key).Nodup :=
    h.sublist (List.filter_sublist.map _)
  show ((c.entries.filter _ ++ [_]).map CacheEntry.key).Nodup
  rw [List.map_append, List.nodup_append]
  refine ⟨hkept, by simp, ?_⟩
  intro a ha b hb
  obtain ⟨e, he, rfl⟩ := List.mem_map.1 ha
  obtain rfl : b = key := by simpa using hb
  simpa using (List.mem_filter.1 he).2

/-- What the cache does not remember has no entry that is not too old. -/
theorem expired_of_find? (h : c.Keyed) {now : Nat} {key : CacheKey} (hfind : c.find? now key = none) {e : CacheEntry}
    (he : e ∈ c.entries) (hkey : e.key = key) : e.expires < now := by
  obtain ⟨f, hf⟩ : ∃ f, c.entries.find? (fun f => f.key == key) = some f :=
    Option.isSome_iff_exists.1 (List.find?_isSome.2 ⟨e, he, by simpa using hkey⟩)
  have hfkey : f.key = key := by simpa using List.find?_some hf
  obtain rfl : e = f := List.inj_on_of_nodup_map h he (List.mem_of_find?_eq_some hf) (hkey.trans hfkey.symm)
  rw [find?, hf] at hfind
  simpa [CacheEntry.isExpired, Option.filter] using hfind

end Cache.Keyed

/-! ## One question -/

namespace Session

variable {last : Nat} {clock : StateM σ Nat} {resolve : Resolver (StateM σ)}

theorem ask_eq (s : Session σ) (path : String) (context : Context) : s.ask last clock resolve path context =
    match s.cache.find? (clock.run s.world).1 (.of path context) with
    | some content => (.ok (.ok content), s.afterReading clock)
    | none => (remembering (store last clock) (noted resolve) path context).run.run.run (s.afterReading clock) := by
  have hrun : s.ask last clock resolve path context =
      (show ExceptT Error (ExceptT Overflow (StateM (Session σ))) String from
        match s.cache.find? (clock.run s.world).1 (.of path context) with
        | some content => pure content
        | none => remembering (store last clock) (noted resolve) path context).run.run.run (s.afterReading clock) := rfl
  rw [hrun]
  cases s.cache.find? (clock.run s.world).1 (.of path context) <;> rfl

theorem storeAnswer_eq (s : Session σ) (key : CacheKey) (content : String) :
    (storeAnswer (store last clock) key content).run.run s =
      let roomy := s.cache.makeRoom (clock.run s.world).1
      let s := s.afterReading clock
      let t := (clock.run s.world).1
      let s := s.afterReading clock
      match addTime last t roomy.lifetime with
      | .error o => (.error o, { s with cache := roomy })
      | .ok expires => (.ok (), { s with cache := roomy.insert key content expires }) := by
  have hrun : (storeAnswer (store last clock) key content).run.run s =
      (show ExceptT Overflow (StateM (Session σ)) Unit from
        ExceptT.bindCont (fun expires => (store last clock).save
            ((s.cache.makeRoom (clock.run s.world).1).insert key content expires))
          (addTime last (clock.run (s.afterReading clock).world).1 (s.cache.makeRoom (clock.run s.world).1).lifetime)).run
        { (s.afterReading clock).afterReading clock with cache := s.cache.makeRoom (clock.run s.world).1 } := rfl
  rw [hrun]
  dsimp only
  cases addTime last (clock.run (s.afterReading clock).world).1 (s.cache.makeRoom (clock.run s.world).1).lifetime <;> rfl

/-- An answer is returned if it is stored. -/
theorem run_then_return (stored : ExceptT Overflow (StateM (Session σ)) Unit) (content : String) (s : Session σ) :
    (do
      (stored : ExceptT Overflow (StateM (Session σ)) Unit)
      return content : ExceptT Error (ExceptT Overflow (StateM (Session σ))) String).run.run.run s =
      ((stored.run.run s).1.map fun _ => .ok content, (stored.run.run s).2) := by
  simp
  rcases stored.run.run s with ⟨_ | _, s'⟩ <;> rfl

theorem remembering_eq (s : Session σ) (path : String) (context : Context) :
    (remembering (store last clock) (noted resolve) path context).run.run.run s =
      let asked := (resolve path context).run.run s.world
      let s := { s with world := asked.2, history := s.history ++ [.answer (.of path context) asked.1] }
      match asked.1 with
      | .error e => (.ok (.error e), s)
      | .ok content =>
        let stored := (storeAnswer (store last clock) (.of path context) content).run.run s
        (stored.1.map fun _ => .ok content, stored.2) := by
  have hnoted : (noted resolve path context).run.run.run s = (.ok ((resolve path context).run.run s.world).1, _) := rfl
  rw [remembering, ExceptT.run_bind, ExceptT.run_bind, StateT.run_bind, hnoted]
  dsimp only
  cases ((resolve path context).run.run s.world).1 with
  | error e => rfl
  | ok content => exact run_then_return _ content _

/-- What can come of a question: the cache answers, or the resolver fails, or its content is stored, or it cannot be
stored. -/
theorem ask_cases (last : Nat) (clock : StateM σ Nat) (resolve : Resolver (StateM σ)) (s : Session σ) (path : String)
    (context : Context) : ∃ now world,
      (∃ content, s.cache.find? now (.of path context) = some content ∧
        s.ask last clock resolve path context = (.ok (.ok content), ⟨s.cache, world, s.history ++ [.time now]⟩)) ∨
      (∃ w e, ((resolve path context).run.run w).1 = .error e ∧
        s.ask last clock resolve path context =
          (.ok (.error e), ⟨s.cache, world, s.history ++ [.time now, .answer (.of path context) (.error e)]⟩)) ∨
      (∃ w content room t, ((resolve path context).run.run w).1 = .ok content ∧
        s.cache.find? now (.of path context) = none ∧ t + s.cache.lifetime ≤ last ∧
        s.ask last clock resolve path context =
          (.ok (.ok content), ⟨(s.cache.makeRoom room).insert (.of path context) content (t + s.cache.lifetime), world,
            s.history ++ [.time now, .answer (.of path context) (.ok content), .time room, .time t]⟩)) ∨
      (∃ w content room t, ((resolve path context).run.run w).1 = .ok content ∧
        s.cache.find? now (.of path context) = none ∧ last < t + s.cache.lifetime ∧
        s.ask last clock resolve path context =
          (.error ⟨t, s.cache.lifetime⟩, ⟨s.cache.makeRoom room, world,
            s.history ++ [.time now, .answer (.of path context) (.ok content), .time room, .time t]⟩)) := by
  refine ⟨(clock.run s.world).1, (s.ask last clock resolve path context).2.world, ?_⟩
  rw [ask_eq]
  cases hfind : s.cache.find? (clock.run s.world).1 (.of path context) with
  | some content => exact .inl ⟨content, rfl, rfl⟩
  | none =>
    refine .inr ?_
    dsimp only
    rw [remembering_eq]
    dsimp only
    cases hasked : ((resolve path context).run.run (s.afterReading clock).world).1 with
    | error e => exact .inl ⟨_, e, hasked, by simp [afterReading]⟩
    | ok content =>
      refine .inr ?_
      simp only [storeAnswer_eq, addTime, afterReading, Cache.lifetime_makeRoom, List.append_assoc, List.cons_append,
        List.nil_append]
      split
      · rename_i hadd
        split at hadd
        · cases hadd
        · rename_i hpast
          obtain rfl := Except.error.inj hadd
          exact .inr ⟨_, content, _, _, hasked, trivial, Nat.lt_of_not_le hpast, rfl⟩
      · rename_i hadd
        split at hadd
        · rename_i hwithin
          obtain rfl := Except.ok.inj hadd
          exact .inl ⟨_, content, _, _, hasked, trivial, hwithin, rfl⟩
        · cases hadd

end Session

/-! ## Entries that stand -/

theorem Answered.append {history new : List CacheEvent} {key : CacheKey} {content : String} {t : Nat}
    (h : Answered history key content t) : Answered (history ++ new) key content t := by
  obtain ⟨before, room, after, rfl⟩ := h
  exact ⟨before, room, after ++ new, by simp⟩

theorem Answered.mem {history : List CacheEvent} {key : CacheKey} {content : String} {t : Nat}
    (h : Answered history key content t) : .answer key (.ok content) ∈ history := by
  obtain ⟨before, room, after, rfl⟩ := h
  simp

theorem Stands.append {history new : List CacheEvent} {key : CacheKey} {content : String} {t : Nat}
    (h : Stands history key content t) (hnew : ∀ e ∈ new, ¬e.Displaces key) : Stands (history ++ new) key content t := by
  obtain ⟨before, room, after, rfl, hafter⟩ := h
  exact ⟨before, room, after ++ new, by simp, List.forall_mem_append.2 ⟨hafter, hnew⟩⟩

/-- The clock has shown a time that is past the end of an entry. -/
def IsPast (history : List CacheEvent) (expires : Nat) : Prop := ∃ now, CacheEvent.time now ∈ history ∧ expires < now

theorem IsPast.append {history new : List CacheEvent} {expires : Nat} (h : IsPast history expires) :
    IsPast (history ++ new) expires := by
  obtain ⟨now, hmem, hlt⟩ := h
  exact ⟨now, List.mem_append_left _ hmem, hlt⟩

/-- Once past, an end stays past unless the clock goes back. -/
theorem IsPast.lt {history : List CacheEvent} {expires now : Nat} (h : IsPast history expires)
    (hchron : Chronological (history ++ [.time now])) : expires < now := by
  obtain ⟨t, hmem, hlt⟩ := h
  have hsplit : (history ++ [CacheEvent.time now]).filterMap CacheEvent.time? = history.filterMap CacheEvent.time? ++ [now] := by
    rw [List.filterMap_append]
    rfl
  rw [Chronological, hsplit, List.pairwise_append] at hchron
  have ht : t ∈ history.filterMap CacheEvent.time? := List.mem_filterMap.2 ⟨_, hmem, rfl⟩
  exact Nat.lt_of_lt_of_le hlt (hchron.2.2 t ht now List.mem_cons_self)

/-- Every entry is what the resolver answered for its key at some time, and may be used for as long as the cache keeps
an answer. It stands, or its end is past. -/
structure Session.Coherent (last lifetime : Nat) (s : Session σ) : Prop where
  lifetime_eq : s.cache.lifetime = lifetime
  keyed : s.cache.Keyed
  stands : ∀ e ∈ s.cache.entries, ∃ t, e.expires = t + lifetime ∧ t + lifetime ≤ last ∧
    Answered s.history e.key e.content t ∧ (Stands s.history e.key e.content t ∨ IsPast s.history e.expires)

namespace Session.Coherent

variable {last lifetime : Nat} {s : Session σ}

/-- Entries may be dropped, if those that stay are not displaced before they are past. -/
theorem drop (h : s.Coherent last lifetime) {cache : Cache} (world : σ) {new : List CacheEvent}
    (hlifetime : cache.lifetime = s.cache.lifetime) (hsub : cache.entries.Sublist s.cache.entries)
    (hnew : ∀ e ∈ cache.entries, (∀ event ∈ new, ¬event.Displaces e.key) ∨ IsPast (s.history ++ new) e.expires) :
    Coherent last lifetime ⟨cache, world, s.history ++ new⟩ where
  lifetime_eq := hlifetime.trans h.lifetime_eq
  keyed := h.keyed.of_sublist hsub
  stands e he := by
    obtain ⟨t, hexpires, hlast, hanswered, hstands⟩ := h.stands e (hsub.subset he)
    refine ⟨t, hexpires, hlast, hanswered.append, ?_⟩
    rcases hstands with hstands | hpast
    · exact (hnew e he).imp hstands.append id
    · exact .inr hpast.append

/-- A stored content stands, and displaces the one it replaces. -/
theorem insert (h : s.Coherent last lifetime) (world : σ) (now room : Nat) {t : Nat} (ht : t + lifetime ≤ last)
    (key : CacheKey) (content : String) :
    Coherent last lifetime ⟨(s.cache.makeRoom room).insert key content (t + lifetime), world,
      s.history ++ [.time now, .answer key (.ok content), .time room, .time t]⟩ where
  lifetime_eq := (Cache.lifetime_makeRoom s.cache room).trans h.lifetime_eq
  keyed := (h.keyed.of_sublist (Cache.entries_makeRoom_sublist _ _)).insert key content _
  stands e he := by
    rcases List.mem_append.1 he with he | he
    · obtain ⟨he, hkey⟩ := List.mem_filter.1 he
      obtain ⟨t', hexpires, hlast, hanswered, hstands⟩ := h.stands e ((Cache.entries_makeRoom_sublist _ _).subset he)
      refine ⟨t', hexpires, hlast, hanswered.append, hstands.imp (fun hs => hs.append ?_) IsPast.append⟩
      have hne : key ≠ e.key := fun heq => by simp [heq] at hkey
      simpa [CacheEvent.Displaces] using hne
    · obtain rfl := List.mem_singleton.1 he
      exact ⟨t, rfl, ht, ⟨s.history ++ [.time now], room, [], by simp⟩,
        .inl ⟨s.history ++ [.time now], room, [], by simp, by simp⟩⟩

/-- One step keeps a session coherent. The resolver is asked only if the entry for the key is too old, so where its answer
cannot be stored, what stays for the key is past. -/
theorem step (clock : StateM σ Nat) (resolve : Resolver (StateM σ)) (h : s.Coherent last lifetime) (action : CacheStep) :
    (s.step last clock resolve action).Coherent last lifetime := by
  cases action with
  | ask path context =>
    rw [Session.step]
    obtain ⟨now, world, ⟨content, -, hask⟩ | ⟨w, e, -, hask⟩ | ⟨w, content, room, t, -, -, ht, hask⟩ |
      ⟨w, content, room, t, -, hfind, -, hask⟩⟩ := s.ask_cases last clock resolve path context
    · rw [hask]
      exact h.drop world rfl (List.Sublist.refl _) fun e _ => .inl (by simp [CacheEvent.Displaces])
    · rw [hask]
      exact h.drop world rfl (List.Sublist.refl _) fun e _ => .inl (by simp [CacheEvent.Displaces])
    · rw [h.lifetime_eq] at ht hask
      rw [hask]
      exact h.insert world now room ht _ content
    · rw [hask]
      refine h.drop world (Cache.lifetime_makeRoom _ _) (Cache.entries_makeRoom_sublist _ _) fun e he => ?_
      by_cases hkey : e.key = .of path context
      · have hold := (Cache.entries_makeRoom_sublist _ _).subset he
        exact .inr ⟨now, by simp, h.keyed.expired_of_find? hfind hold hkey⟩
      · refine .inl ?_
        simpa [CacheEvent.Displaces] using Ne.symm hkey
  | forget path =>
    refine h.drop s.world rfl List.filter_sublist fun e he => .inl fun event hevent hdisplaces => ?_
    obtain rfl := List.mem_singleton.1 hevent
    obtain rfl : path = e.key.path := hdisplaces
    simpa using (List.mem_filter.1 he).2
  | clear => exact h.drop s.world rfl (List.nil_sublist _) fun e he => by simp [Cache.clear] at he

theorem run (clock : StateM σ Nat) (resolve : Resolver (StateM σ)) (h : s.Coherent last lifetime)
    (steps : List CacheStep) : (s.run last clock resolve steps).Coherent last lifetime := by
  induction steps generalizing s with
  | nil => exact h
  | cons action steps ih => exact ih (h.step clock resolve action)

theorem create {capacity : Nat} {c : Cache} (hc : Cache.create lifetime capacity = .ok c) (world : σ) :
    Coherent last lifetime ⟨c, world, []⟩ := by
  obtain rfl : ⟨lifetime, capacity, []⟩ = c := by
    unfold Cache.create at hc
    split at hc
    · cases hc
    · split at hc
      · cases hc
      · exact Except.ok.inj hc
  exact ⟨rfl, List.nodup_nil, by simp⟩

end Session.Coherent

/-! ## Resolvers that depend on the key alone -/

/-- Every answer in the history is the one that `answerOf` gives for its key. -/
def Session.Agrees (answerOf : CacheKey → Except Error String) (s : Session σ) : Prop :=
  ∀ key result, .answer key result ∈ s.history → result = answerOf key

namespace Session.Agrees

variable {answerOf : CacheKey → Except Error String} {s : Session σ} {last : Nat} {clock : StateM σ Nat}
  {resolve : Resolver (StateM σ)}

theorem step (h : s.Agrees answerOf)
    (hanswer : ∀ path context world, ((resolve path context).run.run world).1 = answerOf (.of path context))
    (action : CacheStep) : (s.step last clock resolve action).Agrees answerOf := by
  intro key result hmem
  cases action with
  | ask path context =>
    obtain ⟨now, world, ⟨content, -, hask⟩ | ⟨w, e, hresult, hask⟩ | ⟨w, content, room, t, hresult, -, -, hask⟩ |
      ⟨w, content, room, t, hresult, -, -, hask⟩⟩ := s.ask_cases last clock resolve path context
    all_goals
      rw [Session.step, hask] at hmem
      rcases List.mem_append.1 hmem with hmem | hmem
      · exact h key result hmem
    · simp at hmem
    · obtain ⟨rfl, rfl⟩ : key = .of path context ∧ result = .error e := by simpa using hmem
      exact hresult.symm.trans (hanswer path context w)
    all_goals
      obtain ⟨rfl, rfl⟩ : key = .of path context ∧ result = .ok content := by simpa using hmem
      exact hresult.symm.trans (hanswer path context w)
  | forget path => exact h key result (by simpa [Session.step] using hmem)
  | clear => exact h key result (by simpa [Session.step] using hmem)

theorem run (h : s.Agrees answerOf)
    (hanswer : ∀ path context world, ((resolve path context).run.run world).1 = answerOf (.of path context))
    (steps : List CacheStep) : (s.run last clock resolve steps).Agrees answerOf := by
  induction steps generalizing s with
  | nil => exact h
  | cons action steps ih => exact ih (h.step hanswer action)

end Session.Agrees

/-! ## All sessions -/

/-- After every sequence of questions and invalidations, whatever the resolver answers: a question that the resolver is
not asked is answered with the content that stands for its key, and at a time that is not past the end of the entry,
unless the clock went back. If the resolver is asked, its answer is returned, and if it is an error the cache stays as it
was. So if the answers of the resolver depend on the key alone, every answer is the one it would give.

No answer comes exactly if the resolver has one and its end is past the last time of the clock, which every lifetime that
is long enough leads to. -/
theorem cached_coherent {lifetime capacity : Nat} {c : Cache} (hc : Cache.create lifetime capacity = .ok c) (last : Nat)
    (clock : StateM σ Nat) (resolve : Resolver (StateM σ)) (world : σ) (steps : List CacheStep) (path : String)
    (context : Context) :
    let s := Session.run last clock resolve ⟨c, world, []⟩ steps
    let key := CacheKey.of path context
    let outcome := (s.ask last clock resolve path context).1
    let s' := (s.ask last clock resolve path context).2
    ∃ new, s'.history = s.history ++ new ∧
      ((∀ k r, .answer k r ∉ new) → ∃ content now, outcome = .ok (.ok content) ∧ new = [.time now] ∧ s'.cache = s.cache ∧
        (Chronological s'.history → ∃ t, Stands s.history key content t ∧ now ≤ t + lifetime)) ∧
      (∀ k r, .answer k r ∈ new → k = key ∧ (outcome = .ok r ∨ RunsOut last lifetime key new)) ∧
      (∀ k e, .answer k (.error e) ∈ new → outcome = .ok (.error e) ∧ s'.cache = s.cache) ∧
      ((∃ o, outcome = .error o) ↔ RunsOut last lifetime key new) ∧
      ∀ answerOf : CacheKey → Except Error String,
        (∀ path context world, ((resolve path context).run.run world).1 = answerOf (.of path context)) →
          outcome = .ok (answerOf key) ∨ RunsOut last lifetime key new := by
  intro s key
  have hcoherent : s.Coherent last lifetime := (Session.Coherent.create hc world).run clock resolve steps
  obtain ⟨now, world', ⟨content, hfind, hask⟩ | ⟨w, e, hresult, hask⟩ | ⟨w, content, room, t, hresult, -, ht, hask⟩ |
    ⟨w, content, room, t, hresult, -, ht, hask⟩⟩ := s.ask_cases last clock resolve path context
  · obtain ⟨entry, hentry, hkey, hcontent, hlive⟩ := Cache.find?_eq_some hfind
    obtain ⟨t, hexpires, -, hanswered, hstands⟩ := hcoherent.stands entry hentry
    rw [hkey, hcontent] at hstands hanswered
    rw [hask]
    refine ⟨[.time now], rfl, fun _ => ⟨content, now, rfl, rfl, rfl, fun hchron => ⟨t, ?_, hexpires ▸ hlive⟩⟩, by simp,
      by simp, by simp [RunsOut], ?_⟩
    · refine hstands.resolve_right fun hpast => ?_
      exact absurd (hpast.lt hchron) (Nat.not_lt.2 hlive)
    · intro answerOf hanswer
      have hagrees : s.Agrees answerOf := Session.Agrees.run (fun _ _ hmem => by cases hmem) hanswer steps
      exact .inl (congrArg Except.ok (hagrees key _ hanswered.mem))
  · rw [hask]
    refine ⟨_, rfl, fun hnone => absurd (by simp [key]) (hnone key (.error e)), by simp [key], by simp, by simp [RunsOut], ?_⟩
    exact fun answerOf hanswer => .inl (congrArg Except.ok (hresult.symm.trans (hanswer path context w)))
  · rw [hcoherent.lifetime_eq] at ht
    rw [hask]
    refine ⟨_, rfl, fun hnone => absurd (by simp [key]) (hnone key (.ok content)), by simp [key], by simp, ?_, ?_⟩
    · have hwithin : ¬last < t + lifetime := Nat.not_lt.2 ht
      simp [RunsOut, hwithin]
    · exact fun answerOf hanswer => .inl (congrArg Except.ok (hresult.symm.trans (hanswer path context w)))
  · rw [hcoherent.lifetime_eq] at ht
    rw [hask]
    have hout : RunsOut last lifetime key [.time now, .answer key (.ok content), .time room, .time t] :=
      ⟨now, content, room, t, rfl, ht⟩
    refine ⟨_, rfl, fun hnone => absurd (by simp [key]) (hnone key (.ok content)), ?_, by simp,
      ⟨fun _ => hout, fun _ => ⟨_, rfl⟩⟩, fun _ _ => .inr hout⟩
    intro k r hmem
    obtain ⟨rfl, rfl⟩ : k = key ∧ r = .ok content := by simpa [key] using hmem
    exact ⟨rfl, .inr hout⟩

def tickingClock : StateM Nat Nat := fun n => (n, n + 1)

def fickle : Resolver (StateM Nat) := fun path _ => ExceptT.mk fun n =>
  (if path = "gone" then .error (.inclusion (.notInMap path)) else .ok (path ++ String.ofList (List.replicate n '!')), n + 1)

def mixedSteps : List CacheStep :=
  [.ask "a" { kind := .css }, .ask "a" { kind := .markup }, .ask "b" { kind := .markup }, .ask "gone" { kind := .markup },
    .forget "b"]

/-- The second of two questions is answered from the cache, with what was answered to the first. -/
theorem cached_coherent_mixed : Cache.create 20 3 = .ok ⟨20, 3, []⟩ ∧
    let s := Session.run 1000 tickingClock fickle ⟨⟨20, 3, []⟩, 0, []⟩ mixedSteps
    (s.ask 1000 tickingClock fickle "a" { kind := .markup }).1 = .ok (.ok "a!!!!!") ∧
      ∃ t now, Stands s.history (.of "a" { kind := .markup }) "a!!!!!" t ∧ now ≤ t + 20 := by
  have hcreate : Cache.create 20 3 = .ok ⟨20, 3, []⟩ := rfl
  refine ⟨hcreate, ?_⟩
  intro s
  have hask : (s.ask 1000 tickingClock fickle "a" { kind := .markup }).1 = .ok (.ok "a!!!!!") := by decide +kernel
  have hhistory : (s.ask 1000 tickingClock fickle "a" { kind := .markup }).2.history = s.history ++ [.time 14] := by
    decide +kernel
  have hchron : Chronological (s.ask 1000 tickingClock fickle "a" { kind := .markup }).2.history := by
    unfold Chronological
    decide +kernel
  obtain ⟨new, hnew, hcached, -⟩ := cached_coherent hcreate 1000 tickingClock fickle 0 mixedSteps "a" { kind := .markup }
  obtain rfl : new = [.time 14] := List.append_cancel_left (hnew.symm.trans hhistory)
  obtain ⟨content, now, hresult, -, -, hstands⟩ := hcached (by simp)
  obtain rfl : "a!!!!!" = content := Except.ok.inj (Except.ok.inj (hask.symm.trans hresult))
  obtain ⟨t, hstands, hlive⟩ := hstands hchron
  exact ⟨hask, t, now, hstands, hlive⟩

/-- The longest lifetime of 64 bits of seconds is accepted, but with 63 bits for the last time of the clock no answer can
be stored: the resolver answers, and the question is not answered. Times are in nanoseconds. -/
theorem cached_runs_out :
    let second := 1000000000
    let lifetime := UInt64.size * second - 1
    let last := UInt64.size / 2 * second - 1
    let s : Session Nat := ⟨⟨lifetime, 256, []⟩, 0, []⟩
    Cache.create lifetime 256 = .ok s.cache ∧ ((fickle "a" { kind := .markup }).run.run 1).1 = .ok "a!" ∧
      (s.ask last tickingClock fickle "a" { kind := .markup }).1 = .error ⟨3, lifetime⟩ := by
  decide

end EmailMarkup.Include
