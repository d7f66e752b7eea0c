import EmailMarkup.Proofs.Include.Cache
/-!
# What a full cache drops

A cache holds at most as many entries as its capacity allows, after every sequence of questions and invalidations
(`Session.bounded_run`). Only an insertion into a full cache drops entries: first those that are too old, and if the
others still fill the cache, a quarter of them, at least one (`Cache.kept_makeRoom`).

The quarter is cut from the entries in the order of their ends, so what is dropped expires no later than what stays.
Entries that were stored at different times have different ends (`Session.Coherent.expires_nodup`), and then it
expires strictly earlier. Where an answer cannot be stored, because its end is past the last time of the clock, room is
made for it all the same.
-/
namespace EmailMarkup.Include

/-! ## Dropping the earliest -/

def live (now : Nat) (entries : List CacheEntry) : List CacheEntry := entries.filter fun e => !e.isExpired now

theorem mem_live {now : Nat} {entries : List CacheEntry} {e : CacheEntry} :
    e ∈ live now entries ↔ e ∈ entries ∧ now ≤ e.expires := by
  simp [live, CacheEntry.isExpired]

def byExpiry (entries : List CacheEntry) : List CacheEntry := entries.mergeSort fun a b => a.expires ≤ b.expires

theorem byExpiry_perm (entries : List CacheEntry) : (byExpiry entries).Perm entries := List.mergeSort_perm _ _

theorem byExpiry_sorted (entries : List CacheEntry) : (byExpiry entries).Pairwise fun a b => a.expires ≤ b.expires := by
  have hsorted : (byExpiry entries).Pairwise fun a b => decide (a.expires ≤ b.expires) := by
    refine List.pairwise_mergeSort ?_ ?_ entries
    · intro a b c hab hbc
      simp only [decide_eq_true_eq] at hab hbc ⊢
      omega
    · intro a b
      simp only [Bool.or_eq_true, decide_eq_true_eq]
      omega
  simpa only [decide_eq_true_eq] using hsorted

namespace Cache

variable {entries : List CacheEntry}

/-- Where no key comes twice, dropping by key drops the entries themselves. -/
theorem withoutEarliest_perm (hkeys : (entries.map CacheEntry.key).Nodup) (n : Nat) :
    (withoutEarliest n entries).Perm ((byExpiry entries).drop n) := by
  have hsorted : ((byExpiry entries).map CacheEntry.key).Nodup :=
    ((byExpiry_perm entries).map CacheEntry.key).nodup_iff.2 hkeys
  rw [← List.take_append_drop n (byExpiry entries), List.map_append, List.nodup_append] at hsorted
  obtain ⟨-, -, hapart⟩ := hsorted
  have hperm : (withoutEarliest n entries).Perm
      ((byExpiry entries).filter fun e => !((byExpiry entries).take n).any fun d => d.key == e.key) :=
    (byExpiry_perm entries).symm.filter _
  refine hperm.trans (List.Perm.of_eq ?_)
  conv_lhs => arg 2; rw [← List.take_append_drop n (byExpiry entries)]
  rw [List.filter_append]
  have htaken : ((byExpiry entries).take n).filter
      (fun e => !((byExpiry entries).take n).any fun d => d.key == e.key) = [] := by
    rw [List.filter_eq_nil_iff]
    intro e he
    simpa using ⟨e, he, rfl⟩
  have hleft : ((byExpiry entries).drop n).filter
      (fun e => !((byExpiry entries).take n).any fun d => d.key == e.key) = (byExpiry entries).drop n := by
    rw [List.filter_eq_self]
    intro e he
    simp only [Bool.not_eq_true', List.any_eq_false, beq_iff_eq]
    intro d hd
    exact hapart d.key (List.mem_map_of_mem hd) e.key (List.mem_map_of_mem he)
  rw [htaken, hleft, List.nil_append]

theorem length_withoutEarliest (hkeys : (entries.map CacheEntry.key).Nodup) (n : Nat) :
    (withoutEarliest n entries).length = entries.length - n := by
  rw [(withoutEarliest_perm hkeys n).length_eq, List.length_drop, (byExpiry_perm entries).length_eq]

/-- What is dropped expires no later than what stays. -/
theorem expires_le_of_dropped (hkeys : (entries.map CacheEntry.key).Nodup) {n : Nat} {e f : CacheEntry}
    (he : e ∈ entries) (hdropped : e ∉ withoutEarliest n entries) (hf : f ∈ withoutEarliest n entries) :
    e.expires ≤ f.expires := by
  have hsorted := byExpiry_sorted entries
  rw [← List.take_append_drop n (byExpiry entries), List.pairwise_append] at hsorted
  obtain ⟨-, -, hbefore⟩ := hsorted
  rw [(withoutEarliest_perm hkeys n).mem_iff] at hdropped hf
  have htaken : e ∈ (byExpiry entries).take n := by
    have hmem : e ∈ (byExpiry entries).take n ++ (byExpiry entries).drop n := by
      rw [List.take_append_drop]
      exact (byExpiry_perm entries).mem_iff.2 he
    exact (List.mem_append.1 hmem).resolve_right hdropped
  exact hbefore e htaken f hf

end Cache

/-! ## Making room -/

/-- What an insertion keeps of the entries that are there: all while there is room, else those that are not too old,
and if these still fill the cache, all but a quarter of them, at least one, which expire before all that stay. -/
structure Kept (capacity now : Nat) (before kept : List CacheEntry) : Prop where
  roomy : before.length < capacity → kept = before
  full : before.length = capacity → (live now before).length < capacity → kept = live now before
  crowded : (live now before).length = capacity →
    kept.Sublist (live now before) ∧ kept.length + max 1 (capacity / 4) = capacity ∧
      ∀ e ∈ live now before, e ∉ kept → ∀ f ∈ kept, e.expires < f.expires

/-- Nothing that is too old stays in a full cache. -/
theorem Kept.mem_live {capacity now : Nat} {before kept : List CacheEntry} (h : Kept capacity now before kept)
    (hfull : before.length = capacity) {e : CacheEntry} (he : e ∈ kept) : e ∈ live now before := by
  have hle : (live now before).length ≤ capacity := hfull ▸ List.length_filter_le _ _
  rcases Nat.lt_or_eq_of_le hle with hlive | hlive
  · rwa [h.full hfull hlive] at he
  · exact (h.crowded hlive).1.subset he

namespace Cache

variable {c : Cache}

theorem capacity_makeRoom (c : Cache) (now : Nat) : (c.makeRoom now).capacity = c.capacity := by
  unfold makeRoom
  split
  · rfl
  · dsimp only
    split <;> rfl

/-- A cache that keeps to its capacity, with one entry for a key. -/
structure Bounded (c : Cache) : Prop where
  capacity_pos : 0 < c.capacity
  size_le : c.size ≤ c.capacity
  keyed : c.Keyed

theorem Bounded.live_keys_nodup (h : c.Bounded) (now : Nat) : ((live now c.entries).map CacheEntry.key).Nodup :=
  h.keyed.sublist (List.filter_sublist.map _)

theorem Bounded.length_live_le (h : c.Bounded) (now : Nat) : (live now c.entries).length ≤ c.capacity :=
  Nat.le_trans (List.length_filter_le _ _) h.size_le

theorem makeRoom_of_room {now : Nat} (h : c.size < c.capacity) : c.makeRoom now = c := by rw [makeRoom, if_pos h]

theorem makeRoom_of_full {now : Nat} (hfull : c.capacity ≤ c.size) (hlive : (live now c.entries).length < c.capacity) :
    c.makeRoom now = { c with entries := live now c.entries } := by
  rw [makeRoom, if_neg (Nat.not_lt.2 hfull)]
  exact if_pos hlive

theorem makeRoom_of_crowded {now : Nat} (h : c.capacity ≤ (live now c.entries).length) : c.makeRoom now =
    { c with entries := withoutEarliest (max ((live now c.entries).length / 4) 1) (live now c.entries) } := by
  have hfull : c.capacity ≤ c.size := Nat.le_trans h (List.length_filter_le _ _)
  rw [makeRoom, if_neg (Nat.not_lt.2 hfull)]
  exact if_neg (Nat.not_lt.2 h)

theorem kept_makeRoom (h : c.Bounded) (hexpires : (c.entries.map CacheEntry.expires).Nodup) (now : Nat) :
    Kept c.capacity now c.entries (c.makeRoom now).entries where
  roomy hroom := by rw [makeRoom_of_room hroom]
  full hfull hlive := by rw [makeRoom_of_full (Nat.le_of_eq hfull.symm) hlive]
  crowded hlength := by
    rw [makeRoom_of_crowded (Nat.le_of_eq hlength.symm)]
    refine ⟨List.filter_sublist, ?_, ?_⟩
    · have hpos := h.capacity_pos
      rw [length_withoutEarliest (h.live_keys_nodup now), hlength]
      omega
    · intro e he hdropped f hf
      have hle := expires_le_of_dropped (h.live_keys_nodup now) he hdropped hf
      have hflive : f ∈ live now c.entries := List.filter_sublist.subset hf
      refine Nat.lt_of_le_of_ne hle fun heq => hdropped ?_
      rwa [List.inj_on_of_nodup_map hexpires (mem_live.1 he).1 (mem_live.1 hflive).1 heq]

theorem Bounded.size_makeRoom_lt (h : c.Bounded) (now : Nat) : (c.makeRoom now).size < c.capacity := by
  by_cases hroom : c.size < c.capacity
  · rwa [makeRoom_of_room hroom]
  by_cases hlive : (live now c.entries).length < c.capacity
  · rwa [makeRoom_of_full (Nat.not_lt.1 hroom) hlive]
  rw [makeRoom_of_crowded (Nat.not_lt.1 hlive), size, length_withoutEarliest (h.live_keys_nodup now)]
  have hpos := h.capacity_pos
  have hlength := h.length_live_le now
  omega

/-! ## Steps -/

/-- Entries may be dropped. -/
theorem Bounded.of_sublist (h : c.Bounded) {c' : Cache} (hcapacity : c'.capacity = c.capacity)
    (hsub : c'.entries.Sublist c.entries) : c'.Bounded where
  capacity_pos := hcapacity ▸ h.capacity_pos
  size_le := hcapacity ▸ Nat.le_trans hsub.length_le h.size_le
  keyed := h.keyed.of_sublist hsub

theorem Bounded.makeRoom (h : c.Bounded) (room : Nat) : (c.makeRoom room).Bounded :=
  h.of_sublist (c.capacity_makeRoom room) (c.entries_makeRoom_sublist room)

theorem Bounded.insert (h : c.Bounded) (room : Nat) (key : CacheKey) (content : String) (expires : Nat) :
    Bounded ((c.makeRoom room).insert key content expires) where
  capacity_pos := (h.makeRoom room).capacity_pos
  size_le := by
    have hroom := h.size_makeRoom_lt room
    have hfilter := List.length_filter_le (fun e => e.key != key) (c.makeRoom room).entries
    show ((c.makeRoom room).entries.filter _ ++ [_]).length ≤ (c.makeRoom room).capacity
    rw [capacity_makeRoom, List.length_append, List.length_singleton]
    simp only [size] at hroom
    omega
  keyed := (h.makeRoom room).keyed.insert key content expires

theorem Bounded.create {lifetime capacity : Nat} (hc : Cache.create lifetime capacity = .ok c) :
    c.Bounded ∧ c.capacity = capacity := by
  unfold Cache.create at hc
  split at hc
  · cases hc
  · split at hc
    · cases hc
    · rename_i hzero
      obtain rfl := Except.ok.inj hc
      exact ⟨⟨Nat.pos_of_ne_zero (by simpa using hzero), by simp [size], List.nodup_nil⟩, rfl⟩

end Cache

/-! ## Times of storing -/

/-- When the answers of a history were stored: the second reading of the clock after each, unless the end of the answer
is past the last time. -/
def insertionTimes (last lifetime : Nat) : List CacheEvent → List Nat
  | .answer _ (.ok _) :: .time _ :: .time t :: rest =>
    if t + lifetime ≤ last then t :: insertionTimes last lifetime rest else insertionTimes last lifetime rest
  | _ :: rest => insertionTimes last lifetime rest
  | [] => []

section

variable {last lifetime : Nat}

theorem insertionTimes_stored (key : CacheKey) (content : String) (room : Nat) {t : Nat} (ht : t + lifetime ≤ last)
    (rest : List CacheEvent) : insertionTimes last lifetime (.answer key (.ok content) :: .time room :: .time t :: rest) =
      t :: insertionTimes last lifetime rest := by
  rw [insertionTimes, if_pos ht]

theorem insertionTimes_cons_suffix (e : CacheEvent) (rest : List CacheEvent) :
    insertionTimes last lifetime rest <:+ insertionTimes last lifetime (e :: rest) := by
  rw [insertionTimes.eq_def last lifetime (e :: rest)]
  split
  · rename_i heq
    obtain ⟨-, rfl⟩ := List.cons.inj heq
    split
    · exact List.suffix_cons _ _
    · exact List.suffix_rfl
  · rename_i heq
    obtain ⟨-, rfl⟩ := List.cons.inj heq
    exact List.suffix_rfl
  · rename_i heq
    cases heq

theorem insertionTimes_suffix (before rest : List CacheEvent) :
    insertionTimes last lifetime rest <:+ insertionTimes last lifetime (before ++ rest) := by
  induction before with
  | nil => exact List.suffix_rfl
  | cons e before ih => exact List.IsSuffix.trans ih (insertionTimes_cons_suffix e (before ++ rest))

/-- Where no two answers were stored at one time, one that was stored then is not before another. -/
theorem length_le_of_stored {key₁ key₂ : CacheKey} {content₁ content₂ : String} {room₁ room₂ t : Nat}
    {before₁ before₂ after₁ after₂ : List CacheEvent} (ht : t + lifetime ≤ last)
    (hnodup : (insertionTimes last lifetime
      (before₁ ++ .answer key₁ (.ok content₁) :: .time room₁ :: .time t :: after₁)).Nodup)
    (heq : before₁ ++ .answer key₁ (.ok content₁) :: .time room₁ :: .time t :: after₁ =
      before₂ ++ .answer key₂ (.ok content₂) :: .time room₂ :: .time t :: after₂) :
    before₂.length ≤ before₁.length := by
  rcases List.append_eq_append_iff.1 heq with ⟨between, rfl, hrest⟩ | ⟨between, rfl, -⟩
  · cases between with
    | nil => simp
    | cons e between =>
      rw [List.cons_append] at hrest
      obtain ⟨-, hrest⟩ := List.cons.inj hrest
      have hagain : t ∈ insertionTimes last lifetime (.time room₁ :: .time t :: after₁) := by
        rw [hrest]
        apply (insertionTimes_suffix between _).subset
        rw [insertionTimes_stored _ _ _ ht]
        exact List.mem_cons_self
      have honce := hnodup.sublist (insertionTimes_suffix before₁ _).sublist
      rw [insertionTimes_stored _ _ _ ht] at honce
      exact absurd hagain (List.nodup_cons.1 honce).1
  · simp

/-- So only one key can have an answer that was stored then. -/
theorem Answered.key_eq {history : List CacheEvent} {key₁ key₂ : CacheKey} {content₁ content₂ : String} {t : Nat}
    (ht : t + lifetime ≤ last) (hnodup : (insertionTimes last lifetime history).Nodup)
    (h₁ : Answered history key₁ content₁ t) (h₂ : Answered history key₂ content₂ t) : key₁ = key₂ := by
  obtain ⟨before₁, room₁, after₁, rfl⟩ := h₁
  obtain ⟨before₂, room₂, after₂, heq⟩ := h₂
  have hlength : before₁.length = before₂.length :=
    Nat.le_antisymm (length_le_of_stored ht (heq ▸ hnodup) heq.symm) (length_le_of_stored ht hnodup heq)
  have hevent := (List.append_inj heq hlength).2
  simp only [List.cons.injEq, CacheEvent.answer.injEq] at hevent
  exact hevent.1.1

end

namespace Session

variable {σ : Type} {s : Session σ}

/-- Entries that were stored at different times have different ends. -/
theorem Coherent.expires_nodup {last lifetime : Nat} (h : s.Coherent last lifetime)
    (hnodup : (insertionTimes last lifetime s.history).Nodup) : (s.cache.entries.map CacheEntry.expires).Nodup := by
  refine List.Nodup.map_on ?_ (List.Nodup.of_map _ h.keyed)
  intro e he f hf heq
  obtain ⟨t, hexpires, ht, hanswered, -⟩ := h.stands e he
  obtain ⟨t', hexpires', -, hanswered', -⟩ := h.stands f hf
  obtain rfl : t = t' := by omega
  exact List.inj_on_of_nodup_map h.keyed he hf (hanswered.key_eq ht hnodup hanswered')

/-! ## All sessions -/

/-- One step keeps a cache to its capacity, and does not change the capacity. -/
theorem bounded_step (last : Nat) (clock : StateM σ Nat) (resolve : Resolver (StateM σ)) (h : s.cache.Bounded) (action : CacheStep) :
    (s.step last clock resolve action).cache.Bounded ∧
      (s.step last clock resolve action).cache.capacity = s.cache.capacity := by
  cases action with
  | ask path context =>
    rw [Session.step]
    obtain ⟨now, world, ⟨content, -, hask⟩ | ⟨w, e, -, hask⟩ | ⟨w, content, room, t, -, -, -, hask⟩ |
      ⟨w, content, room, t, -, -, -, hask⟩⟩ := s.ask_cases last clock resolve path context
    · rw [hask]
      exact ⟨h, rfl⟩
    · rw [hask]
      exact ⟨h, rfl⟩
    · rw [hask]
      exact ⟨h.insert room _ content _, s.cache.capacity_makeRoom room⟩
    · rw [hask]
      exact ⟨h.makeRoom room, s.cache.capacity_makeRoom room⟩
  | forget path => exact ⟨h.of_sublist rfl List.filter_sublist, rfl⟩
  | clear => exact ⟨h.of_sublist rfl (List.nil_sublist _), rfl⟩

theorem bounded_run (last : Nat) (clock : StateM σ Nat) (resolve : Resolver (StateM σ)) (h : s.cache.Bounded)
    (steps : List CacheStep) : (s.run last clock resolve steps).cache.Bounded ∧
      (s.run last clock resolve steps).cache.capacity = s.cache.capacity := by
  induction steps generalizing s with
  | nil => exact ⟨h, rfl⟩
  | cons action steps ih =>
    obtain ⟨hstep, hcapacity⟩ := bounded_step last clock resolve h action
    obtain ⟨hrun, hrest⟩ := ih hstep
    exact ⟨hrun, hrest.trans hcapacity⟩

end Session

/-- After every sequence of questions and invalidations, whatever the clock shows and whatever the resolver answers, the
cache holds no more entries than its capacity. If no two answers were stored at one time, the next question that
stores an answer drops entries only from a full cache, as `Kept` says, and all others leave the cache as it is. A new
entry takes the place of the one for its key; in a full cache that one was too old and is gone before. An answer whose end
is past the last time of the clock drops the same entries and is not stored. -/
theorem cached_within_capacity {σ : Type} {lifetime capacity : Nat} {c : Cache}
    (hc : Cache.create lifetime capacity = .ok c) (last : Nat) (clock : StateM σ Nat) (resolve : Resolver (StateM σ))
    (world : σ) (steps : List CacheStep) :
    let s := Session.run last clock resolve ⟨c, world, []⟩ steps
    s.cache.size ≤ capacity ∧
      ((insertionTimes last lifetime s.history).Nodup → ∀ path context,
        let key := CacheKey.of path context
        let s' := (s.ask last clock resolve path context).2
        ∃ new, s'.history = s.history ++ new ∧
          ((∀ k content, .answer k (.ok content) ∉ new) → s'.cache = s.cache) ∧
          ∀ k content, .answer k (.ok content) ∈ new → ∃ now room t kept,
            new = [.time now, .answer key (.ok content), .time room, .time t] ∧
            Kept capacity room s.cache.entries kept ∧
            (last < t + lifetime → s'.cache.entries = kept) ∧
            (t + lifetime ≤ last →
              s'.cache.entries = (kept.filter fun e => e.key != key) ++ [⟨key, content, t + lifetime⟩] ∧
              (s.cache.size = capacity → now ≤ room →
                s'.cache.entries = kept ++ [⟨key, content, t + lifetime⟩]))) := by
  intro s
  obtain ⟨hcreated, hcapacity⟩ := Cache.Bounded.create hc
  obtain ⟨hbounded, hsame⟩ : s.cache.Bounded ∧ s.cache.capacity = c.capacity :=
    Session.bounded_run last clock resolve hcreated steps
  have hcoherent : s.Coherent last lifetime := (Session.Coherent.create hc world).run clock resolve steps
  rw [hcapacity] at hsame
  refine ⟨hsame ▸ hbounded.size_le, fun hnodup path context => ?_⟩
  intro key
  have hkept (room : Nat) : Kept capacity room s.cache.entries (s.cache.makeRoom room).entries :=
    hsame ▸ Cache.kept_makeRoom hbounded (hcoherent.expires_nodup hnodup) room
  obtain ⟨now, world', ⟨content, -, hask⟩ | ⟨w, e, -, hask⟩ | ⟨w, content, room, t, -, hfind, ht, hask⟩ |
    ⟨w, content, room, t, -, -, ht, hask⟩⟩ := s.ask_cases last clock resolve path context
  · rw [hask]
    exact ⟨_, rfl, fun _ => rfl, by simp⟩
  · rw [hask]
    exact ⟨_, rfl, fun _ => rfl, by simp⟩
  · rw [hcoherent.lifetime_eq] at ht hask
    rw [hask]
    refine ⟨_, rfl, fun hnone => absurd (by simp [key]) (hnone key content), fun k content' hmem => ?_⟩
    obtain ⟨rfl, rfl⟩ : k = key ∧ content' = content := by simpa [key] using hmem
    refine ⟨now, room, t, (s.cache.makeRoom room).entries, rfl, hkept room, fun hlt => absurd ht (Nat.not_le.2 hlt),
      fun _ => ⟨rfl, ?_⟩⟩
    intro hfull hnow
    have hother : ∀ e ∈ (s.cache.makeRoom room).entries, (e.key != key) = true := by
      intro e he
      have hlive := mem_live.1 ((hkept room).mem_live hfull he)
      rw [bne_iff_ne]
      intro hkey
      have hexpired := hbounded.keyed.expired_of_find? hfind hlive.1 hkey
      omega
    show (s.cache.makeRoom room).entries.filter _ ++ _ = _
    rw [List.filter_eq_self.2 hother]
  · rw [hcoherent.lifetime_eq] at ht
    rw [hask]
    refine ⟨_, rfl, fun hnone => absurd (by simp [key]) (hnone key content), fun k content' hmem => ?_⟩
    obtain ⟨rfl, rfl⟩ : k = key ∧ content' = content := by simpa [key] using hmem
    exact ⟨now, room, t, (s.cache.makeRoom room).entries, rfl, hkept room, fun _ => rfl,
      fun hle => absurd ht (Nat.not_lt.2 hle)⟩

def fillingSteps : List CacheStep :=
  [.ask "a" { kind := .markup }, .ask "b" { kind := .markup }, .ask "c" { kind := .markup }]

/-- A fourth answer drops one of the three, which expires before the two that stay. -/
theorem cached_within_capacity_filled : Cache.create 20 3 = .ok ⟨20, 3, []⟩ ∧
    let s := Session.run 1000 tickingClock fickle ⟨⟨20, 3, []⟩, 0, []⟩ fillingSteps
    (insertionTimes 1000 20 s.history).Nodup ∧ live 14 s.cache.entries = s.cache.entries ∧ ∃ kept new,
      (s.ask 1000 tickingClock fickle "d" { kind := .markup }).2.cache.entries = kept ++ [new] ∧ kept.length = 2 ∧
        ∀ e ∈ s.cache.entries, e ∉ kept → ∀ f ∈ kept, e.expires < f.expires := by
  have hcreate : Cache.create 20 3 = .ok ⟨20, 3, []⟩ := rfl
  refine ⟨hcreate, ?_⟩
  intro s
  have htimes : (insertionTimes 1000 20 s.history).Nodup := by decide +kernel
  have hlive : live 14 s.cache.entries = s.cache.entries := by decide +kernel
  have hfull : s.cache.size = 3 := by decide +kernel
  have hhistory : (s.ask 1000 tickingClock fickle "d" { kind := .markup }).2.history = s.history ++
      [.time 12, .answer (.of "d" { kind := .markup }) (.ok "d!!!!!!!!!!!!!"), .time 14, .time 15] := by
    decide +kernel
  obtain ⟨-, hnext⟩ := cached_within_capacity hcreate 1000 tickingClock fickle 0 fillingSteps
  obtain ⟨new, hnew, -, hinserted⟩ := hnext htimes "d" { kind := .markup }
  obtain rfl := List.append_cancel_left (hnew.symm.trans hhistory)
  obtain ⟨now, room, t, kept, htrace, hkept, -, hstored⟩ := hinserted _ _ (List.mem_cons_of_mem _ List.mem_cons_self)
  obtain ⟨rfl, rfl, rfl⟩ : 12 = now ∧ 14 = room ∧ 15 = t := by simpa using htrace
  obtain ⟨-, hentries⟩ := hstored (by decide)
  obtain ⟨-, hlength, hearlier⟩ := hkept.crowded (by rw [hlive]; exact hfull)
  rw [hlive] at hearlier
  exact ⟨htimes, hlive, kept, _, hentries hfull (by decide), by omega, hearlier⟩

end EmailMarkup.Include
