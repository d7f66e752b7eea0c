import EmailMarkup.Include.Basic
/-!
# Remembering contents

A cache remembers what a resolver answered, for each path, including path and kind, until an entry is
too old. When it is full, an insertion first drops the entries that are too old, and if that is not
enough the quarter that would be too old next, at least one.

Times are counts of some clock. An entry is too old when the clock is past its end. Counts are unbounded
here, but a clock may have a last time: `addTime` fails where a sum is past it, and then nothing is
stored and the question is not answered at all.
-/
namespace EmailMarkup.Include

/-- What an answer depends on. -/
structure CacheKey where
  path : String
  within : Option String
  kind : Kind
  deriving DecidableEq, Repr

def CacheKey.of (path : String) (c : Context) : CacheKey := ⟨path, c.within, c.kind⟩

structure CacheEntry where
  key : CacheKey
  content : String
  /-- The last time at which the answer may be used. -/
  expires : Nat
  deriving DecidableEq, Repr

def CacheEntry.isExpired (e : CacheEntry) (now : Nat) : Bool := e.expires < now

/-- Remembered answers, in the order in which they were given. -/
structure Cache where
  /-- How long an answer may be used. -/
  lifetime : Nat
  /-- How many answers are kept. -/
  capacity : Nat
  entries : List CacheEntry := []
  deriving DecidableEq, Repr

namespace Cache

/-- How many answers are kept unless said otherwise. -/
def defaultCapacity : Nat := 256

/-- An empty cache; neither its lifetime nor its capacity may be zero. -/
def create (lifetime capacity : Nat) : Except Error Cache :=
  if lifetime == 0 then .error (.setting .zeroLifetime)
  else if capacity == 0 then .error (.setting .zeroCapacity)
  else .ok ⟨lifetime, capacity, []⟩

/-- How many answers are kept, those that are too old included. -/
def size (c : Cache) : Nat := c.entries.length

/-- The answer for a key, unless it is too old. -/
def find? (c : Cache) (now : Nat) (key : CacheKey) : Option String :=
  ((c.entries.find? fun e => e.key == key).filter fun e => !e.isExpired now).map CacheEntry.content

/-- The entries without the `n` that expire first. -/
def withoutEarliest (n : Nat) (entries : List CacheEntry) : List CacheEntry :=
  let dropped := (entries.mergeSort fun a b => a.expires ≤ b.expires).take n
  entries.filter fun e => !dropped.any fun d => d.key == e.key

/-- Makes room if the cache is full. -/
def makeRoom (c : Cache) (now : Nat) : Cache :=
  if c.size < c.capacity then c
  else
    let live := c.entries.filter fun e => !e.isExpired now
    if live.length < c.capacity then { c with entries := live }
    else { c with entries := withoutEarliest (max (live.length / 4) 1) live }

/-- Remembers an answer until `expires`. -/
def insert (c : Cache) (key : CacheKey) (content : String) (expires : Nat) : Cache :=
  { c with entries := (c.entries.filter fun e => e.key != key) ++ [⟨key, content, expires⟩] }

/-- Forgets the answers for a path. -/
def forget (c : Cache) (path : String) : Cache :=
  { c with entries := c.entries.filter fun e => e.key.path != path }

def clear (c : Cache) : Cache := { c with entries := [] }

end Cache

/-! ## Clocks -/

/-- A sum of a time and a lifetime that is past the last time of a clock. -/
structure Overflow where
  now : Nat
  lifetime : Nat
  deriving DecidableEq, Repr

/-- The time `lifetime` after `now`, on a clock whose last time is `last`. -/
def addTime (last now lifetime : Nat) : Except Overflow Nat :=
  if now + lifetime ≤ last then .ok (now + lifetime) else .error ⟨now, lifetime⟩

/-! ## Resolvers with a cache -/

/-- Where a cache is kept, and what time it is. -/
structure CacheStore (m : Type → Type) [Monad m] where
  now : m Nat
  /-- Adds a lifetime to a time. Without a last time of the clock this cannot fail. -/
  later : Nat → Nat → m Nat := fun now lifetime => pure (now + lifetime)
  load : m Cache
  save : Cache → m Unit

section

variable {m : Type → Type} [Monad m]

/-- Stores an answer. The clock is read once for making room, and again for the age of the new entry. Room is made
before the end of the entry is known, and stays made if there is none. -/
def storeAnswer (store : CacheStore m) (key : CacheKey) (content : String) : m Unit := do
  let roomy := (← store.load).makeRoom (← store.now)
  store.save roomy
  let expires ← store.later (← store.now) roomy.lifetime
  store.save (roomy.insert key content expires)

/-- Asks a resolver and remembers the content. An error is not remembered. -/
def remembering (store : CacheStore m) (resolve : Resolver m) : Resolver m := fun path context => do
  let content ← resolve path context
  (storeAnswer store (CacheKey.of path context) content : m Unit)
  return content

/-- Asks a resolver only for what the cache does not remember. -/
def cached (store : CacheStore m) (resolve : Resolver m) : Resolver m := fun path context => do
  match (← store.load).find? (← store.now) (CacheKey.of path context) with
  | some content => return content
  | none => remembering store resolve path context

end

end EmailMarkup.Include
