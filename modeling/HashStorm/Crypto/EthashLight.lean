import HashStorm.Lib.Machine
import HashStorm.Lib.RecentlyUsed

/-!
# The caches of Ethash

`GetCacheAsync` returns the data that the hashes of an epoch are computed with. It
keeps the caches of a few epochs, gives up the one that was used the longest ago, and
generates the cache of the next epoch in advance. The dictionary is protected by a
lock, but a cache is generated and returned outside of it, so that other callers may
have given it up meanwhile.

`EthashLight`, `UbqhashLight`, `Ethashb3Light` and `EtchashLight` differ in the length of
an epoch, which depends on the block for `EtchashLight`.
-/

namespace HashStorm.Crypto

open Machine RecentlyUsed

/-- `Cache`; the handle is that of the data generated for a block. -/
structure Cache where
  epoch : Nat
  lastUsed : Nat
  handle : Option Nat
  isGenerated : Bool
  deriving DecidableEq, Repr

/-- A new cache. -/
def Cache.create (epoch now : Nat) : Cache := ⟨epoch, now, none, false⟩

/-- `Dispose` of a cache. -/
def Cache.dispose (c : Cache) : Cache := { c with handle := none }

/-- `GenerateAsync`; what is generated once is not generated again. -/
def Cache.generate (c : Cache) (epochLength : Nat) : Cache :=
  if c.handle = none ∧ c.isGenerated = false then
    { c with handle := some (c.epoch * epochLength), isGenerated := true }
  else c

/-- The length of an epoch, and the `totalCache` of `Setup`. -/
structure Config where
  epochLength : Nat → Nat
  totalCache : Nat

/-- `numCaches` at the first request. -/
def Config.numCaches (config : Config) : Nat :=
  if config.totalCache = 0 then 3 else config.totalCache

/-- A caller between the lock and its return, with the epochs that were requested since, the
latest first. -/
structure Call where
  block : Nat
  cache : Nat
  since : List Nat
  deriving DecidableEq, Repr

/-- What a caller got, with the epochs that were requested between its request and its return. -/
structure Return where
  block : Nat
  handle : Option Nat
  since : List Nat
  deriving DecidableEq, Repr

/-- All caches that were created, the dictionary of their indices, the one in advance, the tasks
that generate caches in advance, the callers, and the epochs that were requested, the latest
first. -/
structure State where
  heap : List Cache
  caches : List (Nat × Nat)
  future : Option Nat
  started : List (Nat × Nat)
  calls : List Call
  returns : List Return
  history : List Nat
  deriving DecidableEq, Repr

/-- Nothing was requested yet. -/
def State.initial : State := ⟨[], [], none, [], [], [], []⟩

/-- What can happen. -/
inductive Op where
  /-- A caller requests the cache of a block and passes through the lock at a time. -/
  | request (block now : Nat)
  /-- A task generates a cache in advance. -/
  | generate (task : Nat)
  /-- A caller generates its cache, unless it is there, and returns it. -/
  | finish (call : Nat)
  deriving DecidableEq, Repr

/-- When a cache was used last. -/
def State.lastUsed (s : State) (entry : Nat × Nat) : Nat :=
  (s.heap[entry.2]?.map Cache.lastUsed).getD 0

/-- The loop that gives up caches until one more is within the limit; a cache stands under one
key. -/
def State.evict (s : State) (numCaches : Nat) : Nat → State
  | 0 => s
  | rounds + 1 =>
    if numCaches ≤ s.caches.length then
      match s.caches.argmin s.lastUsed with
      | none => s
      | some toEvict =>
        State.evict
          { s with
            heap := s.heap.modify toEvict.2 Cache.dispose
            caches := s.caches.filter (·.1 ≠ toEvict.1) }
          numCaches rounds
    else s

/-- The epoch of the cache in advance. -/
def State.futureEpoch (s : State) : Option Nat :=
  s.future.bind fun i => s.heap[i]?.map Cache.epoch

/-- The cache in advance is put into the dictionary if it is for the epoch, and a new one
otherwise. -/
def State.put (s : State) (epoch now : Nat) : State :=
  if s.futureEpoch = some epoch then
    { s with
      caches := s.caches ++ (s.future.map fun i => (epoch, i)).toList
      future := none }
  else
    { s with
      heap := s.heap ++ [Cache.create epoch now]
      caches := s.caches ++ [(epoch, s.heap.length)] }

/-- The cache of the next epoch is created in advance if there is none or an older one. -/
def State.advance (s : State) (epoch epochLength now : Nat) : State :=
  if s.futureEpoch.all (· ≤ epoch) then
    { s with
      heap := s.heap ++ [Cache.create (epoch + 1) now]
      future := some s.heap.length
      started := s.started ++ [(s.heap.length, epochLength)] }
  else s

/-- The part of `GetCacheAsync` inside the lock. -/
def State.request (config : Config) (s : State) (block now : Nat) : Option State :=
  let epochLength := config.epochLength block
  let epoch := block / epochLength
  let s :=
    if s.caches.any (·.1 = epoch) then s.advance epoch epochLength now
    else (s.evict config.numCaches s.caches.length).put epoch now
  (s.caches.find? (·.1 = epoch)).map fun entry =>
    { s with
      heap := s.heap.modify entry.2 fun c => { c with lastUsed := now }
      calls := (s.calls.map fun call => { call with since := epoch :: call.since }) ++
        [⟨block, entry.2, []⟩]
      history := epoch :: s.history }

variable (config : Config)

/-- One step. -/
def step (s : State) : Op → Option State
  | .request block now => s.request config block now
  | .generate task =>
    s.started[task]?.map fun t =>
      { s with
        heap := s.heap.modify t.1 (Cache.generate · t.2)
        started := s.started.eraseIdx task }
  | .finish call =>
    s.calls[call]?.map fun c =>
      let heap := s.heap.modify c.cache (Cache.generate · (config.epochLength c.block))
      { s with
        heap := heap
        calls := s.calls.eraseIdx call
        returns := s.returns ++ [⟨c.block, heap[c.cache]?.bind Cache.handle, c.since⟩] }

/-- The epochs have one length, and the clock goes on between two requests. -/
def Op.Timely (epochLength : Nat) (s : State) : Op → Prop
  | .request block now => config.epochLength block = epochLength ∧ ∀ c ∈ s.heap, c.lastUsed < now
  | _ => True

instance (epochLength : Nat) (s : State) : ∀ op : Op, Decidable (op.Timely config epochLength s)
  | .request block now => inferInstanceAs
      (Decidable (config.epochLength block = epochLength ∧ ∀ c ∈ s.heap, c.lastUsed < now))
  | .generate _ | .finish _ => inferInstanceAs (Decidable True)

end HashStorm.Crypto
