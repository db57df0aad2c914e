import Kernway.Runs
import Kernway.Table
import Mathlib.Algebra.Group.Nat.Defs

namespace Kernway

inductive Ttl
  | forever
  | seconds (n : Nat)

/-- `created_at` is in nanoseconds, as the times of the calls are. -/
structure CacheEntry (V : Type) where
  value : V
  createdAt : Nat
  ttl : Ttl

variable {K V : Type}

def CacheEntry.isExpired (now : Nat) (e : CacheEntry V) : Bool :=
  match e.ttl with
  | .forever => false
  | .seconds n => n * 1000000000 ≤ now - e.createdAt

abbrev CacheStore (K V : Type) := Table K (CacheEntry V)

/-- The entries of the store are in the order in which the hash map iterates. -/
structure InMemoryCache (K V : Type) where
  store : CacheStore K V
  capacity : Option Nat
  hits : Nat := 0
  misses : Nat := 0

inductive CacheCall (K V : Type)
  | get (key : K)
  | put (key : K) (value : V) (ttl : Ttl)
  | putIfAbsent (key : K) (value : V) (ttl : Ttl)
  | evict (key : K)
  | clear
  | contains (key : K)
  | size

inductive CacheReply (V : Type)
  | value (found : Option V)
  | flag (b : Bool)
  | done
  | count (n : Nat)

namespace InMemoryCache

variable [DecidableEq K]

def withCapacity (maxEntries : Nat) : InMemoryCache K V where
  store := ∅
  capacity := some (max maxEntries 1)

def purgeExpired (now : Nat) (store : CacheStore K V) : CacheStore K V :=
  store.retain fun _ e => !e.isExpired now

/-- The counters are `AtomicU64`s, which wrap around. -/
def hit (cache : InMemoryCache K V) : InMemoryCache K V :=
  { cache with hits := (cache.hits + 1) % 2 ^ 64 }

def miss (cache : InMemoryCache K V) : InMemoryCache K V :=
  { cache with misses := (cache.misses + 1) % 2 ^ 64 }

def remove (cache : InMemoryCache K V) (key : K) : InMemoryCache K V :=
  { cache with store := cache.store.erase key }

def get (now : Nat) (key : K) (cache : InMemoryCache K V) : Option V × InMemoryCache K V :=
  match cache.store.lookup key with
  | some entry =>
    if entry.isExpired now then (none, (cache.remove key).miss) else (some entry.value, cache.hit)
  | none => (none, cache.miss)

/-- `while store.len() > cap`, with at most `fuel` rounds. -/
def evictDown (cap : Nat) : Nat → CacheStore K V → CacheStore K V
  | 0, store => store
  | fuel + 1, store =>
    if cap < store.entries.length then
      match store.keys.head? with
      | some victim => evictDown cap fuel (store.erase victim)
      | none => store
    else store

def enforce (capacity : Option Nat) (now : Nat) (store : CacheStore K V) : CacheStore K V :=
  match capacity with
  | none => store
  | some cap =>
    if cap < store.entries.length then
      evictDown cap store.entries.length (purgeExpired now store)
    else store

/-- `order` is the iteration order of the hash map once the entry is in it. -/
def put (order : CacheStore K V → CacheStore K V) (now : Nat) (key : K) (value : V) (ttl : Ttl)
    (cache : InMemoryCache K V) : InMemoryCache K V :=
  { cache with
    store := enforce cache.capacity now (order (cache.store.insert key ⟨value, now, ttl⟩)) }

def putIfAbsent (order : CacheStore K V → CacheStore K V) (now : Nat) (key : K) (value : V)
    (ttl : Ttl) (cache : InMemoryCache K V) : Bool × InMemoryCache K V :=
  let store :=
    match cache.store.lookup key with
    | some entry => if entry.isExpired now then cache.store.erase key else cache.store
    | none => cache.store
  match store.lookup key with
  | some _ => (false, { cache with store })
  | none => (true, { cache with store := order (store.insert key ⟨value, now, ttl⟩) })

def contains (now : Nat) (key : K) (cache : InMemoryCache K V) : Bool × InMemoryCache K V :=
  match cache.store.lookup key with
  | some entry => if entry.isExpired now then (false, cache.remove key) else (true, cache)
  | none => (false, cache)

def size (now : Nat) (cache : InMemoryCache K V) : Nat × InMemoryCache K V :=
  let store := purgeExpired now cache.store
  (store.entries.length, { cache with store })

def serve (order : CacheStore K V → CacheStore K V) (now : Nat) (cache : InMemoryCache K V) :
    CacheCall K V → CacheReply V × InMemoryCache K V
  | .get key => ((cache.get now key).map .value id)
  | .put key value ttl => (.done, cache.put order now key value ttl)
  | .putIfAbsent key value ttl => (cache.putIfAbsent order now key value ttl).map .flag id
  | .evict key => (.done, cache.remove key)
  | .clear => (.done, { cache with store := ∅ })
  | .contains key => (cache.contains now key).map .flag id
  | .size => (cache.size now).map .count id

end InMemoryCache

variable [DecidableEq K]

/-- A run of calls. `stored` is what was last stored under each key by a successful insertion and
not evicted or cleared since; `fresh` is the last insertion, where it was a `put` and its key was
not evicted or cleared since. -/
structure CacheRun (K V : Type) where
  cache : InMemoryCache K V
  now : Nat := 0
  stored : K → Option (CacheEntry V) := fun _ => none
  fresh : Option (K × CacheEntry V) := none

structure CacheEvent (K V : Type) where
  call : CacheCall K V
  time : Nat
  order : CacheStore K V → CacheStore K V

namespace CacheRun

def store (s : CacheRun K V) (key : K) (entry : CacheEntry V) (fresh : Option (K × CacheEntry V)) :
    CacheRun K V :=
  { s with
    stored := fun k => if k = key then some entry else s.stored k
    fresh := fresh }

/-- The records of what is stored, after a call and its reply. -/
def record (s : CacheRun K V) (time : Nat) : CacheCall K V → CacheReply V → CacheRun K V
  | .put key value ttl, _ => s.store key ⟨value, time, ttl⟩ (some (key, ⟨value, time, ttl⟩))
  | .putIfAbsent key value ttl, .flag true => s.store key ⟨value, time, ttl⟩ none
  | .evict key, _ =>
    { s with
      stored := fun k => if k = key then none else s.stored k
      fresh := s.fresh.filter fun p => p.1 ≠ key }
  | .clear, _ => { s with stored := fun _ => none, fresh := none }
  | _, _ => s

def after (s : CacheRun K V) (e : CacheEvent K V) : CacheRun K V :=
  let (reply, cache) := s.cache.serve e.order e.time e.call
  { s.record e.time e.call reply with cache, now := e.time }

end CacheRun

/-- A cache of capacity `n`, and calls at times that do not go back, the hash map iterating in any
order. -/
def cacheSystem (K V : Type) [DecidableEq K] (n : Nat) :
    System (CacheRun K V) (CacheEvent K V) where
  start s := s = { cache := .withCapacity n }
  step s e s' := s.now ≤ e.time ∧ (∀ store, (e.order store).entries.Perm store.entries) ∧
    s' = s.after e

/-- A bounded map: within its capacity; `get` answers what was last stored and has not expired; what
was put last is found until it expires; and `put_if_absent` stores where no entry is live. -/
structure CacheRun.Holds (n : Nat) (s : CacheRun K V) : Prop where
  bounded : s.cache.store.entries.length ≤ n
  sound : ∀ key now value, s.now ≤ now → (s.cache.get now key).1 = some value →
    ∃ entry, s.stored key = some entry ∧ entry.value = value ∧ entry.isExpired now = false
  kept : ∀ key entry now, s.fresh = some (key, entry) → s.now ≤ now →
    entry.isExpired now = false → (s.cache.get now key).1 = some entry.value
  absent : ∀ order key value ttl now, (s.cache.putIfAbsent order now key value ttl).1 = true ↔
    ¬ ∃ entry, s.cache.store.lookup key = some entry ∧ entry.isExpired now = false

/-- An insertion finds its key in the store, or room for it: less than `n` entries, or, for `put`,
an expired one among those with the new one. -/
def Room (n : Nat) (s : CacheRun K V) (call : CacheCall K V) (time : Nat) : Prop :=
  match call with
  | .put key _ ttl => key ∈ s.cache.store ∨ s.cache.store.entries.length < n ∨
    (∃ e ∈ s.cache.store.entries, e.2.isExpired time = true) ∨ ttl = .seconds 0
  | .putIfAbsent key _ _ => key ∈ s.cache.store ∨ s.cache.store.entries.length < n
  | _ => True

theorem CacheEntry.isExpired_mono {e : CacheEntry V} {now now' : Nat} (h : e.isExpired now = true)
    (hle : now ≤ now') : e.isExpired now' = true := by
  obtain ⟨value, createdAt, ttl⟩ := e
  cases ttl with
  | forever => cases h
  | seconds n =>
    have hn : n * 1000000000 ≤ now - createdAt := of_decide_eq_true h
    have hn' : n * 1000000000 ≤ now' - createdAt := by omega
    exact decide_eq_true hn'

theorem CacheEntry.not_isExpired_of_le {e : CacheEntry V} {now now' : Nat} (hle : now ≤ now')
    (h : e.isExpired now' = false) : e.isExpired now = false := by
  cases hn : e.isExpired now with
  | false => rfl
  | true =>
    rw [e.isExpired_mono hn hle] at h
    cases h

namespace InMemoryCache

theorem get_eq (cache : InMemoryCache K V) (now : Nat) (key : K) :
    (cache.get now key).1 =
      ((cache.store.lookup key).filter fun e => !e.isExpired now).map CacheEntry.value := by
  unfold get
  cases cache.store.lookup key with
  | none => rfl
  | some entry => cases he : entry.isExpired now <;> simp [he, Option.filter]

theorem evictDown_of_le {cap fuel : Nat} {store : CacheStore K V}
    (h : store.entries.length ≤ cap) : evictDown cap fuel store = store := by
  cases fuel with
  | zero => rfl
  | succ fuel => exact if_neg (Nat.not_lt.mpr h)

theorem lookup_evictDown {cap fuel : Nat} {store : CacheStore K V} {key : K} {e : CacheEntry V}
    (h : (evictDown cap fuel store).lookup key = some e) : store.lookup key = some e := by
  induction fuel generalizing store with
  | zero => exact h
  | succ fuel ih =>
    unfold evictDown at h
    split at h
    next =>
      split at h
      next victim _ =>
        have herase := ih h
        rw [Table.lookup_erase_eq] at herase
        split at herase
        next => cases herase
        next => exact herase
      next => exact h
    next => exact h

theorem lookup_enforce {capacity : Option Nat} {now : Nat} {store : CacheStore K V} {key : K}
    {e : CacheEntry V} (h : (enforce capacity now store).lookup key = some e) :
    store.lookup key = some e := by
  unfold enforce at h
  split at h
  next => exact h
  next cap =>
    split at h
    next =>
      have hpurged := lookup_evictDown h
      rw [purgeExpired, Table.lookup_retain, Option.filter_eq_some_iff] at hpurged
      exact hpurged.1
    next => exact h

/-- With room for all but what has expired, nothing else is evicted. -/
theorem enforce_of_room {cap now : Nat} {store : CacheStore K V}
    (h : (purgeExpired now store).entries.length ≤ cap) :
    (enforce (some cap) now store).entries.length ≤ cap ∧
      ∀ key e, store.lookup key = some e → e.isExpired now = false →
        (enforce (some cap) now store).lookup key = some e := by
  unfold enforce
  dsimp only
  split
  next =>
    rw [evictDown_of_le h]
    refine ⟨h, fun key e hlook he => ?_⟩
    rw [purgeExpired, Table.lookup_retain, hlook, Option.filter_eq_some_iff]
    exact ⟨rfl, by simp [he]⟩
  next hle => exact ⟨Nat.not_lt.mp hle, fun _ _ hlook _ => hlook⟩

/-- With no room, the first entry in the order is evicted. -/
theorem enforce_of_full {cap now : Nat} {store : CacheStore K V} {key : K} {e : CacheEntry V}
    {rest : List (Sigma fun _ : K => CacheEntry V)} (hentries : store.entries = ⟨key, e⟩ :: rest)
    (hcap : cap < store.entries.length) (hlive : ∀ e ∈ store.entries, e.2.isExpired now = false) :
    (enforce (some cap) now store).lookup key = none := by
  have hpurged : purgeExpired now store = store := by
    refine AList.ext ?_
    show store.entries.filter _ = store.entries
    exact List.filter_eq_self.mpr fun e he => by simp [hlive e he]
  unfold enforce
  dsimp only
  rw [if_pos hcap, hpurged]
  obtain ⟨fuel, hfuel⟩ : ∃ fuel, store.entries.length = fuel + 1 :=
    ⟨rest.length, by rw [hentries]; rfl⟩
  rw [hfuel]
  unfold evictDown
  rw [if_pos hcap]
  have hhead : store.keys.head? = some key := by
    unfold AList.keys
    rw [hentries]
    rfl
  rw [hhead]
  cases hlook : (evictDown cap fuel (store.erase key)).lookup key with
  | none => rfl
  | some e' =>
    have herase := lookup_evictDown hlook
    rw [AList.lookup_erase] at herase
    cases herase

theorem lookup_putIfAbsent (order : CacheStore K V → CacheStore K V) (now : Nat) (key : K)
    (value : V) (ttl : Ttl) (cache : InMemoryCache K V) :
    (cache.putIfAbsent order now key value ttl).1 = true ↔
      ¬ ∃ entry, cache.store.lookup key = some entry ∧ entry.isExpired now = false := by
  unfold putIfAbsent
  cases hlook : cache.store.lookup key with
  | none => simp [hlook]
  | some entry =>
    cases he : entry.isExpired now with
    | true => simp [he, AList.lookup_erase]
    | false => simp [he, hlook]

/-- What a lookup leaves: the store, without the key's entry where that has expired. -/
def LeftBy (cache : InMemoryCache K V) (now : Nat) (key : K) (cache' : InMemoryCache K V) : Prop :=
  cache'.capacity = cache.capacity ∧ (cache'.store = cache.store ∨
    (∀ e, cache.store.lookup key = some e → e.isExpired now = true) ∧
      cache'.store = cache.store.erase key)

theorem leftBy_get (cache : InMemoryCache K V) (now : Nat) (key : K) :
    cache.LeftBy now key (cache.get now key).2 := by
  unfold get
  cases hlook : cache.store.lookup key with
  | none => exact ⟨rfl, .inl rfl⟩
  | some entry =>
    dsimp only
    split
    next he =>
      refine ⟨rfl, .inr ⟨fun e hlook' => ?_, rfl⟩⟩
      rw [hlook] at hlook'
      cases hlook'
      exact he
    next => exact ⟨rfl, .inl rfl⟩

theorem leftBy_contains (cache : InMemoryCache K V) (now : Nat) (key : K) :
    cache.LeftBy now key (cache.contains now key).2 := by
  unfold contains
  cases hlook : cache.store.lookup key with
  | none => exact ⟨rfl, .inl rfl⟩
  | some entry =>
    dsimp only
    split
    next he =>
      refine ⟨rfl, .inr ⟨fun e hlook' => ?_, rfl⟩⟩
      rw [hlook] at hlook'
      cases hlook'
      exact he
    next => exact ⟨rfl, .inl rfl⟩

theorem putIfAbsent_of_live (order : CacheStore K V → CacheStore K V) {now : Nat} {key : K}
    (value : V) (ttl : Ttl) {cache : InMemoryCache K V} {entry : CacheEntry V}
    (hlook : cache.store.lookup key = some entry) (hlive : entry.isExpired now = false) :
    cache.putIfAbsent order now key value ttl = (false, cache) := by
  simp [putIfAbsent, hlook, hlive]

theorem putIfAbsent_of_absent (order : CacheStore K V → CacheStore K V) {now : Nat} {key : K}
    (value : V) (ttl : Ttl) {cache : InMemoryCache K V}
    (h : ∀ entry, cache.store.lookup key = some entry → entry.isExpired now = true) :
    cache.putIfAbsent order now key value ttl =
      (true, { cache with
        store := order ((cache.store.erase key).insert key ⟨value, now, ttl⟩) }) := by
  unfold putIfAbsent
  cases hlook : cache.store.lookup key with
  | none =>
    have herase : cache.store.erase key = cache.store := by
      refine AList.ext ?_
      exact List.kerase_of_notMem_keys (AList.lookup_eq_none.mp hlook)
    simp only [hlook, herase]
  | some entry => simp [h entry hlook, AList.lookup_erase]

theorem serve_putIfAbsent_of_absent (order : CacheStore K V → CacheStore K V) {now : Nat} {key : K}
    (value : V) (ttl : Ttl) {cache : InMemoryCache K V}
    (h : ∀ entry, cache.store.lookup key = some entry → entry.isExpired now = true) :
    cache.serve order now (.putIfAbsent key value ttl) =
      (.flag true, { cache with
        store := order ((cache.store.erase key).insert key ⟨value, now, ttl⟩) }) := by
  show Prod.map _ _ (cache.putIfAbsent order now key value ttl) = _
  rw [putIfAbsent_of_absent order value ttl h]
  rfl

end InMemoryCache

/-- What a run keeps: the store holds what was stored, and what was put last unless it expired. -/
structure CacheRun.Sound (n : Nat) (s : CacheRun K V) : Prop where
  capacity : s.cache.capacity = some n
  bounded : s.cache.store.entries.length ≤ n
  stored : ∀ key entry, s.cache.store.lookup key = some entry → s.stored key = some entry
  fresh : ∀ key entry, s.fresh = some (key, entry) →
    s.cache.store.lookup key = some entry ∨ entry.isExpired s.now = true

namespace CacheRun

variable {n : Nat} {s : CacheRun K V}

theorem after_of_serve {e : CacheEvent K V} {reply : CacheReply V} {cache : InMemoryCache K V}
    (h : s.cache.serve e.order e.time e.call = (reply, cache)) :
    s.after e = { s.record e.time e.call reply with cache, now := e.time } := by
  unfold CacheRun.after
  rw [h]

theorem Sound.holds (h : s.Sound n) : s.Holds n where
  bounded := h.bounded
  sound := by
    intro key now value _ hget
    rw [InMemoryCache.get_eq, Option.map_eq_some_iff] at hget
    obtain ⟨entry, hentry, hvalue⟩ := hget
    rw [Option.filter_eq_some_iff] at hentry
    exact ⟨entry, h.stored key entry hentry.1, hvalue, by simpa using hentry.2⟩
  kept := by
    intro key entry now hfresh hle hlive
    have hlook := (h.fresh key entry hfresh).resolve_right (by
      rw [entry.not_isExpired_of_le hle hlive]
      exact Bool.false_ne_true)
    rw [InMemoryCache.get_eq, hlook]
    simp [Option.filter, hlive]
  absent := fun order key value ttl now =>
    InMemoryCache.lookup_putIfAbsent order now key value ttl s.cache

/-- A call that removes only what has expired. -/
theorem Sound.of_purge (h : s.Sound n) {time : Nat} (hle : s.now ≤ time) {cache : InMemoryCache K V}
    (hcap : cache.capacity = s.cache.capacity)
    (hlen : cache.store.entries.length ≤ s.cache.store.entries.length)
    (hsub : ∀ key e, cache.store.lookup key = some e → s.cache.store.lookup key = some e)
    (hkeep : ∀ key e, s.cache.store.lookup key = some e → e.isExpired time = false →
      cache.store.lookup key = some e) :
    Sound n { s with cache, now := time } where
  capacity := hcap.trans h.capacity
  bounded := Nat.le_trans hlen h.bounded
  stored := fun key entry hlook => h.stored key entry (hsub key entry hlook)
  fresh := by
    intro key entry hfresh
    cases he : entry.isExpired time with
    | true => exact .inr rfl
    | false =>
      have hnow := entry.not_isExpired_of_le hle he
      refine .inl (hkeep key entry ((h.fresh key entry hfresh).resolve_right ?_) he)
      rw [hnow]
      exact Bool.false_ne_true

theorem Sound.of_lookup (h : s.Sound n) {time : Nat} (hle : s.now ≤ time)
    {cache : InMemoryCache K V} {key : K} (hleft : s.cache.LeftBy time key cache) :
    Sound n { s with cache, now := time } := by
  obtain ⟨hcap, hstore | ⟨hexpired, hstore⟩⟩ := hleft
  · refine h.of_purge hle hcap ?_ (fun k e hlook => ?_) fun k e hlook _ => ?_
    · rw [hstore]
    · rw [hstore] at hlook
      exact hlook
    · rw [hstore]
      exact hlook
  · refine h.of_purge hle hcap ?_ (fun k e hlook => ?_) fun k e hlook he => ?_
    · rw [hstore]
      exact Table.length_erase_le s.cache.store key
    · rw [hstore, Table.lookup_erase_eq] at hlook
      split at hlook
      next => cases hlook
      next => exact hlook
    · rw [hstore, Table.lookup_erase_eq]
      split
      next hk =>
        rw [hk] at hlook
        rw [hexpired e hlook] at he
        cases he
      next => exact hlook

/-- An insertion after which the store is within its capacity, and holds what it held and had not
expired. -/
theorem Sound.of_insert (h : s.Sound n) {time : Nat} {cache : InMemoryCache K V} {key : K}
    {entry : CacheEntry V} (hcap : cache.capacity = s.cache.capacity) (hlen : cache.store.entries.length ≤ n)
    (hsub : ∀ k e, cache.store.lookup k = some e →
      (s.cache.store.insert key entry).lookup k = some e) {fresh : Option (K × CacheEntry V)}
    (hfresh : ∀ k e, fresh = some (k, e) →
      cache.store.lookup k = some e ∨ e.isExpired time = true) :
    Sound n { s.store key entry fresh with cache, now := time } where
  capacity := hcap.trans h.capacity
  bounded := hlen
  stored := by
    intro k e hlook
    have hinsert := hsub k e hlook
    rw [Table.lookup_insert_eq] at hinsert
    show (if k = key then some entry else s.stored k) = some e
    split at hinsert
    next hk => rw [if_pos hk, hinsert]
    next hk => rw [if_neg hk, h.stored k e hinsert]
  fresh := hfresh

/-- A call that finds room keeps the run sound. -/
theorem Sound.after (h : s.Sound n) {e : CacheEvent K V} (hle : s.now ≤ e.time)
    (horder : ∀ store, (e.order store).entries.Perm store.entries)
    (hroom : Room n s e.call e.time) : (s.after e).Sound n := by
  have hlookup : ∀ store k, (e.order store).lookup k = store.lookup k :=
    fun store k => AList.perm_lookup (horder store)
  have hlength : ∀ store, (e.order store).entries.length = store.entries.length :=
    fun store => (horder store).length_eq
  unfold CacheRun.after
  cases hcall : e.call with
  | get key => exact h.of_lookup hle (s.cache.leftBy_get e.time key)
  | contains key => exact h.of_lookup hle (s.cache.leftBy_contains e.time key)
  | size =>
    refine h.of_purge hle rfl (Table.length_retain_le _ _) (fun k entry hlook => ?_)
      fun k entry hlook he => ?_
    · exact (Option.filter_eq_some_iff.mp ((Table.lookup_retain _ _ k).symm.trans hlook)).1
    · refine (Table.lookup_retain _ _ k).trans (Option.filter_eq_some_iff.mpr ⟨hlook, ?_⟩)
      simp [he]
  | evict key =>
    refine ⟨h.capacity, Nat.le_trans (Table.length_erase_le _ key) h.bounded, ?_, ?_⟩
    · intro k entry hlook
      have herase : (s.cache.store.erase key).lookup k = some entry := hlook
      rw [Table.lookup_erase_eq] at herase
      show (if k = key then none else s.stored k) = some entry
      split at herase
      next => cases herase
      next hk => rw [if_neg hk, h.stored k entry herase]
    · intro k entry hfresh
      have hfilter : s.fresh.filter (fun p => p.1 ≠ key) = some (k, entry) := hfresh
      rw [Option.filter_eq_some_iff] at hfilter
      have hk : k ≠ key := by simpa using hfilter.2
      refine (h.fresh k entry hfilter.1).imp (fun hlook => ?_) fun he => entry.isExpired_mono he hle
      show (s.cache.store.erase key).lookup k = some entry
      rw [Table.lookup_erase_eq, if_neg hk, hlook]
  | clear =>
    refine ⟨h.capacity, Nat.zero_le _, fun k entry hlook => ?_, fun k entry hfresh => ?_⟩
    · cases hlook
    · cases hfresh
  | put key value ttl =>
    rw [hcall] at hroom
    let entry : CacheEntry V := ⟨value, e.time, ttl⟩
    let inserted := e.order (s.cache.store.insert key entry)
    have hpurged : (InMemoryCache.purgeExpired e.time inserted).entries.length ≤ n := by
      have hle' : (InMemoryCache.purgeExpired e.time inserted).entries.length ≤
          inserted.entries.length := Table.length_retain_le _ _
      have hins : inserted.entries.length = (s.cache.store.insert key entry).entries.length :=
        hlength _
      have hgrow := Table.length_insert_le s.cache.store key entry
      have hbound := h.bounded
      -- an expired entry makes room for the new one
      have hexpired : (∃ x ∈ inserted.entries, x.2.isExpired e.time = true) →
          (InMemoryCache.purgeExpired e.time inserted).entries.length < inserted.entries.length := by
        rintro ⟨x, hx, hxe⟩
        exact List.length_filter_lt_length_iff_exists.mpr ⟨x, hx, by simp [hxe]⟩
      rcases hroom with hmem | hroom | ⟨x, hx, hxe⟩ | hzero
      · have hsame := Table.length_insert_of_mem s.cache.store hmem entry
        omega
      · omega
      · by_cases hmem : key ∈ s.cache.store
        · have hsame := Table.length_insert_of_mem s.cache.store hmem entry
          omega
        · have hxin : x ∈ inserted.entries := by
            refine (horder _).mem_iff.mpr ?_
            rw [AList.entries_insert_of_notMem hmem]
            exact List.mem_cons_of_mem _ hx
          have hlt := hexpired ⟨x, hxin, hxe⟩
          omega
      · have hself : (⟨key, entry⟩ : Sigma fun _ : K => CacheEntry V) ∈ inserted.entries :=
          (horder _).mem_iff.mpr (List.mem_cons_self)
        have hlt := hexpired ⟨_, hself, by
          show CacheEntry.isExpired e.time ⟨value, e.time, ttl⟩ = true
          rw [hzero]
          simp [CacheEntry.isExpired]⟩
        omega
    obtain ⟨hlen, hkeep⟩ := InMemoryCache.enforce_of_room hpurged
    have hstore : (s.cache.put e.order e.time key value ttl).store =
        InMemoryCache.enforce (some n) e.time inserted := by
      show InMemoryCache.enforce s.cache.capacity _ _ = _
      rw [h.capacity]
    refine h.of_insert ?_ ?_ (fun k x hlook => ?_) fun k x hfresh => ?_
    · rfl
    · rw [hstore]
      exact hlen
    · rw [hstore] at hlook
      exact (hlookup _ k).symm.trans (InMemoryCache.lookup_enforce hlook)
    · cases hfresh
      cases he : entry.isExpired e.time with
      | true => exact .inr rfl
      | false =>
        refine .inl ?_
        rw [hstore]
        exact hkeep key entry ((hlookup _ key).trans (AList.lookup_insert _)) he
  | putIfAbsent key value ttl =>
    rw [hcall] at hroom
    by_cases hlive : ∃ entry, s.cache.store.lookup key = some entry ∧
        entry.isExpired e.time = false
    · obtain ⟨entry, hlook, hlive⟩ := hlive
      have hserve : s.cache.serve e.order e.time (.putIfAbsent key value ttl) =
          (.flag false, s.cache) := by
        show Prod.map _ _ (s.cache.putIfAbsent e.order e.time key value ttl) = _
        rw [InMemoryCache.putIfAbsent_of_live e.order value ttl hlook hlive]
        rfl
      rw [hserve]
      exact h.of_purge hle rfl (Nat.le_refl _) (fun _ _ h => h) fun _ _ h _ => h
    · have hexpired : ∀ entry, s.cache.store.lookup key = some entry →
          entry.isExpired e.time = true := by
        intro entry hlook
        by_contra hn
        exact hlive ⟨entry, hlook, Bool.eq_false_iff.mpr hn⟩
      have hserve := InMemoryCache.serve_putIfAbsent_of_absent e.order value ttl hexpired
      rw [hserve]
      refine h.of_insert ?_ ?_ (fun k x hlook => ?_) fun k x hfresh => ?_
      · rfl
      · show (e.order _).entries.length ≤ n
        rw [hlength]
        have hgrow := Table.length_insert_le (s.cache.store.erase key) key ⟨value, e.time, ttl⟩
        have hbound := h.bounded
        rcases hroom with hmem | hroom
        · have hsame := Table.length_insert_of_mem s.cache.store hmem ⟨value, e.time, ttl⟩
          have hcons : (s.cache.store.insert key ⟨value, e.time, ttl⟩).entries.length =
              (s.cache.store.erase key).entries.length + 1 := rfl
          omega
        · have herase := Table.length_erase_le s.cache.store key
          omega
      · have hinsert := (hlookup _ k).symm.trans hlook
        rw [Table.lookup_insert_eq] at hinsert ⊢
        split at hinsert
        next hk => rw [if_pos hk, hinsert]
        next hk =>
          rw [Table.lookup_erase_eq, if_neg hk] at hinsert
          rw [if_neg hk, hinsert]
      · cases hfresh

/-- Without room some iteration order breaks the promise: the new entry is its own victim, or the
store grows over its capacity. -/
theorem Sound.not_holds (h : s.Sound n) {call : CacheCall K V} {time : Nat}
    (hroom : ¬ Room n s call time) :
    ∃ order : CacheStore K V → CacheStore K V, (∀ store, (order store).entries.Perm store.entries) ∧
      ¬ (s.after ⟨call, time, order⟩).Holds n := by
  refine ⟨id, fun _ => List.Perm.refl _, fun hholds => hroom ?_⟩
  cases call with
  | put key value ttl =>
    by_contra hfull
    unfold Room at hfull
    simp only [not_or, not_exists, not_and, Bool.not_eq_true] at hfull
    obtain ⟨hmem, hlen, hold, hzero⟩ := hfull
    let entry : CacheEntry V := ⟨value, time, ttl⟩
    have hentries : (s.cache.store.insert key entry).entries =
        ⟨key, entry⟩ :: s.cache.store.entries := AList.entries_insert_of_notMem hmem
    have hlive : entry.isExpired time = false := by
      cases ht : ttl with
      | forever => simp [entry, ht, CacheEntry.isExpired]
      | seconds m =>
        have hm : 0 < m := Nat.pos_of_ne_zero fun h0 => hzero (by rw [ht, h0])
        simp only [entry, ht, CacheEntry.isExpired, Nat.sub_self, decide_eq_false_iff_not]
        omega
    have hnone : (InMemoryCache.enforce (some n) time (s.cache.store.insert key entry)).lookup key =
        none := by
      refine InMemoryCache.enforce_of_full hentries ?_ ?_
      · rw [hentries, List.length_cons]
        omega
      · rw [hentries]
        intro x hx
        rcases List.mem_cons.mp hx with rfl | hx
        · exact hlive
        · exact hold x hx
    have hkept := hholds.kept key entry time rfl (Nat.le_refl _) hlive
    rw [InMemoryCache.get_eq] at hkept
    have hstore : (s.after ⟨.put key value ttl, time, id⟩).cache.store =
        InMemoryCache.enforce (some n) time (s.cache.store.insert key entry) := by
      show InMemoryCache.enforce s.cache.capacity _ _ = _
      rw [h.capacity]
      rfl
    rw [hstore, hnone] at hkept
    cases hkept
  | putIfAbsent key value ttl =>
    by_contra hfull
    unfold Room at hfull
    obtain ⟨hmem, hlen⟩ := not_or.mp hfull
    have hnone : s.cache.store.lookup key = none := AList.lookup_eq_none.mpr hmem
    have habsent : ∀ entry, s.cache.store.lookup key = some entry → entry.isExpired time = true := by
      intro entry hlook
      rw [hnone] at hlook
      cases hlook
    have hserve := InMemoryCache.serve_putIfAbsent_of_absent id value ttl habsent
    have hbound := hholds.bounded
    rw [after_of_serve hserve] at hbound
    have herase : s.cache.store.erase key = s.cache.store :=
      AList.ext (List.kerase_of_notMem_keys hmem)
    have hcons : ((s.cache.store.erase key).insert key ⟨value, time, ttl⟩).entries.length =
        s.cache.store.entries.length + 1 := by
      rw [herase, AList.entries_insert_of_notMem hmem, List.length_cons]
    have hover : ((s.cache.store.erase key).insert key ⟨value, time, ttl⟩).entries.length ≤ n := hbound
    omega
  | _ => trivial

end CacheRun

theorem sound_of_room {n : Nat} (hn : 1 ≤ n) {s : CacheRun K V}
    (h : (cacheSystem K V n).Reach (fun s e => Room n s e.call e.time) s) : s.Sound n := by
  refine System.Reach.invariant ?_ ?_ h
  · rintro _ rfl
    refine ⟨congrArg some (by omega), Nat.zero_le _, ?_, ?_⟩
    · intro key entry hlook
      cases hlook
    · intro key entry hfresh
      cases hfresh
  · rintro s e s' hs hroom ⟨hle, horder, rfl⟩
    exact hs.after hle horder hroom

/-- The cache is a bounded map as long as insertions find room; and where one does not, some
iteration order breaks it. -/
theorem cache_of_room (K V : Type) [DecidableEq K] (n : Nat) (hn : 1 ≤ n) (s : CacheRun K V)
    (h : (cacheSystem K V n).Reach (fun s e => Room n s e.call e.time) s) :
    s.Holds n ∧ ∀ call time, s.now ≤ time →
      ((∀ order : CacheStore K V → CacheStore K V,
          (∀ store, (order store).entries.Perm store.entries) →
          (s.after ⟨call, time, order⟩).Holds n) ↔ Room n s call time) := by
  have hs := sound_of_room hn h
  refine ⟨hs.holds, fun call time hle => ⟨fun hall => ?_, fun hroom order horder => ?_⟩⟩
  · by_contra hroom
    obtain ⟨order, horder, hnot⟩ := hs.not_holds hroom
    exact hnot (hall order horder)
  · exact (CacheRun.Sound.after hs (e := ⟨call, time, order⟩) hle horder hroom).holds

/-- A first `put` fits a capacity of one. -/
theorem cache_of_room_put : ((CacheRun.mk (.withCapacity 1) 0 (fun _ => none) none :
    CacheRun Nat Nat).after ⟨.put 1 10 .forever, 5, id⟩).Holds 1 := by
  refine (cache_of_room Nat Nat 1 (by decide) _ ?_).1
  refine .step (.start rfl) ?_ ⟨Nat.zero_le 5, fun _ => List.Perm.refl _, rfl⟩
  exact .inr (.inl Nat.zero_lt_one)

/-- Whatever is called and in whatever order the hash map iterates, the cache is a bounded map. -/
def AlwaysBounded : Prop :=
  ∀ (n : Nat) (s : CacheRun Nat Nat), 1 ≤ n →
    (cacheSystem Nat Nat n).Reach (fun _ _ => True) s → s.Holds n

/-- Two `put_if_absent` on a cache of capacity one leave two entries in it. -/
theorem not_alwaysBounded : ¬ AlwaysBounded := by
  intro h
  let first : CacheEvent Nat Nat := ⟨.putIfAbsent 1 10 .forever, 0, id⟩
  let second : CacheEvent Nat Nat := ⟨.putIfAbsent 2 20 .forever, 0, id⟩
  let start : CacheRun Nat Nat := ⟨.withCapacity 1, 0, fun _ => none, none⟩
  have hfirst : (cacheSystem Nat Nat 1).Reach (fun _ _ => True) (start.after first) :=
    .step (.start rfl) trivial ⟨Nat.zero_le _, fun _ => List.Perm.refl _, rfl⟩
  have hsecond : (cacheSystem Nat Nat 1).Reach (fun _ _ => True) ((start.after first).after second) :=
    .step hfirst trivial ⟨Nat.zero_le _, fun _ => List.Perm.refl _, rfl⟩
  have hbound := (h 1 _ (by decide) hsecond).bounded
  have hlength : ((start.after first).after second).cache.store.entries.length = 2 := by decide
  omega

end Kernway
