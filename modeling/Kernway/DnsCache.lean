import Kernway.DnsLookup
import Kernway.Expiry
import Kernway.Table

namespace Kernway.Dns

/-- Times and durations are in nanoseconds. -/
def minTtl : Nat := 1000000000

def maxTtl : Nat := 3600000000000

def softCap : Nat := 1024

/-- The last time that an `Instant` holds. -/
def instantMax : Nat := 9223372036854775807999999999

/-- The sum of an `Instant` and a `Duration`, which panics behind the last `Instant`. -/
def instantAdd (now ttl : Nat) : Option Nat :=
  if now + ttl ≤ instantMax then some (now + ttl) else none

inductive Kind (Addr : Type)
  | positive (ips : List Addr)
  | negative

structure Entry (Addr : Type) where
  kind : Kind Addr
  expires : Nat

structure Cache (Addr : Type) where
  map : Table Text (Entry Addr) := ∅

variable {Addr : Type}

def Kind.cached : Kind Addr → Cached Addr
  | .positive ips => .hit ips
  | .negative => .negative

namespace Cache

variable (cache : Cache Addr)

def get (host : Text) (now : Nat) : Option (Cached Addr) :=
  match cache.map.lookup host with
  | none => none
  | some entry => if entry.expires ≤ now then none else some entry.kind.cached

def maybeSweep (now : Nat) : Cache Addr :=
  if softCap ≤ cache.map.entries.length then
    { map := cache.map.retain fun _ e => decide (now < e.expires) }
  else cache

/-- The two puts. The sweep is made before the expiry is computed, so it stands when that panics. -/
def put (host : Text) (kind : Kind Addr) (ttl now : Nat) : Cache Addr :=
  let swept := cache.maybeSweep now
  match instantAdd now ttl with
  | none => swept
  | some expires => { map := swept.map.insert host { kind, expires } }

def putPositive (host : Text) (ips : List Addr) (ttl now : Nat) : Cache Addr :=
  cache.put host (.positive ips) (max minTtl (min ttl maxTtl)) now

def putNegative (host : Text) (ttl now : Nat) : Cache Addr :=
  cache.put host .negative ttl now

def clear (_ : Cache Addr) : Cache Addr := { map := ∅ }

end Cache

inductive CacheCall (Addr : Type)
  | putPositive (host : Text) (ips : List Addr) (ttl now : Nat)
  | putNegative (host : Text) (ttl now : Nat)
  | clear
  | get (host : Text) (now : Nat)

namespace CacheCall

def after (cache : Cache Addr) : CacheCall Addr → Cache Addr
  | putPositive host ips ttl now => cache.putPositive host ips ttl now
  | putNegative host ttl now => cache.putNegative host ttl now
  | clear => cache.clear
  | get _ _ => cache

def time : CacheCall Addr → Option Nat
  | putPositive _ _ _ now => some now
  | putNegative _ _ now => some now
  | clear => none
  | get _ now => some now

end CacheCall

/-- The cache after some calls. -/
def Cache.run (calls : List (CacheCall Addr)) : Cache Addr := calls.foldl CacheCall.after {}

/-- What is stored under a name, and until when. -/
structure Stored (Addr : Type) where
  found : Cached Addr
  expires : Nat

def Stored.live (now : Nat) (s : Stored Addr) : Bool := decide (now < s.expires)

/-- A map with expiry: each name has what was last put for it, with no sweep and no capacity. -/
abbrev Names (Addr : Type) := Text → Option (Stored Addr)

namespace Names

variable (names : Names Addr)

def put (host : Text) (found : Cached Addr) (ttl now : Nat) : Names Addr := fun host' =>
  if host' = host then
    if now + ttl ≤ instantMax then some ⟨found, now + ttl⟩ else names host
  else names host'

def after : CacheCall Addr → Names Addr
  | .putPositive host ips ttl now => names.put host (.hit ips) (max minTtl (min ttl maxTtl)) now
  | .putNegative host ttl now => names.put host .negative ttl now
  | .clear => fun _ => none
  | .get _ _ => names

/-- What the last put for a name has stored since the last `clear`. -/
def lastPut (calls : List (CacheCall Addr)) : Names Addr := calls.foldl after fun _ => none

/-- The answer of the map: what was last put, before its expiry. -/
def get (host : Text) (now : Nat) : Option (Cached Addr) :=
  match names host with
  | none => none
  | some s => if now < s.expires then some s.found else none

end Names

namespace Cache

variable {cache : Cache Addr} {names : Names Addr}

def held (cache : Cache Addr) : Names Addr := fun host =>
  (cache.map.lookup host).map fun e => ⟨e.kind.cached, e.expires⟩

theorem get_eq (host : Text) (now : Nat) :
    cache.get host now = ((cache.held host).filter (Stored.live now)).map Stored.found := by
  unfold get held
  cases cache.map.lookup host with
  | none => rfl
  | some e =>
    dsimp only
    rw [Option.map_some, Option.filter_some]
    split
    next h => rw [if_neg (by simpa [Stored.live] using h)]; rfl
    next h => rw [if_pos (by simpa [Stored.live] using h)]; rfl

end Cache

theorem Names.get_eq (names : Names Addr) (host : Text) (now : Nat) :
    names.get host now = ((names host).filter (Stored.live now)).map Stored.found := by
  unfold get
  cases names host with
  | none => rfl
  | some s =>
    dsimp only
    rw [Option.filter_some]
    split
    next h => rw [if_pos (by simpa [Stored.live] using h)]; rfl
    next h => rw [if_neg (by simpa [Stored.live] using h)]; rfl

theorem Stored.live_dies : Dies (@Stored.live Addr) := by
  intro now later s hle h
  have hlater : later < s.expires := of_decide_eq_true h
  exact decide_eq_true (by omega)

namespace Cache

variable {cache : Cache Addr} {names : Names Addr} {now : Nat}

/-- A sweep drops dead entries, if it drops any. -/
theorem lags_maybeSweep (h : Lags Stored.live now cache.held names) :
    Lags Stored.live now (cache.maybeSweep now).held names := by
  unfold maybeSweep
  split
  next =>
    refine h.drop fun host => ?_
    show (AList.lookup host (cache.map.retain _)).map _ = _
    rw [Table.lookup_retain]
    unfold held
    cases cache.map.lookup host with
    | none => rfl
    | some e =>
      rw [Option.map_some, Option.filter_some, Option.filter_some]
      unfold Stored.live
      dsimp only
      split <;> rfl
  next => exact h

theorem lags_put (h : Lags Stored.live now cache.held names) (host : Text) (kind : Kind Addr)
    (ttl : Nat) :
    Lags Stored.live now (cache.put host kind ttl now).held
      (names.put host kind.cached ttl now) := by
  have hswept := lags_maybeSweep h
  unfold put instantAdd
  dsimp only
  by_cases hmax : now + ttl ≤ instantMax
  · rw [if_pos hmax]
    refine hswept.set (k := host) (o := some ⟨kind.cached, now + ttl⟩) (fun host' => ?_)
      fun host' => ?_
    · unfold held
      rw [Table.lookup_insert_eq]
      split <;> rfl
    · unfold Names.put
      rw [if_pos hmax]
  · rw [if_neg hmax]
    have hnames : names.put host kind.cached ttl now = names := by
      funext host'
      unfold Names.put
      rw [if_neg hmax]
      split
      next heq => rw [heq]
      next => rfl
    rw [hnames]
    exact hswept

/-- One call, at its time. -/
theorem lags_after (h : Lags Stored.live now cache.held names) {call : CacheCall Addr}
    (htime : ∀ t, call.time = some t → t = now) :
    Lags Stored.live now (call.after cache).held (names.after call) := by
  cases call with
  | putPositive host ips ttl t =>
    cases htime t rfl
    exact lags_put h host (.positive ips) _
  | putNegative host ttl t =>
    cases htime t rfl
    exact lags_put h host .negative ttl
  | clear =>
    have hempty : (cache.clear).held = fun _ => none := rfl
    show Lags _ _ cache.clear.held _
    rw [hempty]
    exact Lags.refl Stored.live now _
  | get host t => exact h

theorem lags_run {calls : List (CacheCall Addr)} (htimed : Timed CacheCall.time calls now) :
    Lags Stored.live now (run calls).held (Names.lastPut calls) := by
  have hstep : ∀ (cache : Cache Addr) names now call, True →
      (∀ t, CacheCall.time call = some t → t = now) → Lags Stored.live now cache.held names →
      Lags Stored.live now (call.after cache).held (Names.after names call) :=
    fun _ _ _ _ _ htime h => lags_after h htime
  exact Lags.run (fun _ => True) Stored.live_dies (fun _ _ h => h) hstep trivial htimed

end Cache

/-- The cache answers as the map with expiry does, and a sweep between the calls changes no
answer. -/
theorem get_run (calls : List (CacheCall Addr)) (host : Text) (now : Nat)
    (h : Timed CacheCall.time calls now) :
    (Cache.run calls).get host now = (Names.lastPut calls).get host now ∧
      ∀ before, before ≤ now →
        ((Cache.run calls).maybeSweep before).get host now = (Cache.run calls).get host now := by
  have hlags := Cache.lags_run h
  refine ⟨?_, fun before hle => ?_⟩
  · rw [Cache.get_eq, Names.get_eq, hlags.filter_eq]
  · have hswept := Cache.lags_maybeSweep (Lags.refl Stored.live before (Cache.run calls).held)
    rw [Cache.get_eq, Cache.get_eq, (hswept.mono Stored.live_dies hle).filter_eq]

/-- A negative answer replaces a positive one, for half a minute. -/
theorem get_run_negative :
    (Cache.run [.putPositive "a".toList [()] 5 0, .putNegative "a".toList 30000000000 7]).get
      "a".toList 8 = some Cached.negative := by
  have h : Timed CacheCall.time [.putPositive "a".toList [()] 5 0,
      .putNegative "a".toList 30000000000 7] 8 := by
    unfold Timed
    decide
  rw [(get_run _ "a".toList 8 h).1]
  rfl

end Kernway.Dns
