import Kernway.Bans
import Mathlib.Tactic.Linarith
import Mathlib.Tactic.Positivity
import Mathlib.Tactic.NormNum

namespace Kernway

/-- `BanList::add_ip`. -/
def BanList.addIp (bans : BanList) (ip : IpAddr) : BanList :=
  if .ip ip ∈ bans.rules then bans else ⟨bans.rules ++ [.ip ip]⟩

namespace RateLimit

def idleEvictMs : Nat := 300000

structure Duration where
  secs : UInt64
  nanos : UInt32

def Duration.asSecs (period : Duration) : ℚ := period.secs.toNat + period.nanos.toNat / 1000000000

/-- One client's bucket, its tokens as an exact number. -/
structure Bucket where
  tokens : ℚ
  lastMs : Nat
  violations : UInt32

structure State where
  buckets : IpAddr → Option Bucket := fun _ => none
  seen : Nat := 0
  bans : BanList := ⟨[]⟩

/-- A limiter; `ban` is the number of throttled requests after which a client is banned. -/
structure Limiter where
  capacity : ℚ
  refillPerSec : ℚ
  ban : Option UInt32 := none

namespace Limiter

def new (maxRequests : UInt32) (period : Duration) : Limiter :=
  let capacity : ℚ := (max maxRequests 1).toNat
  { capacity, refillPerSec := capacity / max period.asSecs (1 / 1000) }

def burst (limit : Limiter) (capacity : UInt32) : Limiter :=
  { limit with capacity := (max capacity 1).toNat }

def banAfter (limit : Limiter) (violations : UInt32) : Limiter :=
  { limit with ban := some (max violations 1) }

end Limiter

def seconds (ms : Nat) : ℚ := ms / 1000

/-- The occasional eviction of idle buckets. -/
def sweep (seen nowMs : Nat) (buckets : IpAddr → Option Bucket) : IpAddr → Option Bucket :=
  if seen % 4096 = 0 then fun ip => (buckets ip).filter fun b => nowMs - b.lastMs < idleEvictMs
  else buckets

/-- A bucket with the tokens of the elapsed time. -/
def Limiter.refilled (limit : Limiter) (nowMs : Nat) (bucket : Bucket) : Bucket :=
  let tokens := bucket.tokens + seconds (nowMs - bucket.lastMs) * limit.refillPerSec
  { bucket with tokens := min tokens limit.capacity, lastMs := nowMs }

/-- `allow_at`. -/
def Limiter.allowAt (limit : Limiter) (s : State) (ip : IpAddr) (nowMs : Nat) : Bool × State :=
  let seen := (s.seen + 1) % 2 ^ 64
  let buckets := sweep seen nowMs s.buckets
  let bucket := limit.refilled nowMs ((buckets ip).getD ⟨limit.capacity, nowMs, 0⟩)
  let put (bucket : Bucket) (bans : BanList) : State :=
    ⟨Function.update buckets ip (some bucket), seen, bans⟩
  if 1 ≤ bucket.tokens then (true, put { bucket with tokens := bucket.tokens - 1 } s.bans)
  else match limit.ban with
    | none => (false, put bucket s.bans)
    | some threshold =>
      let violations := bucket.violations + 1
      let bans := if threshold ≤ violations then s.bans.addIp ip else s.bans
      (false, put { bucket with violations } bans)

structure Call where
  ip : IpAddr
  nowMs : Nat

def Limiter.after (limit : Limiter) (s : State) (calls : List Call) : State :=
  calls.foldl (fun s call => (limit.allowAt s call.ip call.nowMs).2) s

/-- The calls of a run that are answered true. -/
def Limiter.allowed (limit : Limiter) (s : State) : List Call → List Call
  | [] => []
  | call :: calls =>
    let (ok, s) := limit.allowAt s call.ip call.nowMs
    if ok then call :: limit.allowed s calls else limit.allowed s calls

/-- How many of some calls are of a client and in the window of `d` seconds from `start` on. -/
def countIn (ip : IpAddr) (start d : ℚ) (calls : List Call) : Nat :=
  calls.countP fun call =>
    call.ip = ip ∧ start ≤ seconds call.nowMs ∧ seconds call.nowMs ≤ start + d

/-- In no window a client is granted more than the capacity and what is refilled meanwhile. -/
def Limiter.Bounds (limit : Limiter) : Prop :=
  ∀ calls : List Call, calls.Pairwise (fun a b => a.nowMs ≤ b.nowMs) →
    ∀ (ip : IpAddr) (start d : ℚ), 0 ≤ d →
      countIn ip start d (limit.allowed {} calls) ≤ limit.capacity + limit.refillPerSec * d

/-- What a client could be granted at once at a time. -/
def Limiter.available (limit : Limiter) (s : State) (ip : IpAddr) (nowMs : Nat) : ℚ :=
  match s.buckets ip with
  | none => limit.capacity
  | some bucket => (limit.refilled nowMs bucket).tokens

theorem seconds_nonneg (ms : Nat) : 0 ≤ seconds ms := by
  unfold seconds
  positivity

theorem seconds_le {a b : Nat} (h : a ≤ b) : seconds a ≤ seconds b := by
  have hcast : (a : ℚ) ≤ b := by exact_mod_cast h
  unfold seconds
  linarith

theorem seconds_sub {a b : Nat} (h : a ≤ b) : seconds (b - a) = seconds b - seconds a := by
  unfold seconds
  rw [Nat.cast_sub h, sub_div]

/-- What `new` and `burst` make of a limiter. -/
structure Limiter.Positive (limit : Limiter) : Prop where
  capacity : 1 ≤ limit.capacity
  refill : 0 ≤ limit.refillPerSec

/-- Whether an idle bucket is full again when it may be evicted. -/
def Limiter.RefillsIdle (limit : Limiter) : Prop :=
  limit.capacity ≤ limit.refillPerSec * seconds idleEvictMs

/-- No bucket is ahead of the time, overdrawn or over-full. -/
def Fair (limit : Limiter) (s : State) (nowMs : Nat) : Prop :=
  ∀ ip bucket, s.buckets ip = some bucket →
    bucket.lastMs ≤ nowMs ∧ 0 ≤ bucket.tokens ∧ bucket.tokens ≤ limit.capacity

section Bound

variable {limit : Limiter} {s : State} {ip ip' : IpAddr} {t now : Nat}

theorem Fair.later (h : Fair limit s t) (ht : t ≤ now) : Fair limit s now := by
  intro ip bucket hbucket
  obtain ⟨hlast, htokens⟩ := h ip bucket hbucket
  exact ⟨hlast.trans ht, htokens⟩

theorem sweep_eq_some {seen : Nat} {buckets : IpAddr → Option Bucket} {bucket : Bucket}
    (h : sweep seen now buckets ip = some bucket) : buckets ip = some bucket := by
  unfold sweep at h
  split at h
  next => exact (Option.filter_eq_some_iff.mp h).1
  next => exact h

theorem sweep_eq_none {seen : Nat} {buckets : IpAddr → Option Bucket} {bucket : Bucket}
    (hbucket : buckets ip = some bucket) (h : sweep seen now buckets ip = none) :
    idleEvictMs ≤ now - bucket.lastMs := by
  unfold sweep at h
  split at h
  next =>
    dsimp only at h
    rw [hbucket, Option.filter_eq_none_iff] at h
    have hidle := h bucket rfl
    simp only [decide_eq_true_eq] at hidle
    omega
  next =>
    rw [hbucket] at h
    cases h

/-- The bucket a call works on, refilled. -/
def Limiter.bucketAt (limit : Limiter) (s : State) (ip : IpAddr) (nowMs : Nat) : Bucket :=
  limit.refilled nowMs ((sweep ((s.seen + 1) % 2 ^ 64) nowMs s.buckets ip).getD
    ⟨limit.capacity, nowMs, 0⟩)

/-- What a call answers and leaves: at least one token is taken, or none was there. -/
theorem allowAt_cases (limit : Limiter) (s : State) (ip : IpAddr) (nowMs : Nat) :
    ∃ bucket ok, (limit.allowAt s ip nowMs).1 = ok ∧
      (limit.allowAt s ip nowMs).2.buckets =
        Function.update (sweep ((s.seen + 1) % 2 ^ 64) nowMs s.buckets) ip (some bucket) ∧
      (limit.allowAt s ip nowMs).2.seen = (s.seen + 1) % 2 ^ 64 ∧ bucket.lastMs = nowMs ∧
      ((ok = true ∧ 1 ≤ (limit.bucketAt s ip nowMs).tokens ∧
          bucket.tokens = (limit.bucketAt s ip nowMs).tokens - 1) ∨
        (ok = false ∧ (limit.bucketAt s ip nowMs).tokens < 1 ∧
          bucket.tokens = (limit.bucketAt s ip nowMs).tokens)) := by
  unfold Limiter.allowAt
  dsimp only
  split
  next htoken => exact ⟨_, true, rfl, rfl, rfl, rfl, .inl ⟨rfl, htoken, rfl⟩⟩
  next htoken =>
    split
    next => exact ⟨_, false, rfl, rfl, rfl, rfl, .inr ⟨rfl, not_le.mp htoken, rfl⟩⟩
    next => exact ⟨_, false, rfl, rfl, rfl, rfl, .inr ⟨rfl, not_le.mp htoken, rfl⟩⟩

theorem refilled_tokens (limit : Limiter) (nowMs : Nat) (bucket : Bucket) :
    (limit.refilled nowMs bucket).tokens =
      min (bucket.tokens + seconds (nowMs - bucket.lastMs) * limit.refillPerSec) limit.capacity :=
  rfl

theorem refilled_new : (limit.refilled now ⟨limit.capacity, now, 0⟩).tokens = limit.capacity := by
  rw [refilled_tokens, Nat.sub_self]
  have hzero : seconds 0 = 0 := by
    unfold seconds
    norm_num
  rw [hzero, zero_mul, add_zero, min_self]

theorem refilled_nonneg (hpos : limit.Positive) {bucket : Bucket} (h : 0 ≤ bucket.tokens) :
    0 ≤ (limit.refilled now bucket).tokens := by
  have hrefill := mul_nonneg (seconds_nonneg (now - bucket.lastMs)) hpos.refill
  have hcapacity := hpos.capacity
  rw [refilled_tokens]
  apply le_min
  · linarith
  · linarith

theorem refilled_le (limit : Limiter) (nowMs : Nat) (bucket : Bucket) :
    (limit.refilled nowMs bucket).tokens ≤ limit.capacity := min_le_right _ _

theorem refilled_idle (hidle : limit.RefillsIdle) (hpos : limit.Positive) {bucket : Bucket}
    (h : 0 ≤ bucket.tokens) (hlong : idleEvictMs ≤ now - bucket.lastMs) :
    (limit.refilled now bucket).tokens = limit.capacity := by
  have hrefill := mul_le_mul_of_nonneg_right (seconds_le hlong) hpos.refill
  have hcapacity : limit.capacity ≤ limit.refillPerSec * seconds idleEvictMs := hidle
  rw [refilled_tokens]
  apply min_eq_right
  linarith

/-- An eviction takes nothing from a client and gives it nothing. -/
theorem bucketAt_tokens (hidle : limit.RefillsIdle) (hpos : limit.Positive)
    (h : Fair limit s t) : (limit.bucketAt s ip now).tokens = limit.available s ip now := by
  unfold Limiter.bucketAt Limiter.available
  cases hswept : sweep ((s.seen + 1) % 2 ^ 64) now s.buckets ip with
  | some bucket =>
    rw [sweep_eq_some hswept]
    rfl
  | none =>
    cases hbucket : s.buckets ip with
    | none => exact refilled_new
    | some bucket =>
      obtain ⟨-, htokens, -⟩ := h ip bucket hbucket
      have hfull := refilled_idle hidle hpos htokens (sweep_eq_none hbucket hswept)
      exact refilled_new.trans hfull.symm

theorem available_le (limit : Limiter) (s : State) (ip : IpAddr) (now : Nat) :
    limit.available s ip now ≤ limit.capacity := by
  unfold Limiter.available
  split
  next => exact le_refl _
  next bucket _ => exact refilled_le limit now bucket

theorem available_nonneg (hpos : limit.Positive) (h : Fair limit s t) :
    0 ≤ limit.available s ip now := by
  unfold Limiter.available
  split
  next => exact zero_le_one.trans hpos.capacity
  next bucket hbucket => exact refilled_nonneg hpos (h ip bucket hbucket).2.1

theorem available_later (hpos : limit.Positive) (h : Fair limit s t) (ht : t ≤ now) :
    limit.available s ip now ≤
      limit.available s ip t + limit.refillPerSec * (seconds now - seconds t) := by
  have htime := mul_nonneg hpos.refill (sub_nonneg.mpr (seconds_le ht))
  unfold Limiter.available
  split
  next => linarith
  next bucket hbucket =>
    have hlast := (h ip bucket hbucket).1
    rw [refilled_tokens, refilled_tokens, seconds_sub (hlast.trans ht), seconds_sub hlast]
    rcases le_total (bucket.tokens + (seconds t - seconds bucket.lastMs) * limit.refillPerSec)
      limit.capacity with hle | hle
    · rw [min_eq_left hle]
      have hmin := min_le_left
        (bucket.tokens + (seconds now - seconds bucket.lastMs) * limit.refillPerSec) limit.capacity
      linarith
    · rw [min_eq_right hle]
      have hmin := min_le_right
        (bucket.tokens + (seconds now - seconds bucket.lastMs) * limit.refillPerSec) limit.capacity
      linarith

theorem fair_allowAt (hpos : limit.Positive) (h : Fair limit s t) (ht : t ≤ now) :
    Fair limit (limit.allowAt s ip' now).2 now := by
  intro ip bucket hbucket
  obtain ⟨bucket', ok, -, hbuckets, -, hlast, htokens⟩ := allowAt_cases limit s ip' now
  rw [hbuckets] at hbucket
  by_cases heq : ip = ip'
  · subst heq
    rw [Function.update_self] at hbucket
    obtain rfl := Option.some.inj hbucket
    have hle := refilled_le limit now
      ((sweep ((s.seen + 1) % 2 ^ 64) now s.buckets ip).getD ⟨limit.capacity, now, 0⟩)
    change (limit.bucketAt s ip now).tokens ≤ limit.capacity at hle
    have hnonneg : 0 ≤ (limit.bucketAt s ip now).tokens := by
      apply refilled_nonneg hpos
      cases hswept : sweep ((s.seen + 1) % 2 ^ 64) now s.buckets ip with
      | none => exact zero_le_one.trans hpos.capacity
      | some b => exact (h ip b (sweep_eq_some hswept)).2.1
    refine ⟨hlast.le, ?_⟩
    rcases htokens with ⟨-, hone, hrest⟩ | ⟨-, -, hrest⟩
    · constructor
      · linarith
      · linarith
    · rw [hrest]
      exact ⟨hnonneg, hle⟩
  · rw [Function.update_of_ne heq] at hbucket
    exact h.later ht ip bucket (sweep_eq_some hbucket)

theorem available_of_bucket {bucket : Bucket} (hbucket : s.buckets ip = some bucket)
    (hlast : bucket.lastMs = now) : limit.available s ip now = min bucket.tokens limit.capacity := by
  have hzero : seconds 0 = 0 := by
    unfold seconds
    norm_num
  unfold Limiter.available
  rw [hbucket]
  dsimp only
  rw [refilled_tokens, hlast, Nat.sub_self, hzero, zero_mul, add_zero]

/-- A call that is answered true takes a token from its client. -/
theorem available_own (hidle : limit.RefillsIdle) (hpos : limit.Positive) (h : Fair limit s t) :
    limit.available (limit.allowAt s ip now).2 ip now +
      (if (limit.allowAt s ip now).1 then 1 else 0) ≤ limit.available s ip now := by
  obtain ⟨bucket, ok, hok, hbuckets, -, hlast, htokens⟩ := allowAt_cases limit s ip now
  have hown : (limit.allowAt s ip now).2.buckets ip = some bucket := by
    rw [hbuckets, Function.update_self]
  have hmin := min_le_left bucket.tokens limit.capacity
  rw [hok, available_of_bucket hown hlast]
  rw [bucketAt_tokens hidle hpos h] at htokens
  rcases htokens with ⟨rfl, -, hrest⟩ | ⟨rfl, -, hrest⟩
  · rw [if_pos rfl]
    linarith
  · rw [if_neg Bool.false_ne_true]
    linarith

/-- A call gives nothing to another client. -/
theorem available_other (hidle : limit.RefillsIdle) (hpos : limit.Positive) (h : Fair limit s t)
    (hne : ip ≠ ip') :
    limit.available (limit.allowAt s ip' now).2 ip now = limit.available s ip now := by
  obtain ⟨bucket, ok, -, hbuckets, -⟩ := allowAt_cases limit s ip' now
  unfold Limiter.available
  rw [hbuckets, Function.update_of_ne hne]
  cases hswept : sweep ((s.seen + 1) % 2 ^ 64) now s.buckets ip with
  | some bucket => rw [sweep_eq_some hswept]
  | none =>
    cases hbucket : s.buckets ip with
    | none => rfl
    | some bucket =>
      have htokens := (h ip bucket hbucket).2.1
      exact (refilled_idle hidle hpos htokens (sweep_eq_none hbucket hswept)).symm

theorem mem_of_mem_allowed {calls : List Call} {call : Call} (h : call ∈ limit.allowed s calls) :
    call ∈ calls := by
  induction calls generalizing s with
  | nil => cases h
  | cons first calls ih =>
    unfold Limiter.allowed at h
    dsimp only at h
    split at h
    next =>
      rcases List.mem_cons.mp h with rfl | h
      · exact List.mem_cons_self ..
      · exact List.mem_cons_of_mem first (ih h)
    next => exact List.mem_cons_of_mem first (ih h)

theorem countIn_eq_zero {start d : ℚ} {calls : List Call}
    (h : ∀ call ∈ calls, start + d < seconds call.nowMs) : countIn ip start d calls = 0 := by
  unfold countIn
  rw [List.countP_eq_zero]
  intro call hcall
  simp only [decide_eq_true_eq]
  rintro ⟨-, -, hin⟩
  exact absurd (h call hcall) (not_lt.mpr hin)

theorem countIn_allowed_cons (start d : ℚ) (call : Call) (calls : List Call) :
    countIn ip start d (limit.allowed s (call :: calls)) =
      countIn ip start d (limit.allowed (limit.allowAt s call.ip call.nowMs).2 calls) +
        if (limit.allowAt s call.ip call.nowMs).1 ∧ call.ip = ip ∧ start ≤ seconds call.nowMs ∧
          seconds call.nowMs ≤ start + d then 1 else 0 := by
  rw [Limiter.allowed]
  dsimp only
  by_cases hok : (limit.allowAt s call.ip call.nowMs).1 = true
  · rw [if_pos hok]
    simp only [hok, true_and]
    unfold countIn
    rw [List.countP_cons]
    simp only [decide_eq_true_eq]
  · rw [if_neg hok, if_neg (fun h => hok h.1), Nat.add_zero]

/-- From a time in the window on a client is granted at most what it has by then and what is
refilled in the rest of the window. -/
theorem countIn_le_available (hidle : limit.RefillsIdle) (hpos : limit.Positive) {start d : ℚ}
    {calls : List Call} (hsorted : calls.Pairwise (fun a b => a.nowMs ≤ b.nowMs))
    (hlater : ∀ call ∈ calls, t ≤ call.nowMs) (hfair : Fair limit s t)
    (hend : seconds t ≤ start + d) : countIn ip start d (limit.allowed s calls) ≤
      limit.available s ip t + limit.refillPerSec * (start + d - seconds t) := by
  induction calls generalizing s t with
  | nil =>
    have hrest := mul_nonneg hpos.refill (sub_nonneg.mpr hend)
    have hnonneg : 0 ≤ limit.available s ip t := available_nonneg hpos hfair
    show ((0 : Nat) : ℚ) ≤ _
    rw [Nat.cast_zero]
    linarith
  | cons call calls ih =>
    obtain ⟨hfirst, hsorted⟩ := List.pairwise_cons.mp hsorted
    have ht : t ≤ call.nowMs := hlater call (List.mem_cons_self ..)
    have htime : limit.available s ip call.nowMs ≤
        limit.available s ip t + limit.refillPerSec * (seconds call.nowMs - seconds t) :=
      available_later hpos hfair ht
    by_cases hin : seconds call.nowMs ≤ start + d
    · have hkept : Fair limit (limit.allowAt s call.ip call.nowMs).2 call.nowMs :=
        fair_allowAt hpos hfair ht
      have hrest := ih hsorted hfirst hkept hin
      rw [countIn_allowed_cons]
      by_cases hip : call.ip = ip
      · subst hip
        have hown : limit.available (limit.allowAt s call.ip call.nowMs).2 call.ip call.nowMs +
            (if (limit.allowAt s call.ip call.nowMs).1 then 1 else 0) ≤
              limit.available s call.ip call.nowMs := available_own hidle hpos hfair
        by_cases hok : (limit.allowAt s call.ip call.nowMs).1 = true
        · rw [if_pos hok] at hown
          have hone : ((if (limit.allowAt s call.ip call.nowMs).1 = true ∧ call.ip = call.ip ∧
              start ≤ seconds call.nowMs ∧ seconds call.nowMs ≤ start + d then 1 else 0 : Nat) : ℚ) ≤
                1 := by
            split
            · exact_mod_cast le_refl 1
            · exact_mod_cast zero_le_one
          rw [Nat.cast_add]
          linarith
        · rw [if_neg hok] at hown
          rw [if_neg (fun h => hok h.1), Nat.add_zero]
          linarith
      · have hother : limit.available (limit.allowAt s call.ip call.nowMs).2 ip call.nowMs =
            limit.available s ip call.nowMs := available_other hidle hpos hfair (Ne.symm hip)
        rw [if_neg (fun h => hip h.2.1), Nat.add_zero]
        linarith
    · have hzero : countIn ip start d (limit.allowed s (call :: calls)) = 0 := by
        apply countIn_eq_zero
        intro c hc
        rcases List.mem_cons.mp (mem_of_mem_allowed hc) with rfl | hc
        · exact not_le.mp hin
        · exact lt_of_lt_of_le (not_le.mp hin) (seconds_le (hfirst c hc))
      have hrest := mul_nonneg hpos.refill (sub_nonneg.mpr hend)
      have hnonneg : 0 ≤ limit.available s ip t := available_nonneg hpos hfair
      rw [hzero, Nat.cast_zero]
      linarith

theorem countIn_le (hidle : limit.RefillsIdle) (hpos : limit.Positive) {start d : ℚ} (hd : 0 ≤ d)
    {calls : List Call} (hsorted : calls.Pairwise (fun a b => a.nowMs ≤ b.nowMs))
    (hlater : ∀ call ∈ calls, t ≤ call.nowMs) (hfair : Fair limit s t) :
    countIn ip start d (limit.allowed s calls) ≤ limit.capacity + limit.refillPerSec * d := by
  induction calls generalizing s t with
  | nil =>
    have hrest := mul_nonneg hpos.refill hd
    have hcapacity := hpos.capacity
    show ((0 : Nat) : ℚ) ≤ _
    rw [Nat.cast_zero]
    linarith
  | cons call calls ih =>
    obtain ⟨hfirst, hrest⟩ := List.pairwise_cons.mp hsorted
    have ht : t ≤ call.nowMs := hlater call (List.mem_cons_self ..)
    have hkept : Fair limit (limit.allowAt s call.ip call.nowMs).2 call.nowMs :=
      fair_allowAt hpos hfair ht
    by_cases hstart : start ≤ seconds call.nowMs
    · by_cases hend : seconds call.nowMs ≤ start + d
      · have hlater' : ∀ c ∈ call :: calls, call.nowMs ≤ c.nowMs := by
          intro c hc
          rcases List.mem_cons.mp hc with rfl | hc
          · exact le_refl _
          · exact hfirst c hc
        have hbound : countIn ip start d (limit.allowed s (call :: calls)) ≤
            limit.available s ip call.nowMs +
              limit.refillPerSec * (start + d - seconds call.nowMs) :=
          countIn_le_available hidle hpos hsorted hlater' (hfair.later ht) hend
        have hcapacity := available_le limit s ip call.nowMs
        have hwindow := mul_nonneg hpos.refill (sub_nonneg.mpr hstart)
        linarith
      · rw [countIn_allowed_cons, if_neg (fun h => hend h.2.2.2), Nat.add_zero]
        exact ih hrest hfirst hkept
    · rw [countIn_allowed_cons, if_neg (fun h => hstart h.2.2.1), Nat.add_zero]
      exact ih hrest hfirst hkept

theorem bounds_of_refillsIdle (hidle : limit.RefillsIdle) (hpos : limit.Positive) :
    limit.Bounds := by
  intro calls hsorted ip start d hd
  have hfair : Fair limit {} 0 := by
    intro ip bucket hbucket
    cases hbucket
  exact countIn_le hidle hpos hd hsorted (fun _ _ => Nat.zero_le _) hfair

/-- A client with this many tokens at a time, and no bucket of an earlier one. -/
def Ready (limit : Limiter) (s : State) (ip : IpAddr) (now n : Nat) : Prop :=
  (∀ bucket, s.buckets ip = some bucket → bucket.lastMs = now) ∧ n ≤ limit.available s ip now

theorem bucketAt_of_fresh (h : ∀ bucket, s.buckets ip = some bucket → bucket.lastMs = now) :
    (limit.bucketAt s ip now).tokens = limit.available s ip now := by
  unfold Limiter.bucketAt Limiter.available
  cases hswept : sweep ((s.seen + 1) % 2 ^ 64) now s.buckets ip with
  | some bucket =>
    rw [sweep_eq_some hswept]
    rfl
  | none =>
    cases hbucket : s.buckets ip with
    | none => exact refilled_new
    | some bucket =>
      have hlong := sweep_eq_none hbucket hswept
      rw [h bucket hbucket, Nat.sub_self] at hlong
      exact absurd hlong (by decide)

theorem Ready.call {n : Nat} (h : Ready limit s ip now (n + 1)) :
    (limit.allowAt s ip now).1 = true ∧ Ready limit (limit.allowAt s ip now).2 ip now n := by
  obtain ⟨hfresh, hn⟩ := h
  obtain ⟨bucket, ok, hok, hbuckets, -, hlast, htokens⟩ := allowAt_cases limit s ip now
  have hown : (limit.allowAt s ip now).2.buckets ip = some bucket := by
    rw [hbuckets, Function.update_self]
  have hpositive : (0 : ℚ) ≤ n := Nat.cast_nonneg n
  have hcapacity := available_le limit s ip now
  rw [bucketAt_of_fresh hfresh] at htokens
  rw [Nat.cast_succ] at hn
  rcases htokens with ⟨rfl, -, hrest⟩ | ⟨-, hfew, -⟩
  · refine ⟨hok, ?_, ?_⟩
    · intro bucket' hbucket'
      rw [hown] at hbucket'
      rwa [← Option.some.inj hbucket']
    · rw [available_of_bucket hown hlast]
      apply le_min
      · linarith
      · linarith
  · linarith

theorem Ready.calls {n : Nat} (h : Ready limit s ip now n) :
    limit.allowed s (List.replicate n ⟨ip, now⟩) = List.replicate n ⟨ip, now⟩ ∧
      ∀ bucket, (limit.after s (List.replicate n ⟨ip, now⟩)).buckets ip = some bucket →
        bucket.lastMs = now := by
  induction n generalizing s with
  | zero => exact ⟨rfl, h.1⟩
  | succ n ih =>
    obtain ⟨hok, hnext⟩ := h.call
    obtain ⟨hallowed, hlast⟩ := ih hnext
    rw [List.replicate_succ, Limiter.allowed]
    dsimp only
    rw [if_pos hok, hallowed]
    exact ⟨rfl, hlast⟩

theorem allowed_append (limit : Limiter) (s : State) (calls more : List Call) :
    limit.allowed s (calls ++ more) =
      limit.allowed s calls ++ limit.allowed (limit.after s calls) more := by
  induction calls generalizing s with
  | nil => rfl
  | cons call calls ih =>
    rw [List.cons_append, Limiter.allowed, Limiter.allowed]
    dsimp only
    rw [ih]
    split
    next => rfl
    next => rfl

theorem after_append (limit : Limiter) (s : State) (calls more : List Call) :
    limit.after s (calls ++ more) = limit.after (limit.after s calls) more :=
  List.foldl_append

theorem after_seen (limit : Limiter) (s : State) (calls : List Call) :
    (limit.after s calls).seen % 2 ^ 64 = (s.seen + calls.length) % 2 ^ 64 := by
  induction calls generalizing s with
  | nil => rfl
  | cons call calls ih =>
    obtain ⟨bucket, ok, -, -, hseen, -⟩ := allowAt_cases limit s call.ip call.nowMs
    show (limit.after (limit.allowAt s call.ip call.nowMs).2 calls).seen % 2 ^ 64 = _
    rw [ih, hseen, List.length_cons]
    omega

theorem after_other {n : Nat} (hne : ip ≠ ip')
    (h : ∀ bucket, s.buckets ip = some bucket → bucket.lastMs = t) (bucket : Bucket)
    (hbucket : (limit.after s (List.replicate n ⟨ip', now⟩)).buckets ip = some bucket) :
    bucket.lastMs = t := by
  induction n generalizing s with
  | zero => exact h bucket hbucket
  | succ n ih =>
    apply ih _ hbucket
    intro b hb
    obtain ⟨bucket', ok, -, hbuckets, -⟩ := allowAt_cases limit s ip' now
    dsimp only at hb
    rw [hbuckets, Function.update_of_ne hne] at hb
    exact h b (sweep_eq_some hb)

/-- The sweep that comes with another client's call evicts an idle bucket. -/
theorem allowAt_sweeps (hne : ip ≠ ip') (hseen : (s.seen + 1) % 2 ^ 64 % 4096 = 0)
    (h : ∀ bucket, s.buckets ip = some bucket → idleEvictMs ≤ now - bucket.lastMs) :
    (limit.allowAt s ip' now).2.buckets ip = none := by
  obtain ⟨bucket', ok, -, hbuckets, -⟩ := allowAt_cases limit s ip' now
  rw [hbuckets, Function.update_of_ne hne, sweep, if_pos hseen]
  rw [Option.filter_eq_none_iff]
  intro bucket hbucket hidle
  simp only [decide_eq_true_eq] at hidle
  exact absurd (h bucket hbucket) (by omega)

/-- A client spends its tokens, another one calls until a sweep, and the client spends as many. -/
def refillByEviction (ip ip' : IpAddr) (n : Nat) : List Call :=
  List.replicate n ⟨ip, 0⟩ ++ (List.replicate (4096 - n % 4096 - 1) ⟨ip', idleEvictMs⟩ ++
    (⟨ip', idleEvictMs⟩ :: List.replicate n ⟨ip, idleEvictMs⟩))

theorem countIn_replicate {start d : ℚ} (n : Nat) (hstart : start ≤ seconds now)
    (hend : seconds now ≤ start + d) : countIn ip start d (List.replicate n ⟨ip, now⟩) = n := by
  unfold countIn
  rw [List.countP_replicate, if_pos]
  simp only [decide_eq_true_eq]
  exact ⟨trivial, hstart, hend⟩

theorem countIn_append (start d : ℚ) (calls more : List Call) :
    countIn ip start d (calls ++ more) = countIn ip start d calls + countIn ip start d more :=
  List.countP_append

theorem countIn_refill (hne : ip ≠ ip') {n : Nat} (hn : limit.capacity = n) :
    n + n ≤ countIn ip 0 (seconds idleEvictMs)
      (limit.allowed {} (refillByEviction ip ip' n)) := by
  let drained := limit.after {} (List.replicate n ⟨ip, 0⟩)
  let waited := limit.after drained (List.replicate (4096 - n % 4096 - 1) ⟨ip', idleEvictMs⟩)
  let swept := (limit.allowAt waited ip' idleEvictMs).2
  have hfirst : Ready limit {} ip 0 n := by
    refine ⟨?_, hn.ge⟩
    intro bucket hbucket
    cases hbucket
  have hidle : ∀ bucket, waited.buckets ip = some bucket →
      idleEvictMs ≤ idleEvictMs - bucket.lastMs := by
    intro bucket hbucket
    have hlast := after_other hne hfirst.calls.2 bucket hbucket
    rw [hlast, Nat.sub_zero]
  have hseen : (waited.seen + 1) % 2 ^ 64 % 4096 = 0 := by
    have hdrained := after_seen limit {} (List.replicate n ⟨ip, 0⟩)
    have hwaited := after_seen limit drained
      (List.replicate (4096 - n % 4096 - 1) ⟨ip', idleEvictMs⟩)
    rw [List.length_replicate] at hdrained hwaited
    change drained.seen % 2 ^ 64 = (0 + n) % 2 ^ 64 at hdrained
    change waited.seen % 2 ^ 64 = _ at hwaited
    omega
  have hgone : swept.buckets ip = none := allowAt_sweeps hne hseen hidle
  have hagain : Ready limit swept ip idleEvictMs n := by
    refine ⟨?_, ?_⟩
    · intro bucket hbucket
      rw [hgone] at hbucket
      cases hbucket
    · unfold Limiter.available
      rw [hgone]
      exact hn.ge
  have hlast : limit.allowed waited
      (⟨ip', idleEvictMs⟩ :: List.replicate n ⟨ip, idleEvictMs⟩) =
        (if (limit.allowAt waited ip' idleEvictMs).1 then [⟨ip', idleEvictMs⟩] else []) ++
          List.replicate n ⟨ip, idleEvictMs⟩ := by
    rw [Limiter.allowed]
    dsimp only
    rw [hagain.calls.1]
    split
    next => rfl
    next => rfl
  have hwindow : seconds idleEvictMs ≤ 0 + seconds idleEvictMs := (zero_add _).ge
  have hstart : seconds 0 ≤ 0 + seconds idleEvictMs := (seconds_le (Nat.zero_le _)).trans hwindow
  rw [refillByEviction, allowed_append, hfirst.calls.1, allowed_append]
  change _ ≤ countIn _ _ _ (_ ++ (_ ++ limit.allowed waited _))
  rw [hlast, countIn_append, countIn_append, countIn_append,
    countIn_replicate n (seconds_nonneg 0) hstart,
    countIn_replicate n (seconds_nonneg idleEvictMs) hwindow]
  omega

theorem refillByEviction_sorted (n : Nat) :
    (refillByEviction ip ip' n).Pairwise (fun a b => a.nowMs ≤ b.nowMs) := by
  have hconst : ∀ (t m : Nat) (client : IpAddr),
      (List.replicate m (⟨client, t⟩ : Call)).Pairwise (fun a b => a.nowMs ≤ b.nowMs) :=
    fun t m client => List.pairwise_replicate.mpr (.inr (le_refl t))
  unfold refillByEviction
  rw [List.pairwise_append, List.pairwise_append, List.pairwise_cons]
  refine ⟨hconst .., ⟨hconst .., ⟨?_, hconst ..⟩, ?_⟩, ?_⟩
  · intro b hb
    rw [List.eq_of_mem_replicate hb]
  · intro a ha b hb
    rw [List.eq_of_mem_replicate ha]
    rcases List.mem_cons.mp hb with rfl | hb
    · exact le_refl _
    · rw [List.eq_of_mem_replicate hb]
  · intro a ha b hb
    rw [List.eq_of_mem_replicate ha]
    exact Nat.zero_le _

theorem refillsIdle_of_bounds {n : Nat} (hn : limit.capacity = n) (h : limit.Bounds) :
    limit.RefillsIdle := by
  have hne : IpAddr.v4 0 ≠ IpAddr.v4 1 := by decide
  have hcount := countIn_refill hne hn
  have hbound := h (refillByEviction (.v4 0) (.v4 1) n) (refillByEviction_sorted n) (.v4 0) 0
    (seconds idleEvictMs) (seconds_nonneg _)
  have htwice : ((n + n : Nat) : ℚ) ≤ limit.capacity + limit.refillPerSec * seconds idleEvictMs :=
    (Nat.cast_le.mpr hcount).trans hbound
  rw [Nat.cast_add, ← hn] at htwice
  unfold Limiter.RefillsIdle
  linarith

end Bound

/-- A limiter as it is configured. -/
def configured (requests : UInt32) (period : Duration) (burst banAfter : Option UInt32) : Limiter :=
  let limit := Limiter.new requests period
  let limit := burst.elim limit limit.burst
  banAfter.elim limit limit.banAfter

theorem configured_capacity (requests : UInt32) (period : Duration)
    (burst banAfter : Option UInt32) : ∃ n : Nat, 1 ≤ n ∧
      (configured requests period burst banAfter).capacity = n := by
  have hmax : ∀ x : UInt32, 1 ≤ (max x 1).toNat := by
    intro x
    show 1 ≤ (if x ≤ 1 then 1 else x : UInt32).toNat
    split
    next => exact le_refl 1
    next hlarge =>
      rw [UInt32.le_iff_toNat_le] at hlarge
      exact (not_le.mp hlarge).le
  cases burst with
  | none =>
    refine ⟨(max requests 1).toNat, hmax requests, ?_⟩
    cases banAfter with
    | none => rfl
    | some violations => rfl
  | some capacity =>
    refine ⟨(max capacity 1).toNat, hmax capacity, ?_⟩
    cases banAfter with
    | none => rfl
    | some violations => rfl

theorem configured_positive (requests : UInt32) (period : Duration)
    (burst banAfter : Option UInt32) :
    (configured requests period burst banAfter).Positive := by
  obtain ⟨n, hn, hcapacity⟩ := configured_capacity requests period burst banAfter
  have hrefill : 0 ≤ (configured requests period burst banAfter).refillPerSec := by
    have hnew : 0 ≤ (Limiter.new requests period).refillPerSec := by
      apply div_nonneg
      · exact Nat.cast_nonneg _
      · exact le_max_of_le_right (by norm_num)
    cases burst with
    | none => cases banAfter with
      | none => exact hnew
      | some violations => exact hnew
    | some capacity => cases banAfter with
      | none => exact hnew
      | some violations => exact hnew
  refine ⟨?_, hrefill⟩
  rw [hcapacity]
  exact_mod_cast hn

/-- The bound holds in every run of a limiter if and only if the time after which an idle bucket may
be evicted refills the whole capacity. -/
theorem bounds_iff (requests : UInt32) (period : Duration) (burst banAfter : Option UInt32) :
    (configured requests period burst banAfter).Bounds ↔
      (configured requests period burst banAfter).RefillsIdle := by
  obtain ⟨n, -, hcapacity⟩ := configured_capacity requests period burst banAfter
  constructor
  · exact refillsIdle_of_bounds hcapacity
  · intro hidle
    exact bounds_of_refillsIdle hidle (configured_positive requests period burst banAfter)

/-- One request an hour: after five idle minutes an eviction grants a second one. -/
theorem not_bounds : ¬ ∀ requests period burst banAfter,
    (configured requests period burst banAfter).Bounds := by
  intro h
  have hcapacity : (configured 1 ⟨3600, 0⟩ none none).capacity = (1 : Nat) := by decide +kernel
  have hidle := refillsIdle_of_bounds hcapacity (h 1 ⟨3600, 0⟩ none none)
  have hshort : ¬ (configured 1 ⟨3600, 0⟩ none none).RefillsIdle := by
    unfold Limiter.RefillsIdle
    decide +kernel
  exact hshort hidle

end RateLimit

end Kernway
