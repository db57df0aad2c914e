import Kernway.Gregorian
import Kernway.LogJson

namespace Kernway

/-- An `i64` that did not overflow. -/
def i64 (n : Int) : Option Int := if -2 ^ 63 ≤ n ∧ n < 2 ^ 63 then some n else none

def asU32 (n : Int) : Nat := (n % 2 ^ 32).toNat

def asU64 (n : Int) : Nat := (n % 2 ^ 64).toNat

/-- The number that the era is divided out of. -/
def eraStart (z : Int) : Option Int := if 0 ≤ z then some z else i64 (z - 146096)

/-- `civil_from_days` of kernway-core; `none` is an overflow. -/
def Time.civilFromDays (z : Int) : Option (Int × Nat × Nat) := do
  let z ← i64 (z + 719468)
  let era := (← eraStart z) / 146097  -- `div_euclid`
  let doe ← i64 (z - (← i64 (era * 146097)))
  let yoe := (doe - doe.tdiv 1460 + doe.tdiv 36524 - doe.tdiv 146096).tdiv 365
  let y ← i64 (yoe + (← i64 (era * 400)))
  let doy := doe - (365 * yoe + yoe.tdiv 4 - yoe.tdiv 100)
  let mp := (5 * doy + 2).tdiv 153
  let d := asU32 (doy - (153 * mp + 2).tdiv 5 + 1)
  let m := asU32 (if mp < 10 then mp + 3 else mp - 9)
  let year ← i64 (y + if m ≤ 2 then 1 else 0)
  return (year, m, d)

/-- `civil_from_days` of kernway-log on all days; `civilFromDays` has those from 1970 on. -/
def Log.civilFromDaysI64 (z : Int) : Option (Int × Nat × Nat) := do
  let z ← i64 (z + 719468)
  let era := (← eraStart z).tdiv 146097
  let doe := asU64 (← i64 (z - (← i64 (era * 146097))))
  let yoe := (doe - doe / 1460 + doe / 36524 - doe / 146096) / 365
  let y ← i64 (yoe + (← i64 (era * 400)))
  let doy := doe - (365 * yoe + yoe / 4 - yoe / 100)
  let mp := (5 * doy + 2) / 153
  let d := doy - (153 * mp + 2) / 5 + 1
  let m := if mp < 10 then mp + 3 else mp - 9
  let year ← i64 (if m ≤ 2 then y + 1 else y)
  return (year, m, d)

open Gregorian

/-- The days from the first of March of the year 0 to that of another year. -/
def marchOf (y : Int) : Int := 365 * y + y / 4 - y / 100 + y / 400

/-- The date at a day of a year that begins in March. -/
def civil (y doy : Int) : Int × Nat × Nat :=
  let mp := (5 * doy + 2) / 153
  let m := (if mp < 10 then mp + 3 else mp - 9).toNat
  (if m ≤ 2 then y + 1 else y, m, (doy - (153 * mp + 2) / 5 + 1).toNat)

/-- The year of an era that the algorithm computes from a day of the era, and the day in it. -/
def yoeOf (doe : Int) : Int := (doe - doe / 1460 + doe / 36524 - doe / 146096) / 365

def doyOf (doe : Int) : Int := doe - (365 * yoeOf doe + yoeOf doe / 4 - yoeOf doe / 100)

section Years

/-- A day of an era: its century, the four years in that, and the day in these. -/
theorem exists_parts {doe : Int} (h0 : 0 ≤ doe) (h1 : doe ≤ 146096) :
    ∃ c q s : Int, doe = 36524 * c + 1461 * q + s ∧ (0 ≤ c ∧ c ≤ 3) ∧ (0 ≤ q ∧ q ≤ 24) ∧
      (0 ≤ s ∧ s ≤ 1460) ∧ (c = 3 ∨ q < 24 ∨ s < 1460) := by
  -- the last day of an era is in its fourth century
  obtain ⟨c, hc⟩ : ∃ c, c = if doe = 146096 then 3 else doe / 36524 := ⟨_, rfl⟩
  refine ⟨c, (doe - 36524 * c) / 1461, (doe - 36524 * c) % 1461, ?_⟩
  split at hc
  next => omega
  next => omega

variable {c q s doe : Int}

theorem yoeOf_eq (hc : 0 ≤ c ∧ c ≤ 3) (hq : 0 ≤ q ∧ q ≤ 24) (hs : 0 ≤ s ∧ s ≤ 1460)
    (hleap : c = 3 ∨ q < 24 ∨ s < 1460) (hdoe : doe = 36524 * c + 1461 * q + s) :
    yoeOf doe = 100 * c + 4 * q + if s = 1460 then 3 else s / 365 := by
  have hcentury : doe / 36524 - doe / 146096 = c := by
    by_cases hlast : doe = 146096
    · omega
    · have hera : doe / 146096 = 0 := by omega
      have hc : doe / 36524 = c := by omega
      omega
  obtain ⟨e, he⟩ : ∃ e, doe / 1460 = 25 * c + q + e := ⟨doe / 1460 - (25 * c + q), by omega⟩
  have he0 : 0 ≤ e := by omega
  have he1 : e ≤ 1 := by omega
  have hbound : 1460 * e ≤ 24 * c + q + s := by omega
  have hsum : doe - doe / 1460 + doe / 36524 - doe / 146096 =
      365 * (100 * c + 4 * q) + (s - e) := by omega
  unfold yoeOf
  rw [hsum, Int.mul_add_ediv_left _ _ (by decide)]
  split
  next => omega
  next => omega

/-- The days of the era behind it, from the first one on. -/
theorem yoeOf_late (hc : 0 ≤ c ∧ c ≤ 3) (hq : 0 ≤ q ∧ q ≤ 24) (hs : 0 ≤ s ∧ s ≤ 1460)
    (hleap : c = 3 ∨ q < 24 ∨ s < 1460) (hnot : 36524 * c + 1461 * q + s ≤ 146095)
    (hdoe : doe = 146097 + 36524 * c + 1461 * q + s) :
    ∃ t : Int, yoeOf doe = 400 + 100 * c + 4 * q + t ∧ (0 ≤ t ∧ t ≤ 3) ∧
      0 ≤ s + 1 - 365 * t ∧ s + 1 - 365 * t ≤ 366 := by
  obtain ⟨g, hg⟩ : ∃ g, g = if 1461 * q + s = 36523 ∧ c < 3 then (1 : Int) else 0 := ⟨_, rfl⟩
  have hcentury : doe / 36524 - doe / 146096 = 3 + c + g := by
    by_cases hlast : doe = 292192
    · split at hg <;> omega
    · have hera : doe / 146096 = 1 := by omega
      have hc : doe / 36524 = 4 + c + if 1461 * q + s = 36523 then 1 else 0 := by
        split <;> omega
      split at hc <;> split at hg <;> omega
  have hgs : g = 0 ∨ g = 1 ∧ q = 24 ∧ s = 1459 := by
    split at hg <;> omega
  clear hg
  obtain ⟨e, he⟩ : ∃ e, doe / 1460 = 100 + 25 * c + q + e :=
    ⟨doe / 1460 - (100 + 25 * c + q), by omega⟩
  have he0 : 0 ≤ e := by omega
  have he1 : e ≤ 1 := by omega
  have hbound : 1460 * e ≤ 97 + 24 * c + q + s := by omega
  have hbound' : 97 + 24 * c + q + s < 1460 * e + 1460 := by omega
  have hsum : doe - doe / 1460 + doe / 36524 - doe / 146096 =
      365 * (400 + 100 * c + 4 * q) + (s - e + g) := by omega
  refine ⟨(s - e + g) / 365, ?_, ?_, ?_⟩
  · unfold yoeOf
    rw [hsum, Int.mul_add_ediv_left _ _ (by decide)]
  · rcases hgs with rfl | ⟨rfl, -, rfl⟩
    · omega
    · omega
  · rcases hgs with rfl | ⟨rfl, -, rfl⟩
    · omega
    · omega

/-- In its own era a day has a year of that era, which has the day. -/
theorem doyOf_bounds (h0 : 0 ≤ doe) (h1 : doe ≤ 146096) (era : Int) :
    (0 ≤ yoeOf doe ∧ yoeOf doe ≤ 399) ∧ (0 ≤ doyOf doe ∧ doyOf doe ≤ 365) ∧
      (doyOf doe = 365 → IsLeap (yoeOf doe + era * 400 + 1)) := by
  obtain ⟨c, q, s, hdoe, hc, hq, hs, hleap⟩ := exists_parts h0 h1
  have hyoe := yoeOf_eq hc hq hs hleap hdoe
  have hquad : yoeOf doe / 4 = 25 * c + q := by split at hyoe <;> omega
  have hcentury : yoeOf doe / 100 = c := by split at hyoe <;> omega
  unfold doyOf IsLeap
  split at hyoe
  next => omega
  next => omega

/-- A day counted from the era before has a year behind that era. -/
theorem doyOf_late (h0 : 146097 ≤ doe) (h1 : doe ≤ 292192) :
    (400 ≤ yoeOf doe ∧ yoeOf doe ≤ 799) ∧ 0 ≤ doyOf doe ∧ doyOf doe ≤ 366 := by
  have hfirst : 0 ≤ doe - 146097 := by omega
  obtain ⟨c, q, s, hdoe, hc, hq, hs, hleap⟩ := exists_parts hfirst (by omega)
  have hparts : doe = 146097 + 36524 * c + 1461 * q + s := by omega
  obtain ⟨t, hyoe, ht, hday, hday'⟩ := yoeOf_late hc hq hs hleap (by omega) hparts
  have hquad : yoeOf doe / 4 = 100 + 25 * c + q := by omega
  have hcentury : yoeOf doe / 100 = 4 + c := by omega
  unfold doyOf
  omega

/-- A year too many of 400 years is a day too many. -/
theorem marchOf_era (doe era : Int) :
    marchOf (yoeOf doe + era * 400) + doyOf doe = era * 146097 + doe + yoeOf doe / 400 := by
  unfold marchOf doyOf
  omega

end Years

section Months

variable {y doy : Int}

/-- The months from March to December begin where the algorithm has them. -/
theorem march_months : ∀ k : Fin 10, daysBeforeMonth 1 (k + 3) = 59 + (153 * k + 2) / 5 ∧
    daysInMonth 1 (k + 3) + (153 * k + 2) / 5 = (153 * (k + 1) + 2) / 5 := by
  decide

theorem civil_of_lt {k : Nat} (h : (5 * doy + 2) / 153 = k) (hk : k < 10) :
    civil y doy = (y, k + 3, (doy - (153 * k + 2) / 5 + 1).toNat) := by
  have hlt : (k : Int) < 10 := by omega
  have hm : ((k : Int) + 3).toNat = k + 3 := by omega
  have hbig : ¬ k + 3 ≤ 2 := by omega
  unfold civil
  rw [h]
  dsimp only
  rw [if_pos hlt, hm, if_neg hbig]

theorem civil_of_ge {k : Nat} (h : (5 * doy + 2) / 153 = k + 10) (hk : k < 2) :
    civil y doy = (y + 1, k + 1, (doy - (153 * (k + 10) + 2) / 5 + 1).toNat) := by
  have hge : ¬ (k : Int) + 10 < 10 := by omega
  have hm : ((k : Int) + 10 - 9).toNat = k + 1 := by omega
  have hsmall : k + 1 ≤ 2 := by omega
  unfold civil
  rw [h]
  dsimp only
  rw [if_neg hge, hm, if_pos hsmall]

theorem month_cases (h0 : 0 ≤ doy) (h1 : doy ≤ 366) :
    (∃ k < 10, (5 * doy + 2) / 153 = (k : Nat)) ∨
      ∃ k < 2, (5 * doy + 2) / 153 = (k : Nat) + 10 := by
  rcases lt_or_ge ((5 * doy + 2) / 153) 10 with h | h
  · exact .inl ⟨((5 * doy + 2) / 153).toNat, by omega, by omega⟩
  · exact .inr ⟨((5 * doy + 2) / 153 - 10).toNat, by omega, by omega⟩

theorem marchOf_eq (y : Int) : marchOf y = daysBeforeYear (y + 1) := by
  unfold marchOf daysBeforeYear
  rw [Int.add_sub_cancel]

/-- The number of the date that `civil_from_days` makes of a year and a day in it. -/
theorem numberOf_civil (h0 : 0 ≤ doy) (h1 : doy ≤ 366) :
    numberOf (civil y doy).1 (civil y doy).2.1 (civil y doy).2.2 = marchOf y + doy - 719468 := by
  have hmarch := marchOf_eq y
  rcases month_cases h0 h1 with ⟨k, hk, hmp⟩ | ⟨k, hk, hmp⟩
  · obtain ⟨hbegin, -⟩ := march_months ⟨k, hk⟩
    have hyear := daysBeforeYear_succ y
    have hmonths := daysBeforeMonth_eq y k
    dsimp only at hbegin
    rw [civil_of_lt hmp hk]
    unfold numberOf
    dsimp only
    omega
  · rw [civil_of_ge hmp hk]
    have hbegin : daysBeforeMonth (y + 1) (k + 1) = 31 * k := by
      rcases k with _ | _ | k
      · rfl
      · rfl
      · omega
    unfold numberOf
    dsimp only
    omega

/-- A day that the year has is a date. -/
theorem exists_date (h0 : 0 ≤ doy) (h1 : doy ≤ 365) (hleap : doy = 365 → IsLeap (y + 1)) :
    ∃ date : Date, date.parts = civil y doy ∧ date.number = marchOf y + doy - 719468 := by
  have hnumber := numberOf_civil (y := y) h0 (by omega)
  rcases month_cases h0 (by omega) with ⟨k, hk, hmp⟩ | ⟨k, hk, hmp⟩
  · obtain ⟨-, hlength⟩ := march_months ⟨k, hk⟩
    have hmonth := daysInMonth_eq y k
    dsimp only at hlength
    rw [civil_of_lt hmp hk] at hnumber ⊢
    have hcast : (((153 * k + 2) / 5 : Nat) : Int) = (153 * (k : Int) + 2) / 5 := by push_cast; rfl
    exact ⟨⟨y, k + 3, (doy - (153 * k + 2) / 5 + 1).toNat, by omega, by omega⟩, rfl, hnumber⟩
  · rw [civil_of_ge hmp hk] at hnumber ⊢
    refine ⟨⟨y + 1, k + 1, (doy - (153 * (k + 10) + 2) / 5 + 1).toNat, by omega, ?_⟩, rfl, hnumber⟩
    rcases k with _ | _ | k
    · have hlength : daysInMonth (y + 1) (0 + 1) = 31 := rfl
      omega
    · have hlength : daysInMonth (y + 1) (0 + 1 + 1) = 28 + leapDay (y + 1) :=
        daysInMonth_february (y + 1)
      have hday : doy = 365 → leapDay (y + 1) = 1 := fun h => if_pos (hleap h)
      omega
    · omega

end Months

section Code

variable {z era doe : Int}

theorem i64_of {n : Int} (h : -2 ^ 63 ≤ n) (h' : n < 2 ^ 63) : i64 n = some n := if_pos ⟨h, h'⟩

theorem i64_year {y : Int} {p : Prop} [Decidable p] (h : -2 ^ 63 ≤ y) (h' : y + 1 < 2 ^ 63) :
    i64 (y + if p then 1 else 0) = some (if p then y + 1 else y) := by
  split
  next => exact i64_of (by omega) h'
  next =>
    rw [Int.add_zero]
    exact i64_of h (by omega)

theorem i64_choose {y : Int} {p : Prop} [Decidable p] (h : -2 ^ 63 ≤ y) (h' : y + 1 < 2 ^ 63) :
    i64 (if p then y + 1 else y) = some (if p then y + 1 else y) := by
  split
  next => exact i64_of (by omega) h'
  next => exact i64_of h (by omega)

theorem asU32_of {n : Int} (h : 0 ≤ n) (h' : n < 2 ^ 32) : asU32 n = n.toNat := by
  unfold asU32
  rw [Int.emod_eq_of_lt h h']

theorem eraStart_eq (hz : -2 ^ 63 ≤ z) (hz' : z + 719468 < 2 ^ 63) :
    eraStart (z + 719468) = some (if 0 ≤ z + 719468 then z + 719468 else z + 719468 - 146096) := by
  unfold eraStart
  split
  next => rfl
  next => exact i64_of (by omega) (by omega)

/-- The quotient of a negative number that was made smaller by one less than the divisor. -/
theorem tdiv_floor (h : z < 0) : (z - 146096).tdiv 146097 = z / 146097 := by
  have hneg : z - 146096 = -(146096 - z) := by omega
  rw [hneg, Int.neg_tdiv, Int.tdiv_eq_ediv_of_nonneg (by omega)]
  omega

/-- What the core's function computes, once the era is known. -/
theorem Time.civilFromDays_eq (hz : -2 ^ 63 ≤ z) (hz' : z + 719468 < 2 ^ 63)
    (hera : era = (if 0 ≤ z + 719468 then z + 719468 else z + 719468 - 146096) / 146097)
    (hdoe : z + 719468 = era * 146097 + doe) (h0 : 0 ≤ doe) (h1 : doe ≤ 292192)
    (hyoe : 0 ≤ yoeOf doe ∧ yoeOf doe ≤ 799) (hdoy : 0 ≤ doyOf doe ∧ doyOf doe ≤ 366) :
    Time.civilFromDays z = some (civil (yoeOf doe + era * 400) (doyOf doe)) := by
  have hshift := eraStart_eq hz hz'
  have hback : z + 719468 - era * 146097 = doe := by omega
  have hdiv : (doe - doe.tdiv 1460 + doe.tdiv 36524 - doe.tdiv 146096).tdiv 365 = yoeOf doe := by
    rw [Int.tdiv_eq_ediv_of_nonneg h0, Int.tdiv_eq_ediv_of_nonneg h0, Int.tdiv_eq_ediv_of_nonneg h0,
      Int.tdiv_eq_ediv_of_nonneg (by omega)]
    rfl
  have hday : doe - (365 * yoeOf doe + (yoeOf doe).tdiv 4 - (yoeOf doe).tdiv 100) = doyOf doe := by
    rw [Int.tdiv_eq_ediv_of_nonneg hyoe.1, Int.tdiv_eq_ediv_of_nonneg hyoe.1]
    rfl
  have hmp : (5 * doyOf doe + 2).tdiv 153 = (5 * doyOf doe + 2) / 153 :=
    Int.tdiv_eq_ediv_of_nonneg (by omega)
  have hlen : (153 * ((5 * doyOf doe + 2) / 153) + 2).tdiv 5 =
      (153 * ((5 * doyOf doe + 2) / 153) + 2) / 5 := Int.tdiv_eq_ediv_of_nonneg (by omega)
  have hmonth := asU32_of (n := if (5 * doyOf doe + 2) / 153 < 10 then (5 * doyOf doe + 2) / 153 + 3
    else (5 * doyOf doe + 2) / 153 - 9) (by split <;> omega) (by split <;> omega)
  have hd := asU32_of (n := doyOf doe - (153 * ((5 * doyOf doe + 2) / 153) + 2) / 5 + 1)
    (by omega) (by omega)
  unfold Time.civilFromDays
  rw [i64_of (by omega) hz']
  simp only [Option.bind_eq_bind, Option.bind_some, Option.pure_def]
  rw [hshift, Option.bind_some, ← hera, i64_of (by omega) (by omega), Option.bind_some, hback,
    i64_of (by omega) (by omega), Option.bind_some, i64_of (by omega) (by omega), Option.bind_some,
    hdiv, hday, hmp, hlen, hmonth, hd, i64_of (by omega) (by omega), Option.bind_some,
    i64_year (by omega) (by omega)]
  rfl

/-- The year and the day of the era in unsigned numbers. -/
theorem yoeOf_nat {n yoe : Nat} (h : n ≤ 146096)
    (hyoe : (n - n / 1460 + n / 36524 - n / 146096) / 365 = yoe) :
    yoeOf n = yoe ∧ doyOf n = (n - (365 * yoe + yoe / 4 - yoe / 100) : Nat) := by
  obtain ⟨-, hdoy, -⟩ := doyOf_bounds (Int.natCast_nonneg n) (by omega) 0
  have hdiv : yoeOf n = yoe := by
    unfold yoeOf
    omega
  refine ⟨hdiv, ?_⟩
  unfold doyOf at hdoy ⊢
  rw [hdiv] at hdoy ⊢
  omega

theorem civil_nat {doy mp m : Nat} (h : doy ≤ 366) (hmp : (5 * doy + 2) / 153 = mp)
    (hm : (if mp < 10 then mp + 3 else mp - 9) = m) (y : Int) :
    civil y doy = (if m ≤ 2 then y + 1 else y, m, doy - (153 * mp + 2) / 5 + 1) := by
  rcases month_cases (Int.natCast_nonneg doy) (by omega) with ⟨k, hk, heq⟩ | ⟨k, hk, heq⟩
  · obtain rfl : mp = k := by omega
    have hd : doy - (153 * mp + 2) / 5 + 1 = ((doy : Int) - (153 * mp + 2) / 5 + 1).toNat := by omega
    have hbig : ¬ mp + 3 ≤ 2 := by omega
    rw [if_pos hk] at hm
    rw [← hm, civil_of_lt heq hk, if_neg hbig, hd]
  · obtain rfl : mp = k + 10 := by omega
    have hd : doy - (153 * (k + 10) + 2) / 5 + 1 =
        ((doy : Int) - (153 * (k + 10) + 2) / 5 + 1).toNat := by omega
    have hge : ¬ k + 10 < 10 := by omega
    have hone : k + 10 - 9 = k + 1 := by omega
    have hsmall : k + 1 ≤ 2 := by omega
    rw [if_neg hge, hone] at hm
    rw [← hm, civil_of_ge heq hk, if_pos hsmall, hd]

/-- What the log's function computes: its era is the one that the day is in. -/
theorem Log.civilFromDaysI64_eq (hz : -2 ^ 63 ≤ z) (hz' : z + 719468 < 2 ^ 63)
    (hera : era = (z + 719468) / 146097) (hdoe : z + 719468 = era * 146097 + doe) :
    Log.civilFromDaysI64 z = some (civil (yoeOf doe + era * 400) (doyOf doe)) := by
  have hshift := eraStart_eq hz hz'
  have hfloor : (if 0 ≤ z + 719468 then z + 719468 else z + 719468 - 146096).tdiv 146097 = era := by
    rw [hera]
    split
    next h => exact Int.tdiv_eq_ediv_of_nonneg h
    next h => exact tdiv_floor (by omega)
  have hback : z + 719468 - era * 146097 = doe := by omega
  have h0 : 0 ≤ doe := by omega
  have h1 : doe ≤ 146096 := by omega
  obtain ⟨hyoe, hdoy, -⟩ := doyOf_bounds h0 h1 era
  obtain ⟨n, rfl⟩ := Int.eq_ofNat_of_zero_le h0
  have hcast : asU64 n = n := by
    unfold asU64
    omega
  obtain ⟨hyear, hday⟩ := yoeOf_nat (by omega : n ≤ 146096) rfl
  unfold Log.civilFromDaysI64
  rw [i64_of (by omega) hz']
  simp only [Option.bind_eq_bind, Option.bind_some, Option.pure_def]
  rw [hshift, Option.bind_some, hfloor, i64_of (by omega) (by omega), Option.bind_some, hback,
    i64_of (by omega) (by omega), Option.bind_some, i64_of (by omega) (by omega), Option.bind_some,
    hcast, ← hyear, i64_of (by omega) (by omega), Option.bind_some, hday,
    civil_nat (by omega) rfl rfl, i64_choose (by omega) (by omega)]
  rfl

/-- From 1970 on it is the conversion that time stamps are written with. -/
theorem Log.civilFromDaysI64_nat (z : Nat) (hz : (z : Int) + 719468 < 2 ^ 63) :
    Log.civilFromDaysI64 z = some (((Log.civilFromDays z).1 : Int), (Log.civilFromDays z).2) := by
  obtain ⟨era, hera⟩ : ∃ era, era = (z + 719468) / 146097 := ⟨_, rfl⟩
  obtain ⟨doe, hdoe⟩ : ∃ doe, doe = z + 719468 - era * 146097 := ⟨_, rfl⟩
  obtain ⟨hyear, hday⟩ := yoeOf_nat (by omega : doe ≤ 146096) rfl
  obtain ⟨-, hdoy, -⟩ := doyOf_bounds (Int.natCast_nonneg doe) (by omega) 0
  have hfloor : (era : Int) = ((z : Int) + 719468) / 146097 := by omega
  have hrest : (z : Int) + 719468 = era * 146097 + doe := by omega
  rw [Log.civilFromDaysI64_eq (by omega) hz hfloor hrest, hyear, hday,
    civil_nat (by omega) rfl rfl]
  unfold Log.civilFromDays
  dsimp only
  rw [← hera, ← hdoe]
  congr 2
  split
  next => push_cast; rfl
  next => push_cast; rfl

end Code

/-- The day is not before the first of March of the year 0, or it is the last of an era. -/
def EraFits (z : Int) : Prop := 0 ≤ z + 719468 ∨ (z + 719468) % 146097 = 146096

section Calendar

variable {z : Int}

/-- The log's copy has the date of every day. -/
theorem exists_civilDate (hz : -2 ^ 63 ≤ z) (hz' : z + 719468 < 2 ^ 63) :
    ∃ date : Date, date.number = z ∧ Log.civilFromDaysI64 z = some date.parts := by
  have hdoe : z + 719468 = (z + 719468) / 146097 * 146097 + (z + 719468) % 146097 := by omega
  have h0 : 0 ≤ (z + 719468) % 146097 := by omega
  have h1 : (z + 719468) % 146097 ≤ 146096 := by omega
  obtain ⟨hyoe, hdoy, hleap⟩ := doyOf_bounds h0 h1 ((z + 719468) / 146097)
  obtain ⟨date, hparts, hnumber⟩ := exists_date hdoy.1 hdoy.2 hleap
  refine ⟨date, ?_, ?_⟩
  · have hera := marchOf_era ((z + 719468) % 146097) ((z + 719468) / 146097)
    omega
  · rw [hparts]
    exact Log.civilFromDaysI64_eq hz hz' rfl hdoe

/-- The core's function has it where its era fits, and else the numbers of the day after. -/
theorem Time.civilFromDays_eq_iff (hz : -2 ^ 63 ≤ z) (hz' : z + 719468 < 2 ^ 63) {date : Date}
    (hdate : date.number = z) : Time.civilFromDays z = some date.parts ↔ EraFits z := by
  obtain ⟨date', hnumber, hlog⟩ := exists_civilDate hz hz'
  obtain rfl := Date.number_inj (hdate.trans hnumber.symm)
  have hdoe : z + 719468 = (z + 719468) / 146097 * 146097 + (z + 719468) % 146097 := by omega
  have h0 : 0 ≤ (z + 719468) % 146097 := by omega
  have h1 : (z + 719468) % 146097 ≤ 146096 := by omega
  by_cases hfits : EraFits z
  · have hera : (z + 719468) / 146097 =
        (if 0 ≤ z + 719468 then z + 719468 else z + 719468 - 146096) / 146097 := by
      unfold EraFits at hfits
      split <;> omega
    obtain ⟨hyoe, hdoy, -⟩ := doyOf_bounds h0 h1 0
    have hcore := Time.civilFromDays_eq hz hz' hera hdoe h0 (by omega) ⟨hyoe.1, by omega⟩
      ⟨hdoy.1, by omega⟩
    rw [hcore, ← Log.civilFromDaysI64_eq hz hz' rfl hdoe, hlog]
    exact iff_of_true rfl hfits
  · have hneg : ¬ 0 ≤ z + 719468 ∧ (z + 719468) % 146097 ≤ 146095 := by
      unfold EraFits at hfits
      omega
    have hera : (z + 719468) / 146097 - 1 =
        (if 0 ≤ z + 719468 then z + 719468 else z + 719468 - 146096) / 146097 := by
      rw [if_neg hneg.1]
      omega
    have hlate : z + 719468 = ((z + 719468) / 146097 - 1) * 146097 +
        ((z + 719468) % 146097 + 146097) := by omega
    obtain ⟨hyoe, hdoy⟩ := doyOf_late (by omega : 146097 ≤ (z + 719468) % 146097 + 146097) (by omega)
    have hcore := Time.civilFromDays_eq hz hz' hera hlate (by omega) (by omega)
      ⟨by omega, by omega⟩ hdoy
    have hnumber := numberOf_civil
      (y := yoeOf ((z + 719468) % 146097 + 146097) + ((z + 719468) / 146097 - 1) * 400) hdoy.1 hdoy.2
    have hmarch := marchOf_era ((z + 719468) % 146097 + 146097) ((z + 719468) / 146097 - 1)
    rw [hcore]
    refine iff_of_false ?_ hfits
    intro heq
    rw [Option.some.inj heq] at hnumber
    have hnext : date.number = z + 1 := by
      refine hnumber.trans ?_
      omega
    omega

end Calendar

open Date in
/-- Each day has one date, which the log's copy computes. The core's function does where its era
fits, and there its dates follow the order of the days. -/
theorem civilFromDays_law (z : Int) (hz : -2 ^ 63 ≤ z) (hz' : z + 719468 < 2 ^ 63) :
    ∃ date : Date, DaysAfterEpoch z date ∧ (∀ other, DaysAfterEpoch z other → other = date) ∧
      Log.civilFromDaysI64 z = some date.parts ∧
      (Time.civilFromDays z = some date.parts ↔ EraFits z) ∧
      ∀ later : Int, z < later → later + 719468 < 2 ^ 63 → EraFits z → EraFits later →
        ∃ a b : Date, Time.civilFromDays z = some a.parts ∧
          Time.civilFromDays later = some b.parts ∧ Before a b := by
  obtain ⟨date, hnumber, hlog⟩ := exists_civilDate hz hz'
  refine ⟨date, daysAfterEpoch_iff.mpr hnumber, ?_, hlog, Time.civilFromDays_eq_iff hz hz' hnumber,
    ?_⟩
  · intro other hother
    exact number_inj ((daysAfterEpoch_iff.mp hother).trans hnumber.symm)
  · intro later hlt hlater hfits hfits'
    have hlow : -2 ^ 63 ≤ later := by omega
    obtain ⟨date', hnumber', -⟩ := exists_civilDate hlow hlater
    refine ⟨date, date', (Time.civilFromDays_eq_iff hz hz' hnumber).mpr hfits,
      (Time.civilFromDays_eq_iff hlow hlater hnumber').mpr hfits', ?_⟩
    apply before_of_number_lt
    omega

open Date in
theorem civilFromDays_law_epoch :
    ∃ date : Date, DaysAfterEpoch 0 date ∧ (∀ other, DaysAfterEpoch 0 other → other = date) ∧
      Log.civilFromDaysI64 0 = some date.parts ∧
      (Time.civilFromDays 0 = some date.parts ↔ EraFits 0) ∧
      ∀ later : Int, 0 < later → later + 719468 < 2 ^ 63 → EraFits 0 → EraFits later →
        ∃ a b : Date, Time.civilFromDays 0 = some a.parts ∧
          Time.civilFromDays later = some b.parts ∧ Before a b :=
  civilFromDays_law 0 (by decide) (by decide)

/-- Two days of the year 0 have one date, which is that of the second one. -/
theorem civilFromDays_repeats :
    Time.civilFromDays (-719470) = some (0, 2, 29) ∧ Time.civilFromDays (-719469) = some (0, 2, 29) ∧
      Log.civilFromDaysI64 (-719470) = some (0, 2, 28) := by
  decide

end Kernway
