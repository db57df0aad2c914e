import Mathlib.Algebra.Order.Ring.Int
import Mathlib.Data.Int.Basic

namespace Kernway.Gregorian

/-- The leap years of the proleptic calendar. -/
def IsLeap (y : Int) : Prop := y % 4 = 0 ∧ (y % 100 ≠ 0 ∨ y % 400 = 0)

instance (y : Int) : Decidable (IsLeap y) := inferInstanceAs (Decidable (_ ∧ _))

def daysInMonth (y : Int) (m : Nat) : Nat :=
  if m = 2 then if IsLeap y then 29 else 28
  else if m = 4 ∨ m = 6 ∨ m = 9 ∨ m = 11 then 30
  else 31

theorem daysInMonth_pos (y : Int) (m : Nat) : 1 ≤ daysInMonth y m := by
  unfold daysInMonth
  split
  next => split <;> omega
  next => split <;> omega

@[ext] structure Date where
  year : Int
  month : Nat
  day : Nat
  month_valid : 1 ≤ month ∧ month ≤ 12
  day_valid : 1 ≤ day ∧ day ≤ daysInMonth year month
  deriving DecidableEq

namespace Date

def parts (date : Date) : Int × Nat × Nat := (date.year, date.month, date.day)

theorem parts_inj {a b : Date} (h : a.parts = b.parts) : a = b := by
  obtain ⟨hy, hrest⟩ := Prod.mk.inj h
  obtain ⟨hm, hd⟩ := Prod.mk.inj hrest
  exact Date.ext hy hm hd

/-- The first of January 1970. -/
def epoch : Date := ⟨1970, 1, 1, by decide, by decide⟩

/-- The day after a date. -/
def next (date : Date) : Date :=
  if hd : date.day < daysInMonth date.year date.month then
    { date with day := date.day + 1, day_valid := ⟨by omega, hd⟩ }
  else if hm : date.month < 12 then
    { year := date.year, month := date.month + 1, day := 1, month_valid := by omega
      day_valid := ⟨le_rfl, daysInMonth_pos ..⟩ }
  else
    { year := date.year + 1, month := 1, day := 1, month_valid := by omega
      day_valid := ⟨le_rfl, daysInMonth_pos ..⟩ }

/-- The order of the calendar. -/
def Before (a b : Date) : Prop :=
  a.year < b.year ∨ a.year = b.year ∧ (a.month < b.month ∨ a.month = b.month ∧ a.day < b.day)

/-- A date lies so many days after the epoch, or before it. -/
inductive DaysAfterEpoch : Int → Date → Prop
  | epoch : DaysAfterEpoch 0 epoch
  | next {n : Int} {date : Date} : DaysAfterEpoch n date → DaysAfterEpoch (n + 1) date.next
  | back {n : Int} {date : Date} : DaysAfterEpoch (n + 1) date.next → DaysAfterEpoch n date

end Date

/-- The days of a year before a month of it. -/
def daysBeforeMonth (y : Int) : Nat → Nat
  | 0 => 0
  | 1 => 0
  | m + 2 => daysBeforeMonth y (m + 1) + daysInMonth y (m + 1)

/-- The days from the first of January of the year 1 to that of another year. -/
def daysBeforeYear (y : Int) : Int :=
  365 * (y - 1) + (y - 1) / 4 - (y - 1) / 100 + (y - 1) / 400

/-- The days from the epoch to a day of a month of a year. -/
def numberOf (y : Int) (m d : Nat) : Int :=
  daysBeforeYear y + daysBeforeMonth y m + d - 719163

def Date.number (date : Date) : Int := numberOf date.year date.month date.day

section Years

theorem daysBeforeMonth_succ (y : Int) {m : Nat} (h : 1 ≤ m) :
    daysBeforeMonth y (m + 1) = daysBeforeMonth y m + daysInMonth y m := by
  obtain ⟨k, rfl⟩ := Nat.exists_eq_add_of_le' h
  rfl

theorem daysBeforeMonth_lt (y : Int) {m m' : Nat} (h : 1 ≤ m) (hlt : m < m') :
    daysBeforeMonth y m + daysInMonth y m ≤ daysBeforeMonth y m' := by
  induction m', hlt using Nat.le_induction with
  | base => exact (daysBeforeMonth_succ y h).ge
  | succ m' hle ih =>
    have hm' : 1 ≤ m' := h.trans (Nat.le_of_succ_le hle)
    have hstep := daysBeforeMonth_succ y hm'
    omega

def leapDay (y : Int) : Nat := if IsLeap y then 1 else 0

theorem daysInMonth_february (y : Int) : daysInMonth y 2 = 28 + leapDay y := by
  unfold daysInMonth leapDay
  rw [if_pos rfl]
  split
  next => rfl
  next => rfl

theorem daysInMonth_eq (y : Int) (m : Nat) : daysInMonth y (m + 3) = daysInMonth 1 (m + 3) := by
  have hne : m + 3 ≠ 2 := by omega
  unfold daysInMonth
  rw [if_neg hne, if_neg hne]

/-- The months of a year behind February. -/
theorem daysBeforeMonth_eq (y : Int) (m : Nat) :
    daysBeforeMonth y (m + 3) = daysBeforeMonth 1 (m + 3) + leapDay y := by
  induction m with
  | zero =>
    have hfebruary := daysInMonth_february y
    show 0 + 31 + daysInMonth y 2 = 59 + leapDay y
    omega
  | succ m ih =>
    have hmonth := daysInMonth_eq y m
    have hy := daysBeforeMonth_succ y (m := m + 3) (by omega)
    have hone := daysBeforeMonth_succ 1 (m := m + 3) (by omega)
    have hm : m + 1 + 3 = m + 3 + 1 := by omega
    rw [hm]
    omega

theorem daysBeforeMonth_december (y : Int) : daysBeforeMonth y 12 = 334 + leapDay y :=
  daysBeforeMonth_eq y 9

theorem daysBeforeYear_succ (y : Int) :
    daysBeforeYear (y + 1) = daysBeforeYear y + 365 + leapDay y := by
  unfold daysBeforeYear leapDay
  by_cases h : IsLeap y
  · rw [if_pos h]
    unfold IsLeap at h
    omega
  · rw [if_neg h]
    unfold IsLeap at h
    omega

theorem daysBeforeYear_lt {y y' : Int} (h : y < y') :
    daysBeforeYear (y + 1) ≤ daysBeforeYear y' := by
  unfold daysBeforeYear
  omega

end Years

namespace Date

variable {a b : Date} {n : Int}

theorem month_end_le (date : Date) :
    daysBeforeMonth date.year date.month + daysInMonth date.year date.month ≤
      365 + leapDay date.year := by
  have hlast := daysBeforeMonth_december date.year
  rcases Nat.lt_or_ge date.month 12 with hm | hm
  · have hle := daysBeforeMonth_lt date.year date.month_valid.1 hm
    omega
  · have heq : date.month = 12 := Nat.le_antisymm date.month_valid.2 hm
    have hthirty : daysInMonth date.year 12 = 31 := rfl
    rw [heq]
    omega

/-- Numbers of days follow the order of the calendar. -/
theorem number_lt (h : Before a b) : a.number < b.number := by
  have hday := a.day_valid.2
  have hday' := b.day_valid.1
  unfold number numberOf
  rcases h with hy | ⟨hy, hm | ⟨hm, hd⟩⟩
  · have hend := a.month_end_le
    have hnext := daysBeforeYear_succ a.year
    have hle := daysBeforeYear_lt hy
    omega
  · have hle := daysBeforeMonth_lt a.year a.month_valid.1 hm
    rw [← hy]
    omega
  · rw [← hy, ← hm]
    omega

theorem before_trichotomy (a b : Date) : Before a b ∨ a = b ∨ Before b a := by
  unfold Before
  rcases lt_trichotomy a.year b.year with hy | hy | hy
  · exact .inl (.inl hy)
  · rcases lt_trichotomy a.month b.month with hm | hm | hm
    · exact .inl (.inr ⟨hy, .inl hm⟩)
    · rcases lt_trichotomy a.day b.day with hd | hd | hd
      · exact .inl (.inr ⟨hy, .inr ⟨hm, hd⟩⟩)
      · exact .inr (.inl (Date.ext hy hm hd))
      · exact .inr (.inr (.inr ⟨hy.symm, .inr ⟨hm.symm, hd⟩⟩))
    · exact .inr (.inr (.inr ⟨hy.symm, .inl hm⟩))
  · exact .inr (.inr (.inl hy))

theorem number_inj (h : a.number = b.number) : a = b := by
  rcases before_trichotomy a b with hlt | heq | hlt
  · exact absurd h (number_lt hlt).ne
  · exact heq
  · exact absurd h.symm (number_lt hlt).ne

theorem before_of_number_lt (h : a.number < b.number) : Before a b := by
  rcases before_trichotomy a b with hlt | heq | hlt
  · exact hlt
  · rw [heq] at h
    exact absurd h (lt_irrefl _)
  · have hgt := number_lt hlt
    omega

theorem number_epoch : epoch.number = 0 := by decide

theorem number_next (date : Date) : date.next.number = date.number + 1 := by
  have hvalid := date.day_valid.2
  unfold next
  split
  next hd =>
    unfold number numberOf
    push_cast
    omega
  next hd =>
    split
    next hm =>
      have hstep := daysBeforeMonth_succ date.year date.month_valid.1
      unfold number numberOf
      dsimp only
      omega
    next hm =>
      have heq : date.month = 12 := by
        have hle := date.month_valid.2
        omega
      have hlast := daysBeforeMonth_december date.year
      have hthirty : daysInMonth date.year 12 = 31 := rfl
      have hyear := daysBeforeYear_succ date.year
      have hfirst : daysBeforeMonth (date.year + 1) 1 = 0 := rfl
      unfold number numberOf
      rw [heq] at hd hvalid ⊢
      dsimp only
      omega

/-- Every date has one before it. -/
theorem exists_next_eq (date : Date) : ∃ earlier : Date, earlier.next = date := by
  suffices h : ∃ earlier : Date, earlier.number + 1 = date.number by
    obtain ⟨earlier, hnumber⟩ := h
    exact ⟨earlier, number_inj ((number_next earlier).trans hnumber)⟩
  obtain ⟨y, m, d, hm, hd⟩ := date
  by_cases hday : 1 < d
  · refine ⟨⟨y, m, d - 1, hm, by omega, by omega⟩, ?_⟩
    unfold number numberOf
    dsimp only
    omega
  by_cases hmonth : 1 < m
  · have hpos := daysInMonth_pos y (m - 1)
    have hstep := daysBeforeMonth_succ y (m := m - 1) (by omega)
    have hback : m - 1 + 1 = m := by omega
    rw [hback] at hstep
    refine ⟨⟨y, m - 1, daysInMonth y (m - 1), by omega, hpos, le_rfl⟩, ?_⟩
    unfold number numberOf
    dsimp only
    omega
  · have hone : m = 1 := by omega
    subst hone
    have hlast := daysBeforeMonth_december (y - 1)
    have hthirty : daysInMonth (y - 1) 12 = 31 := rfl
    have hyear := daysBeforeYear_succ (y - 1)
    have hback : y - 1 + 1 = y := by omega
    have hfirst : daysBeforeMonth y 1 = 0 := rfl
    rw [hback] at hyear
    refine ⟨⟨y - 1, 12, 31, by omega, by omega, by omega⟩, ?_⟩
    unfold number numberOf
    dsimp only
    omega

/-- The number of a date is the count of the days from the epoch to it. -/
theorem daysAfterEpoch_iff {date : Date} : DaysAfterEpoch n date ↔ date.number = n := by
  constructor
  · intro h
    induction h with
    | epoch => exact number_epoch
    | next _ ih => rw [number_next, ih]
    | @back n date _ ih =>
      have hnext := date.number_next
      omega
  · intro h
    induction n generalizing date with
    | zero =>
      rw [number_inj (h.trans number_epoch.symm)]
      exact .epoch
    | succ n ih =>
      obtain ⟨earlier, rfl⟩ := exists_next_eq date
      have hnext := earlier.number_next
      exact .next (ih (by omega))
    | pred n ih =>
      have hnext := date.number_next
      have hsucc : DaysAfterEpoch (-n) date.next := ih (by omega)
      have hback : -(n : Int) - 1 + 1 = -n := by omega
      rw [← hback] at hsucc
      exact .back hsucc

end Date

end Kernway.Gregorian
