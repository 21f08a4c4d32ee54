import Mathlib.Tactic.IntervalCases
import Mathlib.Tactic.Common

/-!
# The Gregorian calendar

Leap years, the lengths of months and years, and the weekday as the number of days since the
first of January of year 1, a Monday. `zeller_weekday` is Zeller's congruence.
-/

namespace Gregorian

-- ---------------------------------------------------------------------------
-- Dates
-- ---------------------------------------------------------------------------

def IsLeap (y : ℕ) : Prop := 4 ∣ y ∧ (¬ 100 ∣ y ∨ 400 ∣ y)

instance (y : ℕ) : Decidable (IsLeap y) := inferInstanceAs (Decidable (_ ∧ _))

def yearLength (y : ℕ) : ℕ := if IsLeap y then 366 else 365

def monthLength (y m : ℕ) : ℕ :=
  match m with
  | 2 => if IsLeap y then 29 else 28
  | 4 | 6 | 9 | 11 => 30
  | _ => 31

structure ValidDate (y m d : ℕ) : Prop where
  year : 1 ≤ y
  month : 1 ≤ m ∧ m ≤ 12
  day : 1 ≤ d ∧ d ≤ monthLength y m

-- ---------------------------------------------------------------------------
-- Weekdays
-- ---------------------------------------------------------------------------

/-- The days of the years 1 to `n`. -/
def yearsDays : ℕ → ℕ
  | 0 => 0
  | n + 1 => yearsDays n + yearLength (n + 1)

/-- The days of the first `n` months of a year. -/
def monthsDays (y : ℕ) : ℕ → ℕ
  | 0 => 0
  | n + 1 => monthsDays y n + monthLength y (n + 1)

/-- The number of a day, the first of January of year 1 being day 1. -/
def dayNumber (y m d : ℕ) : ℕ := yearsDays (y - 1) + monthsDays y (m - 1) + d

/-- The weekday of a date, Sunday being 0. -/
def weekday (y m d : ℕ) : ℕ := dayNumber y m d % 7

theorem yearsDays_add (n : ℕ) : yearsDays n + n / 100 = 365 * n + n / 4 + n / 400 := by
  induction n with
  | zero => rfl
  | succ n ih =>
    rw [yearsDays, yearLength]
    by_cases h : IsLeap (n + 1)
    · rw [if_pos h]
      unfold IsLeap at h
      omega
    · rw [if_neg h]
      unfold IsLeap at h
      omega

/-- A year's day of leap comes before its third month. -/
theorem monthsDays_leap (y : ℕ) {m : ℕ} (h : 2 ≤ m) (h12 : m ≤ 11) :
    monthsDays y m + 365 = monthsDays 1 m + yearLength y := by
  have hone : ¬ IsLeap 1 := by decide
  interval_cases m <;> simp only [monthsDays, monthLength, yearLength, if_neg hone] <;>
    split <;> rfl

-- ---------------------------------------------------------------------------
-- Zeller's congruence
-- ---------------------------------------------------------------------------

/-- Zeller's congruence, with March as month 3 and February as month 14 of the year before.
Saturday is 0. -/
def zeller (y m d : ℕ) : ℕ :=
  (d + 13 * (m + 1) / 5 + y % 100 + y % 100 / 4 + y / 100 / 4 + 5 * (y / 100)) % 7

theorem split_century (y : ℕ) : ∃ j k, k < 100 ∧ y = 100 * j + k :=
  ⟨y / 100, y % 100, Nat.mod_lt _ (by decide), (Nat.div_add_mod y 100).symm⟩

theorem zeller_century (j m d : ℕ) {k : ℕ} (hk : k < 100) :
    zeller (100 * j + k) m d = (d + 13 * (m + 1) / 5 + k + k / 4 + j / 4 + 5 * j) % 7 := by
  have hmod : (100 * j + k) % 100 = k := by omega
  have hdiv : (100 * j + k) / 100 = j := by omega
  rw [zeller, hmod, hdiv]

theorem yearsDays_century (j : ℕ) {k : ℕ} (hk : k < 100) :
    yearsDays (100 * j + k) % 7 = (5 * j + j / 4 + k + k / 4) % 7 := by
  have hclosed := yearsDays_add (100 * j + k)
  have h100 : (100 * j + k) / 100 = j := by omega
  have h4 : (100 * j + k) / 4 = 25 * j + k / 4 := by omega
  have h400 : (100 * j + k) / 400 = j / 4 := by omega
  rw [h100, h4, h400] at hclosed
  omega

theorem zeller_march {y m d : ℕ} (hy : 1 ≤ y) (hm : 3 ≤ m) (h12 : m ≤ 12) :
    (zeller y m d + 6) % 7 = weekday y m d := by
  have hyear : yearsDays (y - 1) + yearLength y = yearsDays y := by
    obtain ⟨n, rfl⟩ : ∃ n, y = n + 1 := ⟨y - 1, by omega⟩
    rfl
  have hmonths := monthsDays_leap y (m := m - 1) (by omega) (by omega)
  have hbase : monthsDays 1 (m - 1) % 7 = 13 * (m + 1) / 5 % 7 := by
    interval_cases m <;> decide
  obtain ⟨j, k, hk, rfl⟩ := split_century y
  have hclosed := yearsDays_century j hk
  rw [weekday, dayNumber, zeller_century j m d hk]
  generalize 13 * (m + 1) / 5 = c at *
  omega

theorem zeller_january {y m d : ℕ} (hm : 1 ≤ m) (h2 : m ≤ 2) :
    (zeller (y - 1) (m + 12) d + 6) % 7 = weekday y m d := by
  have hbase : monthsDays y (m - 1) % 7 = (13 * (m + 12 + 1) / 5 + 6) % 7 := by
    interval_cases m <;> simp [monthsDays, monthLength]
  rw [weekday, dayNumber]
  obtain ⟨j, k, hk, hy⟩ := split_century (y - 1)
  have hclosed := yearsDays_century j hk
  rw [hy, zeller_century j (m + 12) d hk]
  generalize 13 * (m + 12 + 1) / 5 = c at *
  omega

/-- **Zeller's congruence is the calendar's weekday.** -/
theorem zeller_weekday {y m d : ℕ} (h : ValidDate y m d) :
    ((if m < 3 then zeller (y - 1) (m + 12) d else zeller y m d) + 6) % 7 = weekday y m d := by
  by_cases h3 : m < 3
  · rw [if_pos h3]
    exact zeller_january h.month.1 (by omega)
  · rw [if_neg h3]
    exact zeller_march h.year (by omega) h.month.2

example : weekday 2000 1 1 = 6 := by decide +kernel

end Gregorian
