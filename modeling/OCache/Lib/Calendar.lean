import Mathlib.Data.Nat.Find
import Mathlib.Data.Prod.Lex
import Mathlib.Order.Monotone.Basic
import Mathlib.Tactic.Linarith

/-!
# Civil time

The Gregorian calendar, counted in hours from the first of January of the year 0, and the number
whose decimal digits are year, month, day and hour.
-/

namespace Calendar

/-! ## Years -/

variable (y : Nat)

def isLeap : Bool := y % 4 = 0 ∧ (y % 100 ≠ 0 ∨ y % 400 = 0)

/-- The days before the first of January of a year. -/
def yearStart : Nat := 365 * y + (y + 3) / 4 - (y + 99) / 100 + (y + 399) / 400

variable (day : Nat)

/-- The year of a day. -/
def yearOf : Nat := Nat.findGreatest (fun y => yearStart y ≤ day) (day / 365)

def dayOfYear : Nat := day - yearStart (yearOf day)

lemma le_yearStart : 365 * y ≤ yearStart y := by
  unfold yearStart
  omega

/-- Rounded-up quotients grow at the multiples of the divisor. -/
theorem ceil_succ (y m : Nat) :
    (y + 1 + m) / (m + 1) = (y + m) / (m + 1) + if y % (m + 1) = 0 then 1 else 0 := by
  have hdvd : m + 1 ∣ y + m + 1 ↔ y % (m + 1) = 0 := by
    rw [Nat.add_assoc, Nat.dvd_add_self_right, Nat.dvd_iff_mod_eq_zero]
  rw [Nat.add_right_comm, Nat.succ_div]
  simp only [hdvd]

lemma yearStart_succ : yearStart (y + 1) = yearStart y + if isLeap y then 366 else 365 := by
  have h4 : (y + 1 + 3) / 4 = (y + 3) / 4 + if y % 4 = 0 then 1 else 0 := ceil_succ y 3
  have h100 : (y + 1 + 99) / 100 = (y + 99) / 100 + if y % 100 = 0 then 1 else 0 := ceil_succ y 99
  have h400 : (y + 1 + 399) / 400 = (y + 399) / 400 + if y % 400 = 0 then 1 else 0 := ceil_succ y 399
  have hle : (y + 99) / 100 ≤ 365 * y := by omega
  simp only [yearStart, isLeap, decide_eq_true_eq, h4, h100, h400]
  by_cases hfour : y % 4 = 0
  · by_cases hcentury : y % 100 = 0
    · by_cases hcycle : y % 400 = 0 <;> simp [hfour, hcentury, hcycle] <;> omega
    · have hcycle : y % 400 ≠ 0 := by omega
      simp [hfour, hcentury, hcycle]
      omega
  · have hcentury : y % 100 ≠ 0 := by omega
    have hcycle : y % 400 ≠ 0 := by omega
    simp [hfour, hcentury, hcycle]
    omega

lemma yearStart_strictMono : StrictMono yearStart := by
  apply strictMono_nat_of_lt_succ
  intro y
  rw [yearStart_succ]
  split <;> omega

lemma yearStart_yearOf_le : yearStart (yearOf day) ≤ day :=
  Nat.findGreatest_spec (P := fun y => yearStart y ≤ day) (Nat.zero_le _) (by simp [yearStart])

lemma lt_yearStart_succ : day < yearStart (yearOf day + 1) := by
  by_contra! hle
  have hbound : yearOf day + 1 ≤ day / 365 := by
    have hmul := le_yearStart (yearOf day + 1)
    omega
  exact Nat.findGreatest_is_greatest (Nat.lt_succ_self _) hbound hle

lemma yearOf_mono : Monotone yearOf := by
  intro d e h
  by_contra! hlt
  have hstart : yearStart (yearOf e + 1) ≤ yearStart (yearOf d) := yearStart_strictMono.monotone hlt
  have hd := yearStart_yearOf_le d
  have he := lt_yearStart_succ e
  omega

lemma yearOf_lt {day y : Nat} (h : day < yearStart y) : yearOf day < y := by
  have hle := yearStart_yearOf_le day
  exact yearStart_strictMono.lt_iff_lt.mp (by omega)

/-! ## Months -/

def monthLengths : List Nat :=
  [31, if isLeap y then 29 else 28, 31, 30, 31, 30, 31, 31, 30, 31, 30, 31]

/-- The number of whole months in some days, and the days left. -/
def monthAndDay : List Nat → Nat → Nat × Nat
  | [], day => (0, day)
  | len :: lens, day =>
    if day < len then (0, day)
    else ((monthAndDay lens (day - len)).1 + 1, (monthAndDay lens (day - len)).2)

/-- Later days are in a later month, or are later days of the same one. -/
theorem monthAndDay_strictMono (lens : List Nat) {d e : Nat} (h : d < e) :
    (monthAndDay lens d).1 < (monthAndDay lens e).1 ∨
      (monthAndDay lens d).1 = (monthAndDay lens e).1 ∧
        (monthAndDay lens d).2 < (monthAndDay lens e).2 := by
  induction lens generalizing d e with
  | nil => exact .inr ⟨rfl, h⟩
  | cons len lens ih =>
    by_cases hd : d < len
    · by_cases he : e < len
      · simpa [monthAndDay, hd, he] using h
      · simp [monthAndDay, hd, he]
    · have he : ¬e < len := by omega
      simpa [monthAndDay, hd, he] using ih (show d - len < e - len by omega)

lemma monthAndDay_lt {lens : List Nat} {d : Nat} (h : d < lens.sum) (hlens : ∀ l ∈ lens, l ≤ 31) :
    (monthAndDay lens d).1 < lens.length ∧ (monthAndDay lens d).2 < 31 := by
  induction lens generalizing d with
  | nil => simp at h
  | cons len lens ih =>
    have hlen := hlens len List.mem_cons_self
    by_cases hd : d < len
    · simp only [monthAndDay, hd, if_true, List.length_cons]
      omega
    · have hrest : d - len < lens.sum := by
        rw [List.sum_cons] at h
        omega
      have hlt := ih hrest fun l hl => hlens l (List.mem_cons_of_mem _ hl)
      simp only [monthAndDay, hd, if_false, List.length_cons]
      omega

lemma monthLengths_le : ∀ l ∈ monthLengths y, l ≤ 31 := by
  simp only [monthLengths]
  split <;> simp

lemma sum_monthLengths : (monthLengths y).sum = if isLeap y then 366 else 365 := by
  simp only [monthLengths]
  split <;> rfl

/-! ## Stamps -/

/-- Month and day of a day, each counted from 0. -/
def date : Nat × Nat := monthAndDay (monthLengths (yearOf day)) (dayOfYear day)

/-- The number with the digits `YYYYMMDDHH`. -/
def hourStamp (hour : Nat) : Nat :=
  yearOf (hour / 24) * 1000000 + ((date (hour / 24)).1 + 1) * 10000 + ((date (hour / 24)).2 + 1) * 100 +
    hour % 24

lemma date_lt : (date day).1 < 12 ∧ (date day).2 < 31 := by
  have hrest : dayOfYear day < (monthLengths (yearOf day)).sum := by
    have hle := yearStart_yearOf_le day
    have hlt := lt_yearStart_succ day
    rw [yearStart_succ] at hlt
    rw [sum_monthLengths, dayOfYear]
    omega
  exact monthAndDay_lt hrest (monthLengths_le _)

lemma date_strictMono {d e : Nat} (h : d < e) (hyear : yearOf d = yearOf e) :
    (date d).1 < (date e).1 ∨ (date d).1 = (date e).1 ∧ (date d).2 < (date e).2 := by
  have hle := yearStart_yearOf_le d
  unfold date dayOfYear
  rw [hyear] at hle ⊢
  exact monthAndDay_strictMono _ (by omega)

lemma hourStamp_mono : Monotone hourStamp := by
  intro h k hle
  have hday : h / 24 ≤ k / 24 := Nat.div_le_div_right hle
  have hh := date_lt (h / 24)
  have hk := date_lt (k / 24)
  unfold hourStamp
  -- Year, month, day and hour in turn: the first that differs decides.
  rcases (yearOf_mono hday).lt_or_eq with hyear | hyear
  · omega
  · rcases hday.lt_or_eq with hlt | heq
    · have hdate := date_strictMono hlt hyear
      omega
    · rw [heq]
      omega

lemma hourStamp_lt {hour : Nat} (h : hour / 24 < yearStart 10000) : hourStamp hour < 10 ^ 10 := by
  have hyear := yearOf_lt h
  have hdate := date_lt (hour / 24)
  unfold hourStamp
  omega

end Calendar
