import Mathlib.Data.Int.Basic
import Mathlib.Data.List.TakeWhile
import Mathlib.Data.Nat.Log
import Mathlib.Tactic.Ring
import OCache.Lib.ByteOrder

/-!
# Decimal numbers

Numbers printed with leading zeros to a fixed width, as `%020d` does, or without leading zeros, and
read back.
-/

namespace Decimal

/-! ## Natural numbers -/

/-- The ASCII code of the last digit. -/
def digit (n : Nat) : UInt8 := UInt8.ofNat (48 + n % 10)

/-- The last `w` digits of a number, the most significant first. -/
def fixed : Nat → Nat → List UInt8
  | 0, _ => []
  | w + 1, n => fixed w (n / 10) ++ [digit n]

def isDigit (b : UInt8) : Bool := 48 ≤ b ∧ b ≤ 57

/-- The number that digits denote. -/
def value (bs : List UInt8) : Nat := bs.foldl (fun acc b => 10 * acc + (b.toNat - 48)) 0

lemma toNat_digit (n : Nat) : (digit n).toNat = 48 + n % 10 := by
  have hlt : n % 10 < 10 := Nat.mod_lt _ (by decide)
  rw [digit, UInt8.toNat_ofNat']
  omega

lemma isDigit_digit (n : Nat) : isDigit (digit n) = true := by
  have hlt : n % 10 < 10 := Nat.mod_lt _ (by decide)
  simp only [isDigit, UInt8.le_iff_toNat_le, toNat_digit, decide_eq_true_eq, UInt8.reduceToNat]
  omega

@[simp] lemma length_fixed (w n : Nat) : (fixed w n).length = w := by
  induction w generalizing n with
  | zero => rfl
  | succ w ih => simp [fixed, ih]

variable {b : UInt8} {n w : Nat} {t : Int}

lemma isDigit_of_mem_fixed (h : b ∈ fixed w n) : isDigit b = true := by
  induction w generalizing n with
  | zero => simp [fixed] at h
  | succ w ih =>
    rcases List.mem_append.mp h with hmem | hlast
    · exact ih hmem
    · rw [List.mem_singleton.mp hlast]
      exact isDigit_digit n

lemma value_append_singleton (bs : List UInt8) (b : UInt8) :
    value (bs ++ [b]) = 10 * value bs + (b.toNat - 48) := by
  simp [value, List.foldl_append]

lemma value_fixed (w n : Nat) : value (fixed w n) = n % 10 ^ w := by
  induction w generalizing n with
  | zero => simp [fixed, value, Nat.mod_one]
  | succ w ih =>
    rw [fixed, value_append_singleton, ih, toNat_digit, Nat.add_sub_cancel_left, pow_succ,
      Nat.mul_comm (10 ^ w) 10, Nat.mod_mul]
    exact Nat.add_comm _ _

lemma digit_lt_digit {m : Nat} (h : n % 10 < m % 10) : digit n < digit m := by
  rw [UInt8.lt_iff_toNat_lt, toNat_digit, toNat_digit]
  omega

/-- Padded numbers sort by value. -/
theorem fixed_lt_fixed {m : Nat} (hm : m < 10 ^ w) (h : n < m) : fixed w n < fixed w m := by
  induction w generalizing n m with
  | zero =>
    rw [pow_zero] at hm
    omega
  | succ w ih =>
    rw [pow_succ] at hm
    rcases (Nat.div_le_div_right h.le : n / 10 ≤ m / 10).lt_or_eq with hlt | heq
    · exact ByteOrder.append_lt_append_of_lt (ih (by omega) hlt) (by simp) _ _
    · -- All digits but the last are equal.
      rw [fixed, fixed, heq]
      exact ByteOrder.append_lt_append_left _ (.rel (digit_lt_digit (by omega)))

/-! ## Signed numbers -/

/-- A number padded with zeros to the width, after its sign. -/
def format (w : Nat) (t : Int) : List UInt8 :=
  if 0 ≤ t then fixed w t.toNat else 45 :: fixed (w - 1) (-t).toNat

/-- The digits in front of some bytes, and their value; there has to be one. -/
def scanDigits (bs : List UInt8) : Option Nat :=
  if (bs.takeWhile isDigit).isEmpty then none else some (value (bs.takeWhile isDigit))

/-- The number in the first `w` bytes, with an optional sign. -/
def scan (w : Nat) (bs : List UInt8) : Option Int :=
  match bs.take w with
  | 45 :: rest => (scanDigits rest).map fun n : Nat => -(n : Int)
  | 43 :: rest => (scanDigits rest).map fun n : Nat => (n : Int)
  | rest => (scanDigits rest).map fun n : Nat => (n : Int)

lemma scanDigits_fixed (hw : 0 < w) (hn : n < 10 ^ w) : scanDigits (fixed w n) = some n := by
  have hall : (fixed w n).takeWhile isDigit = fixed w n :=
    List.takeWhile_eq_self_iff.mpr fun b hb => isDigit_of_mem_fixed hb
  have hne : (fixed w n).isEmpty = false := by
    rw [List.isEmpty_eq_false_iff]
    intro hnil
    have hlen := length_fixed w n
    rw [hnil] at hlen
    simp at hlen
    omega
  simp only [scanDigits, hall, hne, value_fixed, Nat.mod_eq_of_lt hn]
  rfl

/-- Printed digits start with a digit and not with a sign. -/
theorem scan_digits {bs : List UInt8} (hlen : bs.length ≤ w)
    (hdigits : ∀ b ∈ bs, isDigit b = true) : scan w bs = (scanDigits bs).map fun n : Nat => (n : Int) := by
  unfold scan
  rw [List.take_of_length_le hlen]
  split
  · exact absurd (hdigits 45 List.mem_cons_self) (by decide)
  · exact absurd (hdigits 43 List.mem_cons_self) (by decide)
  · rfl

lemma scan_format (hw : 1 < w) (hlower : -(10 ^ (w - 1) : Int) < t) (hupper : t < 10 ^ w) :
    scan w (format w t) = some t := by
  unfold format
  split
  · rename_i hnonneg
    have hn : t.toNat < 10 ^ w := by
      rw [← Int.ofNat_lt, Int.toNat_of_nonneg hnonneg]
      exact_mod_cast hupper
    rw [scan_digits (by simp) fun b hb => isDigit_of_mem_fixed hb, scanDigits_fixed (by omega) hn]
    simp [Int.toNat_of_nonneg hnonneg]
  · rename_i hneg
    have hpos : 0 ≤ -t := by omega
    have hn : (-t).toNat < 10 ^ (w - 1) := by
      rw [← Int.ofNat_lt, Int.toNat_of_nonneg hpos]
      push_cast
      omega
    have htake : (45 :: fixed (w - 1) (-t).toNat).take w = 45 :: fixed (w - 1) (-t).toNat :=
      List.take_of_length_le (by simp; omega)
    simp only [scan, htake, scanDigits_fixed (show 0 < w - 1 by omega) hn, Option.map_some,
      Int.toNat_of_nonneg hpos, neg_neg]

lemma length_format_of_nonneg (ht : 0 ≤ t) : (format w t).length = w := by
  rw [format, if_pos ht, length_fixed]

lemma format_lt_format {u : Int} (ht : 0 ≤ t) (hu : u < 10 ^ w) (h : t < u) :
    format w t < format w u := by
  rw [format, format, if_pos ht, if_pos (ht.trans h.le)]
  apply fixed_lt_fixed
  · rw [← Int.ofNat_lt, Int.toNat_of_nonneg (ht.trans h.le)]
    exact_mod_cast hu
  · omega

/-- A printed number is a sign and digits. -/
theorem mem_format (h : b ∈ format w t) : b = 45 ∨ isDigit b = true := by
  unfold format at h
  split at h
  · exact .inr (isDigit_of_mem_fixed h)
  · exact (List.mem_cons.mp h).imp_right isDigit_of_mem_fixed

lemma ne_slash_of_mem_format (h : b ∈ format w t) : b ≠ 47 := by
  rintro rfl
  exact absurd (mem_format h) (by decide)

lemma ne_bar_of_mem_format (h : b ∈ format w t) : b ≠ 124 := by
  rintro rfl
  exact absurd (mem_format h) (by decide)

/-! ## Numbers without padding -/

/-- A natural number without leading zeros. -/
def natural (n : Nat) : List UInt8 := fixed (Nat.log 10 n + 1) n

/-- A number without leading zeros, after its sign. -/
def itoa (t : Int) : List UInt8 := if 0 ≤ t then natural t.toNat else 45 :: natural (-t).toNat

/-- The number that a nonempty string of digits denotes. -/
def parseDigits (bs : List UInt8) : Option Nat :=
  if bs ≠ [] ∧ bs.all isDigit then some (value bs) else none

/-- The number in a string, with an optional sign. -/
def parseSigned : List UInt8 → Option Int
  | 45 :: rest => (parseDigits rest).map fun n : Nat => -(n : Int)
  | 43 :: rest => (parseDigits rest).map fun n : Nat => (n : Int)
  | rest => (parseDigits rest).map fun n : Nat => (n : Int)

/-- The number in a string, if it is a signed 64-bit one. -/
def atoi (bs : List UInt8) : Option Int :=
  (parseSigned bs).filter fun t => -2 ^ 63 ≤ t ∧ t < 2 ^ 63

lemma isDigit_of_mem_natural (h : b ∈ natural n) : isDigit b = true :=
  isDigit_of_mem_fixed h

@[simp] lemma value_natural (n : Nat) : value (natural n) = n := by
  rw [natural, value_fixed, Nat.mod_eq_of_lt (Nat.lt_pow_succ_log_self (by decide) n)]

lemma natural_ne_nil (n : Nat) : natural n ≠ [] := by
  intro hnil
  have hlen := length_fixed (Nat.log 10 n + 1) n
  rw [← natural, hnil] at hlen
  simp at hlen

lemma parseDigits_natural (n : Nat) : parseDigits (natural n) = some n := by
  have hall : (natural n).all isDigit = true :=
    List.all_eq_true.mpr fun b hb => isDigit_of_mem_natural hb
  rw [parseDigits, if_pos ⟨natural_ne_nil n, hall⟩, value_natural]

/-- A printed number is a sign or digits. -/
theorem mem_itoa (h : b ∈ itoa t) : b = 45 ∨ isDigit b = true := by
  unfold itoa at h
  split at h
  · exact .inr (isDigit_of_mem_natural h)
  · exact (List.mem_cons.mp h).imp_right isDigit_of_mem_natural

lemma parseSigned_itoa (t : Int) : parseSigned (itoa t) = some t := by
  unfold itoa
  split
  · rename_i hnonneg
    have hdigits : parseSigned (natural t.toNat) =
        (parseDigits (natural t.toNat)).map fun n : Nat => (n : Int) := by
      -- The first byte is a digit, so neither sign is read.
      unfold parseSigned
      split
      · rename_i rest heq
        have hmem : (45 : UInt8) ∈ natural t.toNat := by simp [heq]
        exact absurd (isDigit_of_mem_natural hmem) (by decide)
      · rename_i rest heq
        have hmem : (43 : UInt8) ∈ natural t.toNat := by simp [heq]
        exact absurd (isDigit_of_mem_natural hmem) (by decide)
      · rfl
    rw [hdigits, parseDigits_natural, Option.map_some, Int.toNat_of_nonneg hnonneg]
  · rename_i hneg
    have hpos : 0 ≤ -t := by omega
    rw [parseSigned, parseDigits_natural, Option.map_some, Int.toNat_of_nonneg hpos, neg_neg]

lemma atoi_itoa (hlower : -2 ^ 63 ≤ t) (hupper : t < 2 ^ 63) : atoi (itoa t) = some t := by
  rw [atoi, parseSigned_itoa, Option.filter_some, if_pos (by simpa using ⟨hlower, hupper⟩)]

/-- Different numbers print differently. -/
theorem itoa_injective : Function.Injective itoa := by
  intro t u h
  have hparsed := congrArg parseSigned h
  rw [parseSigned_itoa, parseSigned_itoa] at hparsed
  exact Option.some.inj hparsed

end Decimal
