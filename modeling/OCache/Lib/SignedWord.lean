import Mathlib.Data.Int.Basic
import Mathlib.Tactic.Linarith

/-!
# Exact arithmetic on signed words

The operations of `Int64` wrap. Where the exact result has 64 bits they are exact. Differences of
times saturate instead.
-/

namespace SignedWord

variable {a b : Int64}

/-- A number of 64 bits stands for itself. -/
theorem bmod_eq {x : Int} (hlower : -2 ^ 63 ≤ x) (hupper : x < 2 ^ 63) : x.bmod (2 ^ 64) = x :=
  Int.bmod_eq_of_le_mul_two (by push_cast; omega) (by push_cast; omega)

/-- A sum that fits does not wrap. -/
theorem toInt_add (hlower : -2 ^ 63 ≤ a.toInt + b.toInt) (hupper : a.toInt + b.toInt < 2 ^ 63) :
    (a + b).toInt = a.toInt + b.toInt := by
  rw [Int64.toInt_add, bmod_eq hlower hupper]

/-- A difference that fits does not wrap. -/
theorem toInt_sub (hlower : -2 ^ 63 ≤ a.toInt - b.toInt) (hupper : a.toInt - b.toInt < 2 ^ 63) :
    (a - b).toInt = a.toInt - b.toInt := by
  rw [Int64.toInt_sub, bmod_eq hlower hupper]

/-- A product that fits does not wrap. -/
theorem toInt_mul (hlower : -2 ^ 63 ≤ a.toInt * b.toInt) (hupper : a.toInt * b.toInt < 2 ^ 63) :
    (a * b).toInt = a.toInt * b.toInt := by
  rw [Int64.toInt_mul, bmod_eq hlower hupper]

/-- A number below the sign bit stays what it is. -/
theorem toInt_ofNat {n : Nat} (h : n < 2 ^ 63) : (Int64.ofNat n).toInt = n :=
  Int64.toInt_ofNat_of_lt h

/-- Numbers below the sign bit keep their order. -/
theorem ofNat_lt_ofNat {m n : Nat} (hm : m < 2 ^ 63) (hn : n < 2 ^ 63) :
    Int64.ofNat m < .ofNat n ↔ m < n := by
  rw [Int64.lt_iff_toInt_lt, toInt_ofNat hm, toInt_ofNat hn, Int.ofNat_lt]

/-- The time from `t` to `now` as a signed word, at the nearest end if it does not fit. -/
def since (now t : Int) : Int := max (-2 ^ 63) (min (2 ^ 63 - 1) (now - t))

end SignedWord
