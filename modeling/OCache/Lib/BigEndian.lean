import Mathlib

/-!
# Big-endian numbers

Unsigned numbers of a fixed number of bytes, most significant byte first.
-/

namespace BigEndian

/-- The low `w` bytes of `n`. -/
def putUint : Nat → Nat → List UInt8
  | 0, _ => []
  | w + 1, n => UInt8.ofNat (n / 256 ^ w) :: putUint w n

/-- The number that the bytes spell. -/
def uint (b : List UInt8) : Nat := b.foldl (fun n x => n * 256 + x.toNat) 0

/-- The encoding has the width it was asked for. -/
@[simp] theorem length_putUint (w n : Nat) : (putUint w n).length = w := by
  induction w with
  | zero => rfl
  | succ w ih => simp [putUint, ih]

/-- Reading the encoding behind digits that were read before. -/
theorem foldl_putUint (w n start : Nat) :
    (putUint w n).foldl (fun n x => n * 256 + x.toNat) start = start * 256 ^ w + n % 256 ^ w := by
  induction w generalizing start with
  | zero => simp [putUint, Nat.mod_one]
  | succ w ih =>
    have hhead : (UInt8.ofNat (n / 256 ^ w)).toNat = n / 256 ^ w % 256 := by simp
    -- The leading byte and the rest are the two digits of `n` in base `256 ^ w`.
    have hsplit : n % 256 ^ (w + 1) = 256 ^ w * (n / 256 ^ w % 256) + n % 256 ^ w := by
      rw [pow_succ, Nat.mod_mul]
      ring
    rw [putUint, List.foldl_cons, ih, hhead, hsplit, pow_succ]
    ring

/-- What does not fit into the width is lost. -/
theorem uint_putUint (w n : Nat) : uint (putUint w n) = n % 256 ^ w := by
  rw [uint, foldl_putUint]
  simp

/-- What fits is read back. -/
theorem uint_putUint_of_lt {w n : Nat} (h : n < 256 ^ w) : uint (putUint w n) = n := by
  rw [uint_putUint, Nat.mod_eq_of_lt h]

end BigEndian
