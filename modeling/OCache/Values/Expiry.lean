import OCache.Lib.SignedWord
import OCache.Store.Calls

/-!
# The expiry of a value

`Put` and `PutIfVersion` turn a time to live in seconds into the second at which the value expires.
The multiplication to nanoseconds wraps, `Time.Add` saturates.
-/

namespace OCache.Values

open Merge SignedWord

/-- `time.Second` -/
def second : Int64 := 1000000000

/-- `time.Time`: seconds from the start of the year 1, and nanoseconds. -/
structure Time where
  sec : Int64
  nsec : Nat
  nsec_lt : nsec < 1000000000 := by decide

namespace Time

/-- `unixToInternal` -/
def unixToInternal : Int64 := 62135596800

/-- `Time.Unix` -/
def unix (t : Time) : Int64 := t.sec - unixToInternal

/-- The time at a second from the start of 1970. -/
def ofUnix (sec : Int64) : Time := { sec := sec + unixToInternal, nsec := 0 }

/-- `Time.addSec` saturates. -/
def addSec (sec d : Int64) : Int64 :=
  if (sec < sec + d) = (0 < d) then sec + d
  else if 0 < d then Int64.maxValue
  else -Int64.maxValue

/-- `Time.Add` -/
def add (t : Time) (d : Int64) : Time :=
  let nsec := t.nsec + (d % second).toInt
  -- The remainder has the sign of the duration.
  let dsec := if 1000000000 ≤ nsec then d / second + 1 else if nsec < 0 then d / second - 1 else d / second
  { sec := addSec t.sec dsec
    nsec := (nsec % 1000000000).toNat
    nsec_lt := by omega }

end Time

/-- The expiry that `Put` and `PutIfVersion` compute. -/
def expiryAt (now : Time) (defaultTTL ttl : Int64) : Int64 :=
  let ttl := if ttl ≤ 0 then defaultTTL else ttl
  if 0 < ttl then (now.add (ttl * second)).unix else 0

/-! ## Times to live that do not wrap -/

/-- The longest time to live whose nanoseconds have 64 bits. -/
def maxTTL : Int64 := 9223372036

/-- A sum beyond the 64-bit numbers saturates. -/
theorem toInt_addSec {sec d : Int64} (h : -2 ^ 63 ≤ sec.toInt + d.toInt) :
    (Time.addSec sec d).toInt = min (sec.toInt + d.toInt) (2 ^ 63 - 1) := by
  have hsec := Int64.toInt_lt sec
  have hd := Int64.toInt_lt d
  by_cases hupper : sec.toInt + d.toInt < 2 ^ 63
  · have hadd : (sec + d).toInt = sec.toInt + d.toInt := toInt_add h hupper
    have hgrows : (sec < sec + d) = (0 < d) := by
      rw [Int64.lt_iff_toInt_lt, Int64.lt_iff_toInt_lt, hadd, Int64.toInt_zero, eq_iff_iff]
      omega
    rw [Time.addSec, if_pos hgrows, hadd]
    omega
  · -- The sum wraps once, so it seems to shrink although the duration is positive.
    have hadd : (sec + d).toInt = sec.toInt + d.toInt - 2 ^ 64 := by
      rw [Int64.toInt_add, ← Int.sub_bmod_right, bmod_eq] <;> omega
    have hpos : 0 < d := by
      rw [Int64.lt_iff_toInt_lt, Int64.toInt_zero]
      omega
    have hshrinks : ¬(sec < sec + d) = (0 < d) := by
      rw [Int64.lt_iff_toInt_lt, hadd, eq_iff_iff, iff_true_right hpos]
      omega
    rw [Time.addSec, if_neg hshrinks, if_pos hpos, Int64.toInt_maxValue]
    omega

/-- Whole seconds leave the nanoseconds alone. -/
theorem sec_add_seconds (t : Time) {ttl : Int64} (hpos : 0 < ttl.toInt)
    (hmax : ttl.toInt ≤ 9223372036) (hupper : t.sec.toInt + ttl.toInt < 2 ^ 63) :
    (t.add (ttl * second)).sec.toInt = t.sec.toInt + ttl.toInt := by
  have hsecond : second.toInt = 1000000000 := by decide
  have hmul : (ttl * second).toInt = ttl.toInt * 1000000000 := by
    rw [toInt_mul, hsecond] <;> rw [hsecond] <;> omega
  have hmod : ((ttl * second) % second).toInt = 0 := by
    rw [Int64.toInt_mod, hmul, hsecond]
    exact Int.mul_tmod_left _ _
  have hdiv : (ttl * second) / second = ttl := by
    rw [← Int64.toInt_inj, Int64.toInt_div, hmul, hsecond, Int.mul_tdiv_cancel _ (by decide)]
    exact bmod_eq (by omega) (by omega)
  have hnsec := t.nsec_lt
  simp only [Time.add, hmod, hdiv]
  rw [if_neg (by omega), if_neg (by omega)]
  rw [toInt_addSec (by have := Int64.le_toInt t.sec; omega)]
  omega

lemma toInt_unix {t : Time} (h : -2 ^ 63 ≤ t.sec.toInt - 62135596800) :
    t.unix.toInt = t.sec.toInt - 62135596800 := by
  have hconst : Time.unixToInternal.toInt = 62135596800 := by decide
  rw [Time.unix, toInt_sub, hconst] <;> rw [hconst]
  · exact h
  · have := Int64.toInt_lt t.sec
    omega

/-- The clock is not before 1970, and so far from the end of time that a time to live can be
added. -/
structure Time.Plausible (t : Time) : Prop where
  after : 62135596800 ≤ t.sec.toInt
  before : t.sec.toInt + maxTTL.toInt < 2 ^ 63

/-- A time to live that is given takes precedence over the default. -/
theorem expiryAt_of_pos (now : Time) (defaultTTL : Int64) {ttl : Int64} (hpos : 1 ≤ ttl) :
    expiryAt now defaultTTL ttl = (now.add (ttl * second)).unix := by
  have hone : 1 ≤ ttl.toInt := by simpa using Int64.le_iff_toInt_le.mp hpos
  have hnotle : ¬ttl ≤ 0 := by
    rw [Int64.le_iff_toInt_le, Int64.toInt_zero]
    omega
  have hlt : 0 < ttl := by
    rw [Int64.lt_iff_toInt_lt, Int64.toInt_zero]
    omega
  simp only [expiryAt, if_neg hnotle, if_pos hlt]

/-- Up to `maxTTL` the expiry is the exact sum. -/
theorem toInt_expiryAt {now : Time} (hnow : now.Plausible) (defaultTTL : Int64) {ttl : Int64}
    (hpos : 1 ≤ ttl) (hmax : ttl ≤ maxTTL) :
    (expiryAt now defaultTTL ttl).toInt = now.unix.toInt + ttl.toInt := by
  have hone : 1 ≤ ttl.toInt := by simpa using Int64.le_iff_toInt_le.mp hpos
  have hle : ttl.toInt ≤ 9223372036 := by simpa [maxTTL] using Int64.le_iff_toInt_le.mp hmax
  have hbefore : now.sec.toInt + 9223372036 < 2 ^ 63 := by simpa [maxTTL] using hnow.before
  have hafter := hnow.after
  have hsec := @sec_add_seconds now ttl (by omega) hle (by omega)
  rw [expiryAt_of_pos now defaultTTL hpos, toInt_unix (by rw [hsec]; omega), toInt_unix (by omega), hsec]
  omega

/-! ## Times to live that wrap -/

/-- The seconds of a duration. -/
theorem toInt_div_second (d : Int64) :
    (d / second).toInt = d.toInt.tdiv 1000000000 ∧ (d.toInt.tdiv 1000000000).natAbs ≤ 9223372036 := by
  have hlower := Int64.le_toInt d
  have hupper := Int64.toInt_lt d
  have hbound : (d.toInt.tdiv 1000000000).natAbs ≤ 9223372036 := by
    rw [Int.natAbs_tdiv]
    show d.toInt.natAbs / 1000000000 ≤ 9223372036
    omega
  refine ⟨?_, hbound⟩
  rw [Int64.toInt_div, show second.toInt = 1000000000 by decide]
  exact bmod_eq (by omega) (by omega)

/-- A time moves by the seconds of the duration, and by at most one more because of the
nanoseconds. -/
theorem sec_add_le (t : Time) (d : Int64) (hsec : 9223372037 ≤ t.sec.toInt) :
    0 ≤ (t.add d).sec.toInt ∧ (t.add d).sec.toInt ≤ t.sec.toInt + (d.toInt.tdiv 1000000000 + 1) := by
  obtain ⟨hdiv, hbound⟩ := toInt_div_second d
  have hone : (1 : Int64).toInt = 1 := by decide
  have hplus : (d / second + 1).toInt = d.toInt.tdiv 1000000000 + 1 := by
    rw [toInt_add, hdiv, hone] <;> rw [hdiv, hone] <;> omega
  have hminus : (d / second - 1).toInt = d.toInt.tdiv 1000000000 - 1 := by
    rw [toInt_sub, hdiv, hone] <;> rw [hdiv, hone] <;> omega
  -- The carry is one second, in either direction.
  obtain ⟨dsec, hadd, hlower, hupper⟩ : ∃ dsec, (t.add d).sec = Time.addSec t.sec dsec ∧
      d.toInt.tdiv 1000000000 - 1 ≤ dsec.toInt ∧ dsec.toInt ≤ d.toInt.tdiv 1000000000 + 1 := by
    refine ⟨_, rfl, ?_, ?_⟩
    all_goals
      split_ifs
      all_goals omega
  have htop := Int64.toInt_lt t.sec
  rw [hadd, toInt_addSec (by omega)]
  omega

/-- Beyond `maxTTL` the expiry is before its time. -/
theorem toInt_expiryAt_lt {now : Time} (hnow : now.Plausible) (defaultTTL : Int64) {ttl : Int64}
    (hmax : maxTTL < ttl) : (expiryAt now defaultTTL ttl).toInt < now.unix.toInt + ttl.toInt := by
  have hlt : 9223372036 < ttl.toInt := by simpa [maxTTL] using Int64.lt_iff_toInt_lt.mp hmax
  have hpos : 1 ≤ ttl := Int64.le_iff_toInt_le.mpr (by rw [show (1 : Int64).toInt = 1 by decide]; omega)
  have hafter := hnow.after
  obtain ⟨hlower, hupper⟩ := sec_add_le now (ttl * second) (by omega)
  obtain ⟨-, hbound⟩ := toInt_div_second (ttl * second)
  rw [expiryAt_of_pos now defaultTTL hpos, toInt_unix (by omega), toInt_unix (by omega)]
  -- One second more than `maxTTL` is a negative duration. With two the carry is not enough.
  by_cases hone : ttl.toInt = 9223372037
  · obtain rfl : ttl = 9223372037 := Int64.toInt_inj.mp hone
    have : ((9223372037 : Int64) * second).toInt.tdiv 1000000000 = -9223372036 := by decide
    omega
  · omega

/-! ## The rows -/

@[simp] lemma expiry_putRow (payload : Payload) (expiry : Int64) :
    (Store.putRow payload expiry).expiry = expiry := by
  cases payload <;> rfl

@[simp] lemma expiry_casResult_casPutOperand (payload : Payload) (expiry : Int64)
    (stamp expected : UInt64) :
    (casResult (casPutOperand payload expiry stamp expected)).expiry = expiry := by
  cases payload <;> rfl

/-- The rows that `Put` and `PutIfVersion` store for a value. -/
inductive StoresRow (payload : Payload) (expiry : Int64) : ValueMessage → Prop
  | put : StoresRow payload expiry (Store.putRow payload expiry)
  | putIfVersion (stamp expected : UInt64) :
      StoresRow payload expiry (casResult (casPutOperand payload expiry stamp expected))

lemma StoresRow.expiry_eq {payload : Payload} {expiry : Int64} {row : ValueMessage}
    (h : StoresRow payload expiry row) : row.expiry = expiry := by
  cases h with
  | put => exact expiry_putRow payload expiry
  | putIfVersion stamp expected => exact expiry_casResult_casPutOperand payload expiry stamp expected

/-- What a put with a time to live should store: an expiry after now that grows with the time to
live, and rows that are not expired before it has passed and are not tombstones. -/
structure ExactExpiry (now : Time) (defaultTTL ttl : Int64) : Prop where
  after : now.unix.toInt + 1 ≤ (expiryAt now defaultTTL ttl).toInt
  grows : ∀ shorter, 1 ≤ shorter → shorter < ttl →
    expiryAt now defaultTTL shorter < expiryAt now defaultTTL ttl
  readable : ∀ payload row, StoresRow payload (expiryAt now defaultTTL ttl) row →
    ∀ t : Int64, t.toInt < now.unix.toInt + ttl.toInt → Store.expired t row = false
  notTombstone : ∀ payload row, StoresRow payload (expiryAt now defaultTTL ttl) row →
    row.expiry ≠ tombstoneExpiry

/-- For every plausible time, every default and every time to live from 1 on: the expiry is right if
and only if the time to live is at most `maxTTL`, and not one second in the first second of 1970. -/
theorem ttl_exact_iff (now : Time) (defaultTTL ttl : Int64) (hnow : now.Plausible) (hpos : 1 ≤ ttl) :
    ExactExpiry now defaultTTL ttl ↔ ttl ≤ maxTTL ∧ ¬(now.unix = 0 ∧ ttl = 1) := by
  have hone : 1 ≤ ttl.toInt := by simpa using Int64.le_iff_toInt_le.mp hpos
  have hunix : 0 ≤ now.unix.toInt := by
    have hafter := hnow.after
    rw [toInt_unix (by omega)]
    omega
  constructor
  · intro hexact
    refine ⟨?_, fun hfirst => ?_⟩
    · by_contra hmax
      -- The expiry is a time at which the row is expired, too early.
      have hearly := toInt_expiryAt_lt hnow defaultTTL (Int64.not_le.mp hmax)
      have hafter := hexact.after
      have hread := hexact.readable (.inline []) _ .put _ hearly
      have hpositive : 0 < expiryAt now defaultTTL ttl := by
        rw [Int64.lt_iff_toInt_lt, Int64.toInt_zero]
        omega
      simp [Store.expired, hpositive] at hread
    · -- The mark of a tombstone is the expiry 1.
      refine hexact.notTombstone (.inline []) _ .put ?_
      rw [expiry_putRow, ← Int64.toInt_inj, hfirst.2,
        toInt_expiryAt hnow defaultTTL (by decide) (by decide), hfirst.1]
      decide
  · rintro ⟨hmax, hfirst⟩
    have hexpiry := toInt_expiryAt hnow defaultTTL hpos hmax
    refine ⟨by omega, fun shorter hshorter hlt => ?_, fun payload row hrow t ht => ?_,
      fun payload row hrow hmark => ?_⟩
    · have hlt' := Int64.lt_iff_toInt_lt.mp hlt
      have hle : shorter ≤ maxTTL := Int64.le_trans (Int64.le_of_lt hlt) hmax
      rw [Int64.lt_iff_toInt_lt, hexpiry, toInt_expiryAt hnow defaultTTL hshorter hle]
      omega
    · have hlater : ¬row.expiry ≤ t := by
        rw [hrow.expiry_eq, Int64.le_iff_toInt_le, hexpiry]
        omega
      simp [Store.expired, hlater]
    · rw [hrow.expiry_eq] at hmark
      have hmark : (expiryAt now defaultTTL ttl).toInt = 1 := by rw [hmark]; decide
      exact hfirst ⟨Int64.toInt_inj.mp (by rw [Int64.toInt_zero]; omega),
        Int64.toInt_inj.mp (by rw [show (1 : Int64).toInt = 1 by decide]; omega)⟩

/-- The 14th of November 2023. -/
def november : Time := .ofUnix 1700000000

theorem ttl_exact_iff_november : ExactExpiry november 0 maxTTL :=
  (ttl_exact_iff november 0 maxTTL ⟨by decide, by decide⟩ (by decide)).mpr ⟨by decide, by decide⟩

/-- Times to live that are accepted. The first expiry is negative, less than that of a shorter time
to live, and never reached; the second is the mark of a tombstone. -/
theorem ttl_wraps :
    expiryAt november 0 9223372037 = -7523372037 ∧
      expiryAt november 0 9223372037 < expiryAt november 0 1 ∧
      expiryAt november 0 36028795318963969 = tombstoneExpiry := by
  decide

end OCache.Values
