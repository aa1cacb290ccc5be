import OCache.Lib.SignedWord
import OCache.SegmentFile.Operations

/-!
# The scan of an open segment, for every file

After a crash the file of an open segment can hold anything. `validateOpenSegment` reads entry after
entry, checks each of them and cuts the file off where the first check fails. Positions are `int64`,
and a header can claim a value so long that the position behind it wraps. `scanOpen` counts in
natural numbers. Here the scan is taken with positions that wrap, and compared with `scanOpen`.
-/

namespace OCache.SegmentFile

open DiskFile SignedWord

/-! ## Valid entries -/

/-- A valid entry at a position: it starts more than a footer before the end of the file, its header
parses, header, key and value are in the file, and the checksum is zero or that of the value. -/
structure ValidEntry (bytes : List UInt8) (pos : Nat) (e : EntryInfo) : Prop where
  start : pos + segmentFooterSize < bytes.length
  header : readValueHeaderAt bytes pos =
    .ok ⟨e.valueLength, e.headerSize, e.key.length, e.version, e.checksum⟩
  key : e.key = readAt bytes (pos + valueHeaderSize) e.key.length
  offset : e.offset = pos
  inside : pos + e.total ≤ bytes.length
  checksum : e.checksum = 0 ∨
    crc32 (readAt bytes (pos + e.headerSize) e.valueLength) = e.checksum

/-- Valid entries, one behind the other, from the first position to the second. -/
inductive ValidRun (bytes : List UInt8) : Nat → List EntryInfo → Nat → Prop
  | nil (pos : Nat) : ValidRun bytes pos [] pos
  | cons {pos q : Nat} {e : EntryInfo} {es : List EntryInfo} (he : ValidEntry bytes pos e)
      (hes : ValidRun bytes (pos + e.total) es q) : ValidRun bytes pos (e :: es) q

/-- A run of valid entries that no other one from the same position is longer than. -/
structure Longest (bytes : List UInt8) (pos : Nat) (es : List EntryInfo) (q : Nat) : Prop where
  valid : ValidRun bytes pos es q
  maximal : ∀ fs r, ValidRun bytes pos fs r → fs <+: es ∧ r ≤ q

/-- The number of bytes of the values. -/
def valueBytes (es : List EntryInfo) : Nat := (es.map (·.valueLength)).sum

variable {bytes : List UInt8} {pos q : Nat} {e : EntryInfo} {es : List EntryInfo}

namespace ValidEntry

lemma yields (h : ValidEntry bytes pos e) : Yields bytes pos e :=
  ⟨h.start, h.header, h.key, h.offset⟩

lemma unique {e' : EntryInfo} (h : ValidEntry bytes pos e) (h' : ValidEntry bytes pos e') :
    e = e' :=
  (Prod.mk.inj (Except.ok.inj (h.yields.next_eq.symm.trans h'.yields.next_eq))).1

lemma not_sum_ne (h : ValidEntry bytes pos e) : ¬(e.checksum ≠ 0 ∧
    crc32 (readAt bytes (pos + e.headerSize) e.valueLength) ≠ e.checksum) :=
  or_iff_not_and_not.mp h.checksum

end ValidEntry

/-- An entry that the iterator yields has a key and a value. -/
theorem Yields.not_empty (h : Yields bytes pos e) : ¬(e.valueLength = 0 ∨ e.key = []) := by
  obtain ⟨hkey, hvalue, -, -⟩ := h.lengths
  rintro (h | h)
  · omega
  · simp [h] at hkey

namespace ValidRun

variable (h : ValidRun bytes pos es q)

include h

lemma le : pos + es.length ≤ q ∧ pos + valueBytes es ≤ q := by
  induction h with
  | nil => exact ⟨le_rfl, le_rfl⟩
  | cons he _ ih =>
    have := he.yields.total_pos
    simp only [valueBytes, List.map_cons, List.sum_cons, List.length_cons, EntryInfo.total] at ih this ⊢
    omega

lemma le_length (hpos : pos ≤ bytes.length) : q ≤ bytes.length := by
  induction h with
  | nil => exact hpos
  | cons he _ ih => exact ih he.inside

/-- A run behind which no entry is valid is the longest. -/
theorem longest (hstop : ∀ e, ¬ValidEntry bytes q e) : Longest bytes pos es q := by
  refine ⟨h, ?_⟩
  induction h with
  | nil =>
    intro fs r hfs
    cases hfs with
    | nil => exact ⟨List.prefix_rfl, le_rfl⟩
    | cons he => exact absurd he (hstop _)
  | cons he hes ih =>
    intro fs r hfs
    cases hfs with
    | nil => exact ⟨List.nil_prefix, (Nat.le_add_right _ _).trans ((Nat.le_add_right _ _).trans hes.le.1)⟩
    | cons he' hfs' =>
      -- At most one entry is valid at a position.
      obtain rfl := he.unique he'
      obtain ⟨hfs, hle⟩ := ih hstop _ _ hfs'
      exact ⟨List.prefix_cons_inj _ |>.mpr hfs, hle⟩

end ValidRun

/-- Every file has a run of valid entries behind which none is valid: entries have a length, so runs
end. -/
theorem exists_maximal_run (bytes : List UInt8) (pos : Nat) :
    ∃ es q, ValidRun bytes pos es q ∧ ∀ e, ¬ValidEntry bytes q e := by
  by_cases h : ∃ e, ValidEntry bytes pos e
  · obtain ⟨e, he⟩ := h
    have := he.yields.total_pos
    have := he.start
    obtain ⟨es, q, hes, hstop⟩ := exists_maximal_run bytes (pos + e.total)
    exact ⟨e :: es, q, .cons he hes, hstop⟩
  · exact ⟨[], pos, .nil pos, not_exists.mp h⟩
termination_by bytes.length - pos

/-! ## The scan in natural numbers -/

variable {fuel : Nat} {entries : UInt32} {dataBytes : Int64}

lemma scanOpen_of_valid (he : ValidEntry bytes pos e) :
    scanOpen bytes (fuel + 1) pos entries dataBytes =
      scanOpen bytes fuel (pos + e.total) (entries + 1) (dataBytes + .ofNat e.valueLength) := by
  have hpartial : ¬bytes.length < pos + (e.headerSize + e.valueLength) := Nat.not_lt.mpr he.inside
  rw [scanOpen, he.yields.next_eq]
  simp only [if_neg he.yields.not_empty, if_neg hpartial, if_neg he.not_sum_ne]

lemma scanOpen_of_not_valid (hstop : ∀ e, ¬ValidEntry bytes pos e) :
    scanOpen bytes fuel pos entries dataBytes = (pos, entries, dataBytes) := by
  cases fuel with
  | zero => rfl
  | succ fuel =>
    rw [scanOpen]
    cases hnext : next bytes pos with
    | error => rfl
    | ok yielded =>
      obtain ⟨e, iterPos⟩ := yielded
      obtain ⟨hy, rfl⟩ := next_eq_ok hnext
      dsimp only
      split
      · rfl
      · split
        · rfl
        · split
          · rfl
          · rename_i hpartial hsum
            -- all checks passed: the entry is valid
            exact absurd ⟨hy.start, hy.header, hy.key, hy.offset, Nat.not_lt.mp hpartial,
              or_iff_not_and_not.mpr hsum⟩ (hstop e)

/-- A loop that goes from each valid entry to the next, along a run. -/
theorem ValidRun.loop {α : Type*} {f : Nat → Nat → UInt32 → Int64 → α}
    (hf : ∀ {pos e fuel entries dataBytes}, ValidEntry bytes pos e →
      f (fuel + 1) pos entries dataBytes =
        f fuel (pos + e.total) (entries + 1) (dataBytes + .ofNat e.valueLength))
    (h : ValidRun bytes pos es q) :
    f (es.length + fuel) pos entries dataBytes =
      f fuel q (entries + .ofNat es.length) (dataBytes + .ofNat (valueBytes es)) := by
  induction h generalizing entries dataBytes with
  | nil => simp [valueBytes]
  | @cons pos q e es he _ ih =>
    rw [List.length_cons, Nat.add_right_comm, hf he, ih, Nat.add_comm es.length 1, UInt32.ofNat_add,
      UInt32.add_assoc, valueBytes, valueBytes, List.map_cons, List.sum_cons, Int64.ofNat_add,
      Int64.add_assoc]
    rfl

lemma scanOpen_of_run (hrun : ValidRun bytes 0 es q) (hstop : ∀ e, ¬ValidEntry bytes q e) :
    scanOpen bytes (bytes.length + 1) 0 0 0 = (q, .ofNat es.length, .ofNat (valueBytes es)) := by
  have hlen := hrun.le_length (Nat.zero_le _)
  obtain ⟨fuel, hfuel⟩ : ∃ fuel, bytes.length + 1 = es.length + fuel :=
    ⟨bytes.length + 1 - es.length, by have := hrun.le.1; omega⟩
  rw [hfuel, hrun.loop scanOpen_of_valid, scanOpen_of_not_valid hstop, UInt32.zero_add, Int64.zero_add]

/-! ## The scan with wrapping positions -/

/-- `Iterator.Next`. A read at a negative offset fails, like any other. -/
def next64 (bytes : List UInt8) (currentPos : Int64) : Option (EntryInfo × Int64) :=
  if currentPos < 0 then none
  else
    match next bytes currentPos.toInt.toNat with
    | .error _ => none
    | .ok (entry, _) =>
      some (entry, currentPos + (.ofNat entry.headerSize + .ofNat entry.valueLength))

/-- The loop of `validateOpenSegment`: the position at which it cuts the file off, the number of
entries and the bytes of their values. There is no result if the fuel was not enough. -/
def scanOpen64 (bytes : List UInt8) :
    Nat → Int64 → UInt32 → Int64 → Option (Int64 × UInt32 × Int64)
  | 0, _, _, _ => none
  | fuel + 1, currentPos, entries, dataBytes =>
    match next64 bytes currentPos with
    | none => some (currentPos, entries, dataBytes)
    | some (entry, iterPos) =>
      let entryTotal : Int64 := .ofNat entry.headerSize + .ofNat entry.valueLength
      let nextPos := currentPos + entryTotal
      if entry.valueLength = 0 ∨ entry.key = [] then some (currentPos, entries, dataBytes)
      else if .ofNat bytes.length < nextPos then some (currentPos, entries, dataBytes)
      -- the section ends with the file
      else if entry.checksum ≠ 0 ∧
          crc32 (readAt bytes (currentPos.toInt.toNat + entry.headerSize) entry.valueLength) ≠
            entry.checksum then
        some (currentPos, entries, dataBytes)
      else scanOpen64 bytes fuel iterPos (entries + 1) (dataBytes + .ofNat entry.valueLength)

/-- What `validateOpenSegment` returns. -/
inductive Validated where
  /-- The segment, open for writing, and the file. -/
  | ok (seg : Segment) (bytes : List UInt8)
  /-- `Truncate` refuses a negative size. -/
  | truncateError
deriving DecidableEq

/-- `validateOpenSegment`. Whatever ends the loop, the file is truncated at the current position. -/
def validateOpenSegment64 (bytes : List UInt8) (fuel : Nat) : Option Validated := do
  let (lastValidPos, entries, dataBytes) ← scanOpen64 bytes fuel 0 0 0
  if lastValidPos < 0 then some .truncateError
  else
    let size := lastValidPos.toInt.toNat
    some (.ok ⟨size, entries, dataBytes, currentSegmentVersion, some size⟩
      (DiskFile.truncate ⟨bytes, 0⟩ size).bytes)

/-- An entry that the iterator yields, whose end has no `int64` position, and whose checksum is zero
or that of the rest of the file. -/
def Overflows (bytes : List UInt8) (pos : Nat) : Prop :=
  ∃ e, Yields bytes pos e ∧ 2 ^ 63 ≤ pos + e.total ∧
    (e.checksum = 0 ∨ crc32 (readAt bytes (pos + e.headerSize) e.valueLength) = e.checksum)

lemma toNat_ofNat {n : Nat} (h : n < 2 ^ 63) : (Int64.ofNat n).toInt.toNat = n := by
  rw [toInt_ofNat h, Int.toNat_natCast]

lemma not_ofNat_neg {n : Nat} (h : n < 2 ^ 63) : ¬Int64.ofNat n < 0 := by
  rw [Int64.lt_iff_toInt_lt, toInt_ofNat h]
  simp

lemma ofNat_total (pos : Nat) (e : EntryInfo) :
    Int64.ofNat pos + (.ofNat e.headerSize + .ofNat e.valueLength) = .ofNat (pos + e.total) := by
  rw [EntryInfo.total, Int64.ofNat_add, Int64.ofNat_add]

lemma Yields.next64_eq (h : Yields bytes pos e) (hlen : bytes.length < 2 ^ 63) :
    next64 bytes (.ofNat pos) = some (e, .ofNat (pos + e.total)) := by
  have hpos : pos < 2 ^ 63 := by
    have := h.start
    omega
  unfold next64
  simp only [if_neg (not_ofNat_neg hpos), toNat_ofNat hpos, h.next_eq, ofNat_total]

/-- The position behind an entry of a file that the iterator yields: it wraps to a negative one. -/
theorem Yields.overflow_neg (h : Yields bytes pos e) (hlen : bytes.length < 2 ^ 63)
    (hover : 2 ^ 63 ≤ pos + e.total) : Int64.ofNat (pos + e.total) < 0 := by
  have hheader := h.header_le
  have hvalue := h.lengths.2.2.1
  unfold EntryInfo.total at hover ⊢
  rw [Int64.lt_iff_toInt_lt, Int64.toInt_ofNat', Int64.toInt_zero, Int.bmod_def]
  push_cast
  split <;> omega

/-- The checks of one entry that the iterator has yielded. -/
theorem scanOpen64_of_yields (h : Yields bytes pos e) (hlen : bytes.length < 2 ^ 63) :
    scanOpen64 bytes (fuel + 1) (.ofNat pos) entries dataBytes =
      if (Int64.ofNat bytes.length < .ofNat (pos + e.total)) ∨
          e.checksum ≠ 0 ∧ crc32 (readAt bytes (pos + e.headerSize) e.valueLength) ≠ e.checksum then
        some (.ofNat pos, entries, dataBytes)
      else
        scanOpen64 bytes fuel (.ofNat (pos + e.total)) (entries + 1)
          (dataBytes + .ofNat e.valueLength) := by
  have hpos : pos < 2 ^ 63 := by
    have := h.start
    omega
  rw [scanOpen64, h.next64_eq hlen]
  simp only [if_neg h.not_empty, toNat_ofNat hpos, ofNat_total, ite_or]

lemma scanOpen64_of_valid (hlen : bytes.length < 2 ^ 63) (he : ValidEntry bytes pos e) :
    scanOpen64 bytes (fuel + 1) (.ofNat pos) entries dataBytes =
      scanOpen64 bytes fuel (.ofNat (pos + e.total)) (entries + 1)
        (dataBytes + .ofNat e.valueLength) := by
  rw [scanOpen64_of_yields he.yields hlen, if_neg]
  rintro (h | h)
  · rw [ofNat_lt_ofNat hlen (he.inside.trans_lt hlen)] at h
    exact absurd he.inside (Nat.not_le.mpr h)
  · exact he.not_sum_ne h

lemma scanOpen64_of_not_valid (hstop : ∀ e, ¬ValidEntry bytes pos e) (hno : ¬Overflows bytes pos)
    (hlen : bytes.length < 2 ^ 63) (hpos : pos < 2 ^ 63) :
    scanOpen64 bytes (fuel + 1) (.ofNat pos) entries dataBytes =
      some (.ofNat pos, entries, dataBytes) := by
  cases hnext : next bytes pos with
  | error =>
    rw [scanOpen64, next64, if_neg (not_ofNat_neg hpos), toNat_ofNat hpos, hnext]
  | ok yielded =>
    obtain ⟨e, iterPos⟩ := yielded
    obtain ⟨hy, rfl⟩ := next_eq_ok hnext
    rw [scanOpen64_of_yields hy hlen, if_pos]
    by_contra hpass
    obtain ⟨hinside, hsum⟩ := not_or.mp hpass
    have hsum := or_iff_not_and_not.mpr hsum
    -- the end of the entry has a position, so it is in the file
    have hend : pos + e.total < 2 ^ 63 := by
      by_contra hover
      exact hno ⟨e, hy, Nat.not_lt.mp hover, hsum⟩
    rw [ofNat_lt_ofNat hlen hend] at hinside
    exact hstop e ⟨hy.start, hy.header, hy.key, hy.offset, Nat.not_lt.mp hinside, hsum⟩

/-- An entry that overflows is taken for valid, and the next one is looked for at a negative
position. -/
theorem scanOpen64_of_overflows (h : Overflows bytes pos) (hlen : bytes.length < 2 ^ 63) :
    ∃ lastValidPos < 0, ∃ counts,
      scanOpen64 bytes (fuel + 2) (.ofNat pos) entries dataBytes = some (lastValidPos, counts) := by
  obtain ⟨e, hy, hover, hsum⟩ := h
  have hneg := hy.overflow_neg hlen hover
  have hpass : ¬(Int64.ofNat bytes.length < .ofNat (pos + e.total) ∨
      e.checksum ≠ 0 ∧ crc32 (readAt bytes (pos + e.headerSize) e.valueLength) ≠ e.checksum) := by
    rintro (h | h)
    · exact not_ofNat_neg hlen (Int64.lt_trans h hneg)
    · exact or_iff_not_and_not.mp hsum h
  refine ⟨_, hneg, (entries + 1, dataBytes + .ofNat e.valueLength), ?_⟩
  rw [scanOpen64_of_yields hy hlen, if_neg hpass, scanOpen64, next64, if_pos hneg]

lemma scanOpen64_run (hlen : bytes.length < 2 ^ 63) (h : ValidRun bytes pos es q) :
    scanOpen64 bytes (es.length + fuel) (.ofNat pos) entries dataBytes =
      scanOpen64 bytes fuel (.ofNat q) (entries + .ofNat es.length)
        (dataBytes + .ofNat (valueBytes es)) :=
  h.loop (f := fun fuel pos => scanOpen64 bytes fuel (.ofNat pos)) (scanOpen64_of_valid hlen)

/-- The fuel is enough for a run and for two entries more. -/
theorem ValidRun.fuel_eq (h : ValidRun bytes 0 es q) (hfuel : bytes.length + 2 ≤ fuel) :
    ∃ k, fuel = es.length + (k + 2) := by
  have := h.le.1
  have := h.le_length (Nat.zero_le _)
  exact ⟨fuel - es.length - 2, by omega⟩

/-! ## The validation -/

/-- No entry behind a run of valid entries overflows. -/
def NoOverflow (bytes : List UInt8) : Prop :=
  ∀ es q, ValidRun bytes 0 es q → ¬Overflows bytes q

/-- What the segment and the file are after a run of entries was kept. -/
structure Kept (bytes : List UInt8) (es : List EntryInfo) (size : Nat) (seg : Segment)
    (file : List UInt8) : Prop where
  file_eq : file = bytes.take size
  size_eq : seg.size = size
  cursor : seg.file = some size
  /-- The counter has 32 bits. -/
  numEntries : seg.numEntries.toNat = es.length % 2 ^ 32
  dataBytes : seg.dataBytes.toInt = valueBytes es

section

variable (hlen : bytes.length < 2 ^ 63) (hrun : ValidRun bytes 0 es q)

include hlen hrun

/-- The validation of a file, if the loop stops behind a run of valid entries: as in natural
numbers. -/
theorem validateOpenSegment64_of_run (hstop : ∀ e, ¬ValidEntry bytes q e) (hno : ¬Overflows bytes q)
    (hfuel : bytes.length + 2 ≤ fuel) :
    ∃ seg file, validateOpenSegment bytes {} = (some seg, file) ∧
      validateOpenSegment64 bytes fuel = some (.ok seg file) ∧ Kept bytes es q seg file := by
  have hqlen := hrun.le_length (Nat.zero_le _)
  have hq : q < 2 ^ 63 := hqlen.trans_lt hlen
  have hdata : valueBytes es < 2 ^ 63 := by
    have := hrun.le.2
    omega
  obtain ⟨k, rfl⟩ := hrun.fuel_eq hfuel
  -- The loop follows the run and stops behind it, with no sum that wraps.
  have hscan : scanOpen64 bytes (es.length + (k + 2)) 0 0 0 =
      some (.ofNat q, .ofNat es.length, .ofNat (valueBytes es)) := by
    refine (scanOpen64_run hlen hrun).trans ?_
    rw [scanOpen64_of_not_valid hstop hno hlen hq, UInt32.zero_add, Int64.zero_add]
  refine ⟨⟨q, .ofNat es.length, .ofNat (valueBytes es), currentSegmentVersion, some q⟩,
    (DiskFile.truncate ⟨bytes, 0⟩ q).bytes, ?_, ?_, ?_, rfl, rfl, ?_, toInt_ofNat hdata⟩
  · simp [validateOpenSegment, scanOpen_of_run hrun hstop]
  · simp only [validateOpenSegment64, hscan, Option.bind_eq_bind, Option.bind_some,
      if_neg (not_ofNat_neg hq), toNat_ofNat hq]
  · simp [DiskFile.truncate, Nat.sub_eq_zero_of_le hqlen]
  · exact UInt32.toNat_ofNat'

/-- The loop takes an entry that overflows for valid, and the file cannot be truncated at the
position it stops at. -/
theorem validateOpenSegment64_of_overflows (hover : Overflows bytes q)
    (hfuel : bytes.length + 2 ≤ fuel) : validateOpenSegment64 bytes fuel = some .truncateError := by
  obtain ⟨k, rfl⟩ := hrun.fuel_eq hfuel
  obtain ⟨lastValidPos, hneg, counts, hscan⟩ := scanOpen64_of_overflows hover hlen
  have hscan : scanOpen64 bytes (es.length + (k + 2)) 0 0 0 = some (lastValidPos, counts) :=
    (scanOpen64_run hlen hrun).trans hscan
  simp only [validateOpenSegment64, hscan, Option.bind_eq_bind, Option.bind_some, if_pos hneg]

end

/-- For every file the loop ends, and the longest run of valid entries is what stays, if and only if
no entry behind a run of valid ones overflows. -/
theorem validateOpenSegment64_exact (bytes : List UInt8) (hlen : bytes.length < 2 ^ 63)
    (fuel : Nat) (hfuel : bytes.length + 2 ≤ fuel) :
    (∃ es size seg file, Longest bytes 0 es size ∧
      validateOpenSegment64 bytes fuel = some (.ok seg file) ∧ Kept bytes es size seg file) ↔
      NoOverflow bytes := by
  constructor
  · rintro ⟨-, -, seg, file, -, hvalidate, -⟩ es q hrun hover
    rw [validateOpenSegment64_of_overflows hlen hrun hover hfuel] at hvalidate
    simp at hvalidate
  · intro hno
    obtain ⟨es, q, hrun, hstop⟩ := exists_maximal_run bytes 0
    obtain ⟨seg, file, -, hvalidate, hkept⟩ :=
      validateOpenSegment64_of_run hlen hrun hstop (hno _ _ hrun) hfuel
    exact ⟨es, q, seg, file, hrun.longest hstop, hvalidate, hkept⟩

/-- A file is free of overflows if the iterator yields none at any position. -/
theorem noOverflow_of_next
    (h : ∀ pos < bytes.length, ∀ e iterPos, next bytes pos = .ok (e, iterPos) → iterPos < 2 ^ 63) :
    NoOverflow bytes := by
  rintro es q - ⟨e, hy, hover, -⟩
  have hstart := hy.start
  exact Nat.not_le.mpr (h q (by omega) e _ hy.next_eq) hover

/-- An entry with key `k` and two bytes, and zeros behind it. -/
def oneEntry : List UInt8 :=
  buildValueHeader [107] 2 0 currentValueHeaderVersion ++ [1, 2] ++ List.replicate 24 0

lemma oneEntry_noOverflow : NoOverflow oneEntry := by
  refine noOverflow_of_next ?_
  have hnext : ∀ pos < oneEntry.length,
      (match next oneEntry pos with
        | .ok (_, iterPos) => decide (iterPos < 2 ^ 63)
        | .error _ => true) = true := by
    decide +kernel
  intro pos hpos e iterPos hok
  have := hnext pos hpos
  rw [hok] at this
  exact of_decide_eq_true this

theorem validateOpenSegment64_exact_oneEntry :
    ∃ es size seg file, Longest oneEntry 0 es size ∧
      validateOpenSegment64 oneEntry 47 = some (.ok seg file) ∧ Kept oneEntry es size seg file :=
  (validateOpenSegment64_exact oneEntry (by decide) 47 (by decide)).mpr oneEntry_noOverflow

example : validateOpenSegment64 oneEntry 47 =
    some (.ok ⟨21, 1, 2, 1, some 21⟩ (oneEntry.take 21)) := by
  decide +kernel

/-- A header with key `k` that claims the longest value there can be, with zeros behind it. -/
def longClaim : List UInt8 :=
  buildValueHeader [107] Int64.maxValue 0 currentValueHeaderVersion ++ List.replicate 24 0

/-- The validation of a file without a valid entry that does not leave it empty: it returns an
error, and the process does not start. -/
theorem longClaim_fails :
    Longest longClaim 0 [] 0 ∧
      ∀ fuel, longClaim.length + 2 ≤ fuel →
        validateOpenSegment64 longClaim fuel = some .truncateError := by
  have hnext : next longClaim 0 = .ok (⟨[107], 0, 19, 2 ^ 63 - 1, 0, 1⟩, 2 ^ 63 + 18) := by
    decide +kernel
  obtain ⟨hy, -⟩ := next_eq_ok hnext
  have hstop : ∀ e, ¬ValidEntry longClaim 0 e := by
    intro e he
    obtain ⟨rfl, -⟩ := Prod.mk.inj (Except.ok.inj (he.yields.next_eq.symm.trans hnext))
    exact absurd he.inside (by decide +kernel)
  refine ⟨(ValidRun.nil 0).longest hstop, fun fuel hfuel => ?_⟩
  exact validateOpenSegment64_of_overflows (by decide +kernel) (.nil 0)
    ⟨_, hy, by decide +kernel, .inl rfl⟩ hfuel

end OCache.SegmentFile
