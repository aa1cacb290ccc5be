import OCache.Lib.BigEndian
import OCache.Lib.DiskFile
import OCache.Proto.ValueMessage

/-!
# The format of a segment file

A segment file is a row of entries. An entry is a header of 18 bytes (value length, key length,
checksum and format version), the key and the value. A finalized segment ends with a footer of 20
bytes; a segment that is still written has zeros behind its entries, up to the length it was
preallocated with. The iterator reads headers and keys and skips the values. It takes the last 20
bytes for a footer whether or not there is one.

Positions in a file are natural numbers: the sums of the source are taken not to leave `int64`.
-/

namespace OCache.SegmentFile

open BigEndian DiskFile

/-! ## Headers -/

/-- Length of the fixed part of an entry header. -/
def valueHeaderSize : Nat := 18

/-- Length of the footer. -/
def segmentFooterSize : Nat := 20

/-- The format version of the headers that are written. -/
def currentValueHeaderVersion : UInt16 := 1

/-- The format version of the segments that are written. -/
def currentSegmentVersion : Nat := 1

/-- `BuildValueHeader`: value length, key length, checksum, version and key. -/
def buildValueHeader (key : List UInt8) (valueLen : Int64) (checksum : UInt32) (version : UInt16) :
    List UInt8 :=
  putUint 8 valueLen.toUInt64.toNat ++ putUint 4 key.length ++ putUint 4 checksum.toNat ++
    putUint 2 version.toNat ++ key

/-- `CalculateValueHeaderSize` -/
def calculateValueHeaderSize (key : List UInt8) : Nat := valueHeaderSize + key.length

/-- Why a header could not be read. -/
inductive HeaderError where
  /-- The end of the file, or zeros. -/
  | eof
  | invalidKeyLength
  | invalidValueLength
  | invalidVersion
deriving DecidableEq

/-- What a header says. -/
structure ValueHeader where
  valueLen : Nat
  headerSize : Nat
  keyLen : Nat
  version : UInt16
  checksum : UInt32
deriving DecidableEq

/-- The fixed part of a header, read and checked. -/
def parseValueHeader (fixed : List UInt8) : Except HeaderError ValueHeader :=
  let valueLen := uint (fixed.take 8)
  let keyLen := uint ((fixed.drop 8).take 4)
  let checksum := uint ((fixed.drop 12).take 4)
  let version := uint ((fixed.drop 16).take 2)
  if fixed.length < valueHeaderSize then .error .eof
  -- A part of the file that was preallocated and never written.
  else if fixed.all (· = 0) then .error .eof
  else if keyLen = 0 then .error .invalidKeyLength
  -- `int64(valueLen) <= 0`
  else if valueLen = 0 ∨ 2 ^ 63 ≤ valueLen then .error .invalidValueLength
  else if version = 0 ∨ currentValueHeaderVersion.toNat < version then .error .invalidVersion
  else .ok ⟨valueLen, valueHeaderSize + keyLen, keyLen, .ofNat version, .ofNat checksum⟩

/-- `ReadValueHeaderAt` -/
def readValueHeaderAt (bytes : List UInt8) (offset : Nat) : Except HeaderError ValueHeader :=
  parseValueHeader (readAt bytes offset valueHeaderSize)

/-! ## Footers -/

/-- The first six bytes of a footer: `SEGEOF`. -/
def segmentFooterMagic : List UInt8 := [83, 69, 71, 69, 79, 70]

/-- The version of a footer: two decimal digits, `00` for a version that has none. -/
def versionDigits (version : Nat) : List UInt8 :=
  if 99 < version then [48, 48]
  else [UInt8.ofNat (48 + version / 10 % 10), UInt8.ofNat (48 + version % 10)]

/-- `BuildSegmentFooterWithVersion` -/
def buildSegmentFooterWithVersion (version : Nat) (entries : UInt32) (dataBytes : Int64) :
    List UInt8 :=
  segmentFooterMagic ++ versionDigits version ++ putUint 4 entries.toNat ++
    putUint 8 dataBytes.toUInt64.toNat

/-- A decimal digit as `ParseSegmentFooter` accepts it. -/
def isDigit (b : UInt8) : Bool := 48 ≤ b && b ≤ 57

/-- `ParseSegmentFooter`: version, number of entries and number of value bytes. -/
def parseSegmentFooter (footer : List UInt8) : Option (Nat × UInt32 × Int64) :=
  let v1 := footer.getD 6 0
  let v2 := footer.getD 7 0
  if footer.length < segmentFooterSize then none
  else if footer.take 6 ≠ segmentFooterMagic then none
  else if !(isDigit v1 && isDigit v2) then none
  else some ((v1.toNat - 48) * 10 + (v2.toNat - 48), .ofNat (uint ((footer.drop 8).take 4)),
    (UInt64.ofNat (uint ((footer.drop 12).take 8))).toInt64)

/-! ## The iterator -/

/-- `EntryInfo`: what the iterator yields. -/
structure EntryInfo where
  key : List UInt8
  offset : Nat
  headerSize : Nat
  valueLength : Nat
  checksum : UInt32
  version : UInt16
deriving DecidableEq

/-- `Iterator.Next` at a position of the file: the entry there and the position of the next one. -/
def next (bytes : List UInt8) (currentPos : Nat) : Except HeaderError (EntryInfo × Nat) :=
  -- `currentPos >= fileSize - SegmentFooterSize`, where the difference may be negative.
  if bytes.length ≤ currentPos + segmentFooterSize then .error .eof
  else
    match readValueHeaderAt bytes currentPos with
    | .error e => .error e
    | .ok header =>
      let keyBuf := readAt bytes (currentPos + valueHeaderSize) header.keyLen
      -- `ReadAt` returns an error unless it fills the buffer.
      if keyBuf.length < header.keyLen then .error .eof
      else .ok (⟨keyBuf, currentPos, header.headerSize, header.valueLen, header.checksum,
        header.version⟩, currentPos + (header.headerSize + header.valueLen))

/-- What the iterator yields from a position on, until it returns an error. -/
def iterateFrom (bytes : List UInt8) : Nat → Nat → List EntryInfo
  | 0, _ => []
  | fuel + 1, pos =>
    match next bytes pos with
    | .error _ => []
    | .ok (info, pos) => info :: iterateFrom bytes fuel pos

/-- What the iterator yields. An entry takes at least one byte, so it stops within that many
steps. -/
def iterate (bytes : List UInt8) : List EntryInfo := iterateFrom bytes (bytes.length + 1) 0

/-- The length of an entry with its header. -/
def EntryInfo.total (e : EntryInfo) : Nat := e.headerSize + e.valueLength

section Yields

variable {bytes : List UInt8} {pos : Nat} {e : EntryInfo}

lemma parseValueHeader_ok {fixed : List UInt8} {h : ValueHeader}
    (hok : parseValueHeader fixed = .ok h) :
    0 < h.keyLen ∧ 0 < h.valueLen ∧ h.valueLen < 2 ^ 63 ∧
      h.headerSize = valueHeaderSize + h.keyLen := by
  unfold parseValueHeader at hok
  dsimp only at hok
  split at hok
  · simp at hok
  · split at hok
    · simp at hok
    · split at hok
      · simp at hok
      · split at hok
        · simp at hok
        · split at hok
          · simp at hok
          · obtain rfl := Except.ok.inj hok
            refine ⟨?_, ?_, ?_, rfl⟩ <;> dsimp only <;> omega

/-- What the iterator has read when it yields an entry. -/
structure Yields (bytes : List UInt8) (pos : Nat) (e : EntryInfo) : Prop where
  start : pos + segmentFooterSize < bytes.length
  header : readValueHeaderAt bytes pos =
    .ok ⟨e.valueLength, e.headerSize, e.key.length, e.version, e.checksum⟩
  key : e.key = readAt bytes (pos + valueHeaderSize) e.key.length
  offset : e.offset = pos

lemma next_eq_ok {iterPos : Nat} (h : next bytes pos = .ok (e, iterPos)) :
    Yields bytes pos e ∧ iterPos = pos + e.total := by
  unfold next at h
  split at h
  · simp at h
  · rename_i hstart
    split at h
    · simp at h
    · rename_i header hheader
      dsimp only at h
      split at h
      · simp at h
      · rename_i hkey
        obtain ⟨rfl, rfl⟩ := Prod.mk.inj (Except.ok.inj h)
        have hlen : (readAt bytes (pos + valueHeaderSize) header.keyLen).length = header.keyLen :=
          Nat.le_antisymm (List.length_take_le _ _) (Nat.not_lt.mp hkey)
        refine ⟨⟨by omega, ?_, ?_, rfl⟩, rfl⟩
        · rw [hlen]
          exact hheader
        · rw [hlen]

namespace Yields

variable (h : Yields bytes pos e)

include h

lemma next_eq : next bytes pos = .ok (e, pos + e.total) := by
  have hstart : ¬bytes.length ≤ pos + segmentFooterSize := Nat.not_le.mpr h.start
  unfold next
  simp only [if_neg hstart, h.header, ← h.key, lt_irrefl, if_false]
  rw [← h.offset]
  rfl

lemma lengths :
    0 < e.key.length ∧ 0 < e.valueLength ∧ e.valueLength < 2 ^ 63 ∧
      e.headerSize = valueHeaderSize + e.key.length :=
  parseValueHeader_ok h.header

lemma total_pos : 0 < e.total := by
  have := h.lengths
  unfold EntryInfo.total
  omega

/-- The iterator reads the whole key, so the header is in the file. -/
theorem header_le : pos + e.headerSize ≤ bytes.length := by
  obtain ⟨hkey, -, -, hsize⟩ := h.lengths
  have hread := congrArg List.length h.key
  simp only [readAt, List.length_take, List.length_drop] at hread
  omega

end Yields

end Yields

/-- `Segment.ReadEntry`: the value at an offset. -/
def readEntry (bytes key : List UInt8) (offset length : Nat) : Option (List UInt8) :=
  if key = [] ∨ length = 0 then none
  else some (readAt bytes (offset + calculateValueHeaderSize key) length)

/-! ## Checksums -/

/-- One bit of the reflected IEEE polynomial division. -/
def crc32Shift (crc : UInt32) : UInt32 :=
  if crc &&& 1 = 1 then (crc >>> 1) ^^^ 0xEDB88320 else crc >>> 1

/-- One byte of the checksum. -/
def crc32Update (crc : UInt32) (b : UInt8) : UInt32 := crc32Shift^[8] (crc ^^^ b.toUInt32)

/-- `crc32.ChecksumIEEE` -/
def crc32 (b : List UInt8) : UInt32 := b.foldl crc32Update 0xFFFFFFFF ^^^ 0xFFFFFFFF

-- The check value of CRC-32: the checksum of the digits one to nine.
example : crc32 [49, 50, 51, 52, 53, 54, 55, 56, 57] = 0xCBF43926 := by decide +kernel

/-! ## Written entries -/

/-- An entry that was written: what `WriteEntry` was called with and the offset it returned. The
fields say what the format can hold: a key length has four bytes, a value length is an `int64`. -/
structure Written where
  key : List UInt8
  value : List UInt8
  checksum : UInt32
  offset : Nat
  key_ne_nil : key ≠ []
  length_key_lt : key.length < 2 ^ 32
  two_le_length : 2 ≤ value.length
  length_value_lt : value.length < 2 ^ 63
  checksum_ok : checksum = 0 ∨ checksum = crc32 value
deriving DecidableEq

namespace Written

/-- The bytes of the entry. -/
def encode (w : Written) : List UInt8 :=
  buildValueHeader w.key (.ofNat w.value.length) w.checksum currentValueHeaderVersion ++ w.value

/-- The entry as the iterator yields it. -/
def info (w : Written) : EntryInfo :=
  ⟨w.key, w.offset, calculateValueHeaderSize w.key, w.value.length, w.checksum,
    currentValueHeaderVersion⟩

end Written

/-- The bytes of a row of entries. -/
def encodeAll (ws : List Written) : List UInt8 := ws.flatMap Written.encode

/-- Every entry starts where the ones before it end. -/
def Placed : Nat → List Written → Prop
  | _, [] => True
  | start, w :: ws => w.offset = start ∧ Placed (start + w.encode.length) ws

@[simp] lemma encodeAll_nil : encodeAll [] = [] := rfl

@[simp] lemma encodeAll_cons (w : Written) (ws : List Written) :
    encodeAll (w :: ws) = w.encode ++ encodeAll ws := rfl

@[simp] lemma encodeAll_append (ws vs : List Written) :
    encodeAll (ws ++ vs) = encodeAll ws ++ encodeAll vs := by
  simp [encodeAll]

variable {ws : List Written} {n : Nat} {b tail : List UInt8}

lemma placed_append {start : Nat} {vs : List Written} :
    Placed start (ws ++ vs) ↔ Placed start ws ∧ Placed (start + (encodeAll ws).length) vs := by
  induction ws generalizing start with
  | nil => simp [Placed]
  | cons w ws ih => simp [Placed, ih, and_assoc, Nat.add_assoc]

/-! ## What a header written by `buildValueHeader` reads as -/

@[simp] lemma length_buildSegmentFooter (version : Nat) (entries : UInt32) (dataBytes : Int64) :
    (buildSegmentFooterWithVersion version entries dataBytes).length = segmentFooterSize := by
  have hdigits : (versionDigits version).length = 2 := by
    rw [versionDigits]
    split <;> rfl
  simp [buildSegmentFooterWithVersion, hdigits, segmentFooterMagic, segmentFooterSize]

lemma length_buildValueHeader (key : List UInt8) (valueLen : Int64) (checksum : UInt32)
    (version : UInt16) :
    (buildValueHeader key valueLen checksum version).length = calculateValueHeaderSize key := by
  simp only [buildValueHeader, List.length_append, length_putUint, calculateValueHeaderSize,
    valueHeaderSize]

@[simp] lemma length_encode (w : Written) :
    w.encode.length = calculateValueHeaderSize w.key + w.value.length := by
  rw [Written.encode, List.length_append, length_buildValueHeader]

/-- With a value of two bytes or more an entry is longer than a footer. -/
theorem footer_lt_length_encode (w : Written) : segmentFooterSize < w.encode.length := by
  have hkey : 0 < w.key.length := List.length_pos_iff.mpr w.key_ne_nil
  have hvalue := w.two_le_length
  rw [length_encode, calculateValueHeaderSize, valueHeaderSize, segmentFooterSize]
  omega

lemma toNat_toUInt64_ofNat (h : n < 2 ^ 63) : (Int64.ofNat n).toUInt64.toNat = n := by
  have hn : n < 18446744073709551616 := lt_trans h (by norm_num)
  simpa using hn

/-- The four fields of the fixed part of a header, cut out of it again. -/
theorem slices_fixed {a c d : List UInt8} (ha : a.length = 8) (hb : b.length = 4)
    (hc : c.length = 4) (hd : d.length = 2) :
    (a ++ (b ++ (c ++ d))).take 8 = a ∧ ((a ++ (b ++ (c ++ d))).drop 8).take 4 = b ∧
      ((a ++ (b ++ (c ++ d))).drop 12).take 4 = c ∧
        ((a ++ (b ++ (c ++ d))).drop 16).take 2 = d := by
  have hdrop8 : (a ++ (b ++ (c ++ d))).drop 8 = b ++ (c ++ d) := List.drop_left' ha
  have hdrop12 : (a ++ (b ++ (c ++ d))).drop 12 = c ++ d := by
    rw [← List.append_assoc, List.drop_left' (by simp [ha, hb])]
  have hdrop16 : (a ++ (b ++ (c ++ d))).drop 16 = d := by
    rw [← List.append_assoc, ← List.append_assoc, List.drop_left' (by simp [ha, hb, hc])]
  refine ⟨List.take_left' ha, ?_, ?_, ?_⟩
  · rw [hdrop8, List.take_left' hb]
  · rw [hdrop12, List.take_left' hc]
  · rw [hdrop16, ← hd, List.take_length]

/-- The fixed part of the header of a written entry. -/
def Written.fixed (w : Written) : List UInt8 :=
  putUint 8 w.value.length ++ (putUint 4 w.key.length ++
    (putUint 4 w.checksum.toNat ++ putUint 2 1))

@[simp] lemma length_fixed (w : Written) : w.fixed.length = valueHeaderSize := by
  simp [Written.fixed, valueHeaderSize]

lemma encode_eq (w : Written) : w.encode = w.fixed ++ (w.key ++ w.value) := by
  rw [Written.encode, buildValueHeader, toNat_toUInt64_ofNat w.length_value_lt, Written.fixed]
  simp only [List.append_assoc]
  rfl

lemma parseValueHeader_fixed (w : Written) :
    parseValueHeader w.fixed =
      .ok ⟨w.value.length, calculateValueHeaderSize w.key, w.key.length,
        currentValueHeaderVersion, w.checksum⟩ := by
  have hvalue : uint (putUint 8 w.value.length) = w.value.length :=
    uint_putUint_of_lt (lt_trans w.length_value_lt (by norm_num))
  have hkey : uint (putUint 4 w.key.length) = w.key.length :=
    uint_putUint_of_lt (lt_of_lt_of_eq w.length_key_lt (by norm_num))
  have hsum : uint (putUint 4 w.checksum.toNat) = w.checksum.toNat :=
    uint_putUint_of_lt (lt_of_lt_of_eq w.checksum.toNat_lt (by norm_num))
  have hversion : uint (putUint 2 1) = 1 := uint_putUint_of_lt (by norm_num)
  have hkey_pos : w.key.length ≠ 0 := by simpa using w.key_ne_nil
  have hvalue_ok : ¬(w.value.length = 0 ∨ 2 ^ 63 ≤ w.value.length) := by
    have := w.two_le_length
    have := w.length_value_lt
    omega
  -- The version is not zero, so the header is not taken for an unwritten part of the file.
  have hzero : ¬w.fixed.all (· = 0) = true := by
    simp [Written.fixed, putUint]
  obtain ⟨h8, h12, h16, h18⟩ := slices_fixed (length_putUint 8 w.value.length)
    (length_putUint 4 w.key.length) (length_putUint 4 w.checksum.toNat) (length_putUint 2 1)
  rw [← Written.fixed] at h8 h12 h16 h18
  rw [parseValueHeader]
  simp only [h8, h12, h16, h18, hvalue, hkey, hsum, hversion]
  rw [if_neg (by simp), if_neg hzero, if_neg hkey_pos, if_neg hvalue_ok, if_neg (by decide)]
  simp [calculateValueHeaderSize, currentValueHeaderVersion]

/-! ## Iterating over written entries -/

/-- The iterator yields an entry where it was written. -/
theorem next_encode (used rest : List UInt8) (w : Written) (h : w.offset = used.length) :
    next (used ++ (w.encode ++ rest)) used.length =
      .ok (w.info, used.length + w.encode.length) := by
  have hlength : ¬(used ++ (w.encode ++ rest)).length ≤ used.length + segmentFooterSize := by
    have := footer_lt_length_encode w
    rw [List.length_append, List.length_append]
    omega
  have hheader : readValueHeaderAt (used ++ (w.encode ++ rest)) used.length =
      .ok ⟨w.value.length, calculateValueHeaderSize w.key, w.key.length,
        currentValueHeaderVersion, w.checksum⟩ := by
    rw [readValueHeaderAt, readAt_append, encode_eq, List.append_assoc,
      List.take_left' (length_fixed w), parseValueHeader_fixed]
  have hkey : readAt (used ++ (w.encode ++ rest)) (used.length + valueHeaderSize) w.key.length =
      w.key := by
    rw [readAt_append_add, readAt, encode_eq, List.append_assoc,
      List.drop_left' (length_fixed w), List.append_assoc, List.take_left]
  rw [next, if_neg hlength, hheader]
  simp only [hkey]
  rw [if_neg (lt_irrefl _), Written.info, h, length_encode]

/-- The value of an entry is behind its header. -/
theorem readAt_encode (used rest : List UInt8) (w : Written) :
    readAt (used ++ (w.encode ++ rest)) (used.length + calculateValueHeaderSize w.key)
      w.value.length = w.value := by
  rw [readAt_append_add, Written.encode, List.append_assoc, readAt,
    List.drop_left' (length_buildValueHeader ..), List.take_left]

lemma readEntry_encode (used rest : List UInt8) (w : Written) (h : w.offset = used.length) :
    readEntry (used ++ (w.encode ++ rest)) w.key w.offset w.value.length = some w.value := by
  have hvalue : ¬(w.key = [] ∨ w.value.length = 0) := by
    have := w.two_le_length
    rintro (hkey | hlength)
    · exact w.key_ne_nil hkey
    · omega
  rw [readEntry, if_neg hvalue, h, readAt_encode]

/-- Bytes in which the iterator finds no entry: no more than it takes for a footer, or without a
header at their start. -/
def Unread (tail : List UInt8) : Prop :=
  tail.length ≤ segmentFooterSize ∨ ∃ e, readValueHeaderAt tail 0 = .error e

lemma next_of_unread (used : List UInt8) (h : Unread tail) :
    ∃ e, next (used ++ tail) used.length = .error e := by
  rw [next]
  split
  · exact ⟨_, rfl⟩
  · next hlength =>
    obtain hshort | ⟨e, he⟩ := h
    · simp at hlength
      omega
    · have hread : readValueHeaderAt (used ++ tail) used.length = .error e := by
        rw [← he, readValueHeaderAt, readValueHeaderAt, readAt_append, readAt, List.drop_zero]
      exact ⟨e, by rw [hread]⟩

lemma iterateFrom_encode (tail : List UInt8) (h : Unread tail) :
    ∀ (ws : List Written) (used : List UInt8) (fuel : Nat), Placed used.length ws →
      ws.length < fuel →
        iterateFrom (used ++ (encodeAll ws ++ tail)) fuel used.length = ws.map Written.info
  | [], used, fuel + 1, _, _ => by
    obtain ⟨e, he⟩ := next_of_unread used h
    simp [iterateFrom, he]
  | w :: ws, used, fuel + 1, hplaced, hfuel => by
    obtain ⟨hoffset, hrest⟩ := hplaced
    have hnext := next_encode used (encodeAll ws ++ tail) w hoffset
    have hrest' : Placed (used ++ w.encode).length ws := by rwa [List.length_append]
    have ih := iterateFrom_encode tail h ws (used ++ w.encode) fuel hrest'
      (Nat.lt_of_succ_lt_succ hfuel)
    rw [List.append_assoc, List.length_append] at ih
    rw [encodeAll_cons, List.append_assoc, iterateFrom, hnext]
    simp only [ih, List.map_cons]

lemma length_le_encodeAll (ws : List Written) : ws.length ≤ (encodeAll ws).length := by
  induction ws with
  | nil => simp
  | cons w ws ih =>
    have := footer_lt_length_encode w
    rw [encodeAll_cons, List.length_cons, List.length_append]
    omega

/-- The iterator yields the entries of a file in the order they were written, and nothing else. -/
theorem iterate_encode (hplaced : Placed 0 ws) (htail : Unread tail) :
    iterate (encodeAll ws ++ tail) = ws.map Written.info := by
  have hfuel : ws.length < (encodeAll ws ++ tail).length + 1 := by
    have := length_le_encodeAll ws
    rw [List.length_append]
    omega
  exact iterateFrom_encode tail htail ws [] _ hplaced hfuel

/-- The values of the entries of a file. -/
theorem readEntry_encodeAll (hplaced : Placed 0 ws) {w : Written} (hw : w ∈ ws) :
    readEntry (encodeAll ws ++ tail) w.key w.offset w.value.length = some w.value := by
  obtain ⟨before, after, rfl⟩ := List.append_of_mem hw
  have hoffset : w.offset = (encodeAll before).length := by
    simpa using (placed_append.mp hplaced).2.1
  rw [encodeAll_append, encodeAll_cons, List.append_assoc, List.append_assoc]
  exact readEntry_encode _ _ w hoffset

/-! ## Bytes without entries -/

/-- The last byte of the fixed part of a header is the low byte of the version, which is not
zero. -/
theorem parseValueHeader_of_getD {fixed : List UInt8} (h : fixed.getD 17 0 = 0) :
    ∃ e, parseValueHeader fixed = .error e := by
  by_cases hlength : fixed.length < valueHeaderSize
  · exact ⟨.eof, by rw [parseValueHeader, if_pos hlength]⟩
  · rw [valueHeaderSize, not_lt] at hlength
    have hlow : fixed[17] = 0 := by
      rwa [List.getD_eq_getElem _ _ (by omega)] at h
    have hdrop : fixed.drop 16 = fixed[16] :: fixed[17] :: fixed.drop 18 := by
      rw [List.drop_eq_getElem_cons (by omega), List.drop_eq_getElem_cons (by omega)]
    have hversion : uint ((fixed.drop 16).take 2) = fixed[16].toNat * 256 := by
      rw [hdrop, hlow]
      simp [uint]
    rw [parseValueHeader]
    -- Whatever the checks before it say, the version is a multiple of 256.
    have hrejected : uint ((fixed.drop 16).take 2) = 0 ∨
        currentValueHeaderVersion.toNat < uint ((fixed.drop 16).take 2) := by
      rw [hversion, show currentValueHeaderVersion.toNat = 1 from rfl]
      omega
    simp only [hrejected, if_true]
    split_ifs <;> exact ⟨_, rfl⟩

lemma unread_of_getD (h : tail.getD 17 0 = 0) : Unread tail := by
  refine .inr (parseValueHeader_of_getD ?_)
  rw [readAt, List.drop_zero, List.getD_eq_getElem?_getD, List.getElem?_take_of_lt (by decide),
    ← List.getD_eq_getElem?_getD, h]

/-- What a write that stopped early leaves in a file that was preallocated. -/
theorem unread_take_append (hn : n < valueHeaderSize) (htail : ∀ x ∈ tail, x = 0) :
    Unread (b.take n ++ tail) := by
  rw [valueHeaderSize] at hn
  have hlength : (b.take n).length ≤ 17 := by
    rw [List.length_take]
    omega
  refine unread_of_getD ?_
  rw [List.getD_append_right _ _ _ _ hlength, List.getD_eq_getElem?_getD]
  -- A byte of the tail, or the default behind its end.
  cases hget : tail[17 - (b.take n).length]? with
  | none => rfl
  | some x => exact htail x (List.mem_of_getElem? hget)

/-- Only the first eighteen bytes matter to a header. -/
theorem unread_append_of_length {rest : List UInt8} (hlength : valueHeaderSize ≤ b.length)
    (h : ∃ e, readValueHeaderAt b 0 = .error e) : Unread (b ++ rest) := by
  obtain ⟨e, he⟩ := h
  refine .inr ⟨e, ?_⟩
  rw [← he, readValueHeaderAt, readValueHeaderAt, readAt, readAt, List.drop_zero, List.drop_zero,
    List.take_append_of_le_length hlength]

/-- What a write of a footer that stopped after `n` bytes leaves there. -/
theorem unread_take_footer {footer : List UInt8} (hfooter : footer.length = segmentFooterSize)
    (htail : ∀ x ∈ tail, x = 0)
    (h : n < valueHeaderSize ∨ (∃ e, readValueHeaderAt footer 0 = .error e) ∨
      tail.length ≤ segmentFooterSize) :
    Unread (footer.take n ++ tail.drop (footer.take n).length) := by
  have hdrop : ∀ x ∈ tail.drop (footer.take n).length, x = 0 :=
    fun x hx => htail x (List.mem_of_mem_drop hx)
  by_cases hn : n < valueHeaderSize
  · exact unread_take_append hn hdrop
  · obtain hlt | herror | hshort := h
    · exact absurd hlt hn
    · -- The bytes of the footer that were written include all that a header reads.
      rw [not_lt] at hn
      refine unread_append_of_length ?_ ?_
      · rw [List.length_take, hfooter]
        exact le_min hn (by decide)
      · obtain ⟨e, he⟩ := herror
        refine ⟨e, ?_⟩
        rw [← he, readValueHeaderAt, readValueHeaderAt, readAt, readAt, List.drop_zero,
          List.drop_zero, List.take_take, min_eq_left hn]
    · refine .inl ?_
      rw [List.length_append, List.length_drop, List.length_take, hfooter]
      omega

lemma unread_of_zero (htail : ∀ x ∈ tail, x = 0) : Unread tail := by
  simpa using unread_take_append (b := []) (n := 0) (by decide) htail

end OCache.SegmentFile
