import Mathlib
import OCache.Lib.Calendar
import OCache.Lib.Decimal

/-!
# Key namespaces

All rows of the store share one RocksDB keyspace. User metadata and the bookkeeping indexes are told
apart by the text a key starts with, and the merge operator picks its strategy by it.

The rows of an index start with a time that is padded with zeros, so that an iterator meets them
oldest first. What follows the time is not escaped: a parser has to find it by its position, or
behind the first separator.
-/

namespace OCache.Keys

/-- The bytes of a text constant. -/
def ofString (s : String) : List UInt8 := s.toUTF8.data.toList

/-- Start of the metadata row of a user key. -/
def metadataPrefix : List UInt8 := ofString "!meta/"

/-- Start of the dead-byte ledger row of a segment. -/
def deleteIndexPrefix : List UInt8 := ofString "!delete:segment/"

/-- The metadata key of a user key. -/
def makeMetadataKey (userKey : List UInt8) : List UInt8 := metadataPrefix ++ userKey

/-- `ExtractUserKey`: other keys are returned whole. -/
def extractUserKey (metadataKey : List UInt8) : List UInt8 :=
  if metadataPrefix.isPrefixOf metadataKey then metadataKey.drop metadataPrefix.length else metadataKey

/-- The key is the metadata row of a user key. -/
def isMetadataKey (key : List UInt8) : Bool := metadataPrefix.isPrefixOf key

/-- The key is the dead-byte ledger row of a segment. -/
def isDeleteIndexKey (key : List UInt8) : Bool := deleteIndexPrefix.isPrefixOf key

variable {key : List UInt8} {t u : Int64}

/-- Metadata keys are exactly the keys `makeMetadataKey` builds. -/
theorem isMetadataKey_iff :
    isMetadataKey key = true ↔ ∃ userKey, key = makeMetadataKey userKey := by
  rw [isMetadataKey, List.isPrefixOf_iff_prefix]
  exact ⟨fun ⟨t, h⟩ => ⟨t, h.symm⟩, fun ⟨t, h⟩ => ⟨t, h.symm⟩⟩

@[simp] lemma extractUserKey_makeMetadataKey (userKey : List UInt8) :
    extractUserKey (makeMetadataKey userKey) = userKey := by
  have hstart : metadataPrefix.isPrefixOf (makeMetadataKey userKey) = true :=
    isMetadataKey_iff.mpr ⟨userKey, rfl⟩
  rw [extractUserKey, if_pos hstart, makeMetadataKey, List.drop_left]

/-- The namespaces of metadata rows and ledger rows are disjoint. -/
theorem not_isDeleteIndexKey_of_isMetadataKey (h : isMetadataKey key = true) :
    isDeleteIndexKey key = false := by
  obtain ⟨userKey, rfl⟩ := isMetadataKey_iff.mp h
  rfl

/-! ## The deletion queue -/

/-- Start of the rows of the deletion queue. -/
def deletionQueuePrefix : List UInt8 := ofString "!del/"

/-- `MakeDeletionQueueKey`: `!del/<timestamp>/<filepath>`. -/
def makeDeletionQueueKey (timestamp : Int64) (filepath : List UInt8) : List UInt8 :=
  deletionQueuePrefix ++ (Decimal.format 20 timestamp.toInt ++ 47 :: filepath)

/-- `strconv.ParseInt`, once the digits are read: the number has to fit. -/
def int64OfInt (t : Int) : Option Int64 :=
  if -2 ^ 63 ≤ t ∧ t < 2 ^ 63 then some (Int64.ofInt t) else none

/-- `ParseDeletionQueueKey`: the timestamp and the path. What stands between the number and the
slash is ignored, as `Sscanf` does. -/
def parseDeletionQueueKey (key : List UInt8) : Option (Int64 × List UInt8) :=
  if deletionQueuePrefix.isPrefixOf key then
    match (key.drop deletionQueuePrefix.length).span (· ≠ 47) with
    | (number, _ :: filepath) =>
      ((Decimal.scan 20 number).bind int64OfInt).map fun timestamp => (timestamp, filepath)
    | _ => none
  else none

lemma int64OfInt_toInt (t : Int64) : int64OfInt t.toInt = some t := by
  have hlower := t.le_toInt
  have hupper := t.toInt_lt
  rw [int64OfInt, if_pos ⟨hlower, hupper⟩, Int64.ofInt_toInt]

lemma parseDeletionQueueKey_make (timestamp : Int64) (filepath : List UInt8) :
    parseDeletionQueueKey (makeDeletionQueueKey timestamp filepath) = some (timestamp, filepath) := by
  have hlower := timestamp.le_toInt
  have hupper := timestamp.toInt_lt
  have hscan : Decimal.scan 20 (Decimal.format 20 timestamp.toInt) = some timestamp.toInt :=
    Decimal.scan_format (by decide) (by norm_num; omega) (by norm_num; omega)
  have hspan : (Decimal.format 20 timestamp.toInt ++ 47 :: filepath).span (· ≠ 47) =
      (Decimal.format 20 timestamp.toInt, 47 :: filepath) := by
    rw [List.span_eq_takeWhile_dropWhile, List.takeWhile_append_of_pos, List.dropWhile_append_of_pos]
    · simp
    all_goals exact fun b hb => by simpa using Decimal.ne_slash_of_mem_format hb
  have hstart : deletionQueuePrefix.isPrefixOf (makeDeletionQueueKey timestamp filepath) = true := by
    rw [List.isPrefixOf_iff_prefix]
    exact List.prefix_append _ _
  rw [parseDeletionQueueKey, if_pos hstart, makeDeletionQueueKey, List.drop_left, hspan]
  simp [hscan, int64OfInt_toInt]

/-! ## The compaction index -/

/-- Start of the rows of the compaction index. -/
def compactionIndexPrefix : List UInt8 := ofString "!compact/"

/-- `MakeCompactionKey`: `!compact/<timestamp>|<key>`. -/
def makeCompactionKey (ts : Int64) (key : List UInt8) : List UInt8 :=
  compactionIndexPrefix ++ (Decimal.format 20 ts.toInt ++ 124 :: key)

/-- `ParseCompactionIndexRow`: the user key behind the first bar, and the file path. -/
def parseCompactionIndexRow (k v : List UInt8) : Option (List UInt8 × List UInt8) :=
  match k.span (· ≠ 124) with
  | (_ :: _, _ :: userKey) => some (userKey, v)
  | _ => none

lemma parseCompactionIndexRow_make (ts : Int64) (key filePath : List UInt8) :
    parseCompactionIndexRow (makeCompactionKey ts key) filePath = some (key, filePath) := by
  have hne : ∀ b ∈ compactionIndexPrefix ++ Decimal.format 20 ts.toInt, (b ≠ 124) = true := by
    intro b hb
    rcases List.mem_append.mp hb with hstart | hnumber
    · have hall : ∀ b ∈ compactionIndexPrefix, b ≠ 124 := by decide +kernel
      simpa using hall b hstart
    · simpa using Decimal.ne_bar_of_mem_format hnumber
  have hspan : (makeCompactionKey ts key).span (· ≠ 124) =
      (compactionIndexPrefix ++ Decimal.format 20 ts.toInt, 124 :: key) := by
    rw [makeCompactionKey, ← List.append_assoc, List.span_eq_takeWhile_dropWhile,
      List.takeWhile_append_of_pos (by simpa using hne),
      List.dropWhile_append_of_pos (by simpa using hne)]
    simp
  rw [parseCompactionIndexRow, hspan]
  rfl

/-! ## The FIFO index -/

/-- Start of the rows of the FIFO index. -/
def fifoIndexPrefix : List UInt8 := ofString "!fifo/"

/-- Start of the back-references from a user key to its row in the FIFO index. -/
def fifoBackrefPrefix : List UInt8 := ofString "!fifo_ref/"

/-- `MakeFifoBackrefKey`: `!fifo_ref/<key>`. -/
def makeFifoBackrefKey (key : List UInt8) : List UInt8 := fifoBackrefPrefix ++ key

/-- `MakeFifoIndexKey`: `!fifo/<write time>/<key>`. -/
def makeFifoIndexKey (key : List UInt8) (writeTime : Int64) : List UInt8 :=
  fifoIndexPrefix ++ (Decimal.format 19 writeTime.toInt ++ 47 :: key)

/-- `ParseFifoIndexKey`: the user key behind the 19 digits and the slash. -/
def parseFifoIndexKey (fifoKey : List UInt8) : Option (List UInt8) :=
  if fifoIndexPrefix.isPrefixOf fifoKey then
    match (fifoKey.drop fifoIndexPrefix.length).drop 19 with
    | 47 :: key => some key
    | _ => none
  else none

/-- `ParseFifoIndexTime`: the time in the 19 digits. -/
def parseFifoIndexTime (fifoKey : List UInt8) : Option Int64 :=
  if fifoIndexPrefix.isPrefixOf fifoKey ∧
      ((fifoKey.drop fifoIndexPrefix.length).drop 19).head? = some 47 then
    (Decimal.scan 19 ((fifoKey.drop fifoIndexPrefix.length).take 19)).bind int64OfInt
  else none

section Padded

variable {t : Int64}

lemma length_format_toInt (ht : 0 ≤ t) : (Decimal.format 19 t.toInt).length = 19 :=
  Decimal.length_format_of_nonneg (by simpa using Int64.le_iff_toInt_le.mp ht)

/-- A time of 64 bits that is not negative has at most 19 digits. -/
theorem scan_format_toInt (ht : 0 ≤ t) :
    (Decimal.scan 19 (Decimal.format 19 t.toInt)).bind int64OfInt = some t := by
  have hnonneg : 0 ≤ t.toInt := by simpa using Int64.le_iff_toInt_le.mp ht
  have hupper := t.toInt_lt
  rw [Decimal.scan_format (by decide) (by norm_num; omega) (by norm_num; omega), Option.bind_some,
    int64OfInt_toInt]

lemma drop_format_toInt (ht : 0 ≤ t) (rest : List UInt8) :
    (Decimal.format 19 t.toInt ++ rest).drop 19 = rest :=
  List.drop_left' (length_format_toInt ht)

lemma take_format_toInt (ht : 0 ≤ t) (rest : List UInt8) :
    (Decimal.format 19 t.toInt ++ rest).take 19 = Decimal.format 19 t.toInt :=
  List.take_left' (length_format_toInt ht)

end Padded

lemma isPrefixOf_append (front rest : List UInt8) : front.isPrefixOf (front ++ rest) = true := by
  rw [List.isPrefixOf_iff_prefix]
  exact List.prefix_append _ _

lemma parseFifoIndexKey_make (key : List UInt8) (ht : 0 ≤ t) :
    parseFifoIndexKey (makeFifoIndexKey key t) = some key := by
  rw [parseFifoIndexKey, makeFifoIndexKey, if_pos (isPrefixOf_append _ _), List.drop_left,
    drop_format_toInt ht]
  rfl

lemma parseFifoIndexTime_make (key : List UInt8) (ht : 0 ≤ t) :
    parseFifoIndexTime (makeFifoIndexKey key t) = some t := by
  rw [parseFifoIndexTime, makeFifoIndexKey, List.drop_left, drop_format_toInt ht,
    take_format_toInt ht, if_pos ⟨isPrefixOf_append _ _, rfl⟩, scan_format_toInt ht]

/-! ## The access index -/

/-- How a zone prints the hour of a time, in the layout `2006010215`: ten bytes that sort by
time. -/
structure Zone where
  hour : Int64 → List UInt8
  length_hour : ∀ t, (hour t).length = 10
  hour_mono : ∀ {t u}, t ≤ u → hour t ≤ hour u

variable (offset : Int)

/-- The hours from the start of the year 0 to a time in nanoseconds from 1970, in a zone. -/
def localHour (t : Int64) : Nat :=
  ((Calendar.yearStart 1970 * 86400 + t.toInt / 1000000000 + offset) / 3600).toNat

lemma localHour_mono (h : t ≤ u) : localHour offset t ≤ localHour offset u := by
  have hle := Int64.le_iff_toInt_le.mp h
  unfold localHour
  omega

/-- A time of 64 bits is before the year 2263. -/
theorem hourStamp_localHour_lt {offset : Int} (hupper : offset < 86400) (t : Int64) :
    Calendar.hourStamp (localHour offset t) < 10 ^ 10 := by
  have hlt := t.toInt_lt
  have hstart : Calendar.yearStart 1970 = 719528 := rfl
  have hend : Calendar.yearStart 10000 = 3652425 := rfl
  apply Calendar.hourStamp_lt
  rw [localHour, hstart, hend]
  omega

/-- A zone less than a day from UTC. -/
def Zone.fixedOffset (h : |offset| < 86400) : Zone where
  hour t := Decimal.fixed 10 (Calendar.hourStamp (localHour offset t))
  length_hour t := Decimal.length_fixed _ _
  hour_mono {t u} hle := by
    have hstamp : Calendar.hourStamp (localHour offset t) ≤ Calendar.hourStamp (localHour offset u) :=
      Calendar.hourStamp_mono (localHour_mono offset hle)
    rw [List.le_iff_lt_or_eq]
    rcases hstamp.lt_or_eq with hlt | heq
    · exact .inl (Decimal.fixed_lt_fixed (hourStamp_localHour_lt (abs_lt.mp h).2 u) hlt)
    · exact .inr (by rw [heq])

example : (Zone.fixedOffset (-18000) (by decide)).hour 1709254800000000000 = ofString "2024022920" := by
  decide +kernel

/-- Start of the rows of the access index. -/
def accessBucketPrefix : List UInt8 := ofString "!access_bucket/"

/-- Start of the back-references from a user key to its row in the access index. -/
def accessBucketIndexPrefix : List UInt8 := ofString "!access_bucket_index/"

/-- `MakeBucketedAccessIndexKey`: `!access_bucket_index/<key>`. -/
def makeBucketedAccessIndexKey (key : List UInt8) : List UInt8 := accessBucketIndexPrefix ++ key

variable (zone : Zone)

/-- `GetBucketedAccessKey`: `!access_bucket/YYYYMMDDHH/`. -/
def getBucketedAccessKey (timestamp : Int64) : List UInt8 :=
  accessBucketPrefix ++ (zone.hour timestamp ++ [47])

/-- `MakeBucketedAccessKey`: `!access_bucket/YYYYMMDDHH/<access time>/<key>`. -/
def makeBucketedAccessKey (key : List UInt8) (accessTime : Int64) : List UInt8 :=
  getBucketedAccessKey zone accessTime ++ (Decimal.format 19 accessTime.toInt ++ 47 :: key)

/-- `ParseBucketedAccessKey`: the key and the access time, by their positions. Neither the prefix
nor the slashes are looked at. -/
def parseBucketedAccessKey (bucketedKey : List UInt8) : Option (List UInt8 × Int64) :=
  let remaining := (bucketedKey.drop accessBucketPrefix.length).drop 11
  if bucketedKey.length < accessBucketPrefix.length + 11 + 20 then none
  else ((Decimal.scan 19 (remaining.take 19)).bind int64OfInt).map fun t => (remaining.drop 20, t)

lemma drop_getBucketedAccessKey (t : Int64) (rest : List UInt8) :
    ((getBucketedAccessKey zone t ++ rest).drop accessBucketPrefix.length).drop 11 = rest := by
  have hlen := zone.length_hour t
  rw [getBucketedAccessKey, List.append_assoc, List.drop_left]
  exact List.drop_left' (by simp [hlen])

lemma parseBucketedAccessKey_make (key : List UInt8) (ht : 0 ≤ t) :
    parseBucketedAccessKey (makeBucketedAccessKey zone key t) = some (key, t) := by
  have hlong : ¬(makeBucketedAccessKey zone key t).length < accessBucketPrefix.length + 11 + 20 := by
    have hlen := zone.length_hour t
    simp only [makeBucketedAccessKey, getBucketedAccessKey, List.length_append, List.length_cons,
      List.length_nil, length_format_toInt ht]
    omega
  have hkey : (Decimal.format 19 t.toInt ++ 47 :: key).drop 20 = key := by
    rw [← List.drop_drop (i := 1) (j := 19), drop_format_toInt ht]
    rfl
  simp only [parseBucketedAccessKey, hlong, if_false]
  rw [makeBucketedAccessKey, drop_getBucketedAccessKey, take_format_toInt ht, hkey,
    scan_format_toInt ht, Option.map_some]

/-! ## Order -/

/-- Keys of one kind with different times sort by their times. -/
def SortsByTime (make : List UInt8 → Int64 → List UInt8) : Prop :=
  ∀ k k' t u, 0 ≤ t → 0 ≤ u → t ≠ u → (make k t < make k' u ↔ t < u)

lemma sortsByTime_of_lt {make : List UInt8 → Int64 → List UInt8}
    (h : ∀ k k' t u, 0 ≤ t → t < u → make k t < make k' u) : SortsByTime make := by
  intro k k' t u ht hu hne
  refine ⟨fun hlt => ?_, h k k' t u ht⟩
  rcases Int.lt_or_gt_of_ne (mt Int64.toInt_inj.mp hne) with htu | hut
  · exact Int64.lt_iff_toInt_lt.mpr htu
  · exact absurd (h k' k u t hu (Int64.lt_iff_toInt_lt.mpr hut)) (List.lt_asymm hlt)

/-- Padded times in front of the rest decide. -/
theorem format_append_lt {w : Nat} (hw : 19 ≤ w) (ht : 0 ≤ t) (h : t < u) (x y : List UInt8) :
    Decimal.format w t.toInt ++ x < Decimal.format w u.toInt ++ y := by
  have htu : t.toInt < u.toInt := Int64.lt_iff_toInt_lt.mp h
  have hnonneg : 0 ≤ t.toInt := by simpa using Int64.le_iff_toInt_le.mp ht
  have hupper : u.toInt < 10 ^ w := by
    have hpow : (10 : Int) ^ 19 ≤ 10 ^ w := by gcongr; decide
    have hlt := u.toInt_lt
    norm_num at hpow
    omega
  apply ByteOrder.append_lt_append_of_lt (Decimal.format_lt_format hnonneg hupper htu)
  rw [Decimal.length_format_of_nonneg hnonneg, Decimal.length_format_of_nonneg (by omega)]

lemma sortsByTime_deletionQueue :
    SortsByTime fun filepath timestamp => makeDeletionQueueKey timestamp filepath :=
  sortsByTime_of_lt fun _ _ _ _ ht h =>
    ByteOrder.append_lt_append_left _ (format_append_lt (by decide) ht h _ _)

lemma sortsByTime_compaction : SortsByTime fun key ts => makeCompactionKey ts key :=
  sortsByTime_of_lt fun _ _ _ _ ht h =>
    ByteOrder.append_lt_append_left _ (format_append_lt (by decide) ht h _ _)

lemma sortsByTime_fifo : SortsByTime makeFifoIndexKey :=
  sortsByTime_of_lt fun _ _ _ _ ht h =>
    ByteOrder.append_lt_append_left _ (format_append_lt (by decide) ht h _ _)

/-- The hour decides, and within one hour the time. -/
theorem sortsByTime_bucketed : SortsByTime (makeBucketedAccessKey zone) := by
  apply sortsByTime_of_lt
  intro k k' t u ht h
  simp only [makeBucketedAccessKey, getBucketedAccessKey, List.append_assoc]
  apply ByteOrder.append_lt_append_left
  rcases List.le_iff_lt_or_eq.mp (zone.hour_mono (Int64.le_of_lt h)) with hhour | hhour
  · exact ByteOrder.append_lt_append_of_lt hhour (by rw [zone.length_hour, zone.length_hour]) _ _
  · rw [hhour]
    apply ByteOrder.append_lt_append_left
    exact ByteOrder.append_lt_append_left _ (format_append_lt (le_refl _) ht h _ _)

/-- Parsing gives back what an index key was made of, and the keys of every index sort by time. -/
theorem index_keys_roundtrip_and_sort (zone : Zone) :
    (∀ key t, 0 ≤ t → parseBucketedAccessKey (makeBucketedAccessKey zone key t) = some (key, t)) ∧
      (∀ key t, 0 ≤ t → parseFifoIndexKey (makeFifoIndexKey key t) = some key ∧
        parseFifoIndexTime (makeFifoIndexKey key t) = some t) ∧
      (∀ path t, parseDeletionQueueKey (makeDeletionQueueKey t path) = some (t, path)) ∧
      (∀ key t path, parseCompactionIndexRow (makeCompactionKey t key) path = some (key, path)) ∧
      SortsByTime (makeBucketedAccessKey zone) ∧
      SortsByTime makeFifoIndexKey ∧
      SortsByTime (fun path t => makeDeletionQueueKey t path) ∧
      SortsByTime fun key t => makeCompactionKey t key :=
  ⟨fun key _ ht => parseBucketedAccessKey_make zone key ht,
    fun key _ ht => ⟨parseFifoIndexKey_make key ht, parseFifoIndexTime_make key ht⟩,
    fun path t => parseDeletionQueueKey_make t path,
    fun key t path => parseCompactionIndexRow_make t key path,
    sortsByTime_bucketed zone, sortsByTime_fifo, sortsByTime_deletionQueue, sortsByTime_compaction⟩

end OCache.Keys
