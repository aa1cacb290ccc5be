import OCache.Lib.Reader

/-!
# The protobuf wire format

Varints, tags and length-prefixed payloads of the protobuf encoding, with the rules by which a
decoder steps over a field it does not know: fixed-size payloads, length-prefixed payloads, and
groups, which nest.
-/

namespace Protowire

open Reader

/-! ## Varints -/

/-- Read a varint of at most `left` bytes. The last byte allowed may carry one bit only, which
keeps a ten-byte varint below `2 ^ 64`. -/
def varintNat : Nat → Reader Nat
  | 0 => fail
  | 1 => byte.bind fun c => if c < 2 then Reader.pure c.toNat else fail
  | n + 2 => byte.bind fun c =>
    if c < 0x80 then Reader.pure c.toNat
    else (varintNat (n + 1)).map fun hi => c.toNat - 0x80 + 0x80 * hi

/-- Read a 64-bit varint. -/
def consumeVarint : Reader UInt64 := (varintNat 10).map UInt64.ofNat

/-- The varint of `n`, in at most `k + 1` bytes. -/
def varintBytes : Nat → Nat → List UInt8
  | 0, n => [UInt8.ofNat n]
  | k + 1, n =>
    if n < 0x80 then [UInt8.ofNat n]
    else UInt8.ofNat (n % 0x80 + 0x80) :: varintBytes k (n / 0x80)

/-- The varint of a 64-bit value. -/
def appendVarint (v : UInt64) : List UInt8 := varintBytes 9 v.toNat

/-- A varint is read back from its bytes, as long as it fits the bytes allowed. -/
theorem varintNat_append (rest : List UInt8) :
    ∀ k n : Nat, n < 2 ^ (7 * k + 1) →
      (varintNat (k + 1)).run (varintBytes k n ++ rest) = some (n, rest) := by
  intro k
  induction k with
  | zero =>
    intro n hn
    have hlt : UInt8.ofNat n < 2 := by
      rw [UInt8.lt_iff_toNat_lt, UInt8.toNat_ofNat']
      simp at hn ⊢
      omega
    have hval : (UInt8.ofNat n).toNat = n := by
      rw [UInt8.toNat_ofNat']
      omega
    simp [varintNat, varintBytes, bind_run_of_some (byte_run_cons _ _), hlt, hval]
  | succ k ih =>
    intro n hn
    simp only [varintBytes]
    split
    · -- The value ends in this byte.
      rename_i hsmall
      have hlt : UInt8.ofNat n < 0x80 := by
        rw [UInt8.lt_iff_toNat_lt, UInt8.toNat_ofNat']
        simp
        omega
      have hval : (UInt8.ofNat n).toNat = n := by
        rw [UInt8.toNat_ofNat']
        omega
      simp [varintNat, bind_run_of_some (byte_run_cons _ _), hlt, hval]
    · -- The byte carries seven bits and the continuation bit.
      rename_i hbig
      have hval : (UInt8.ofNat (n % 0x80 + 0x80)).toNat = n % 0x80 + 0x80 := by
        rw [UInt8.toNat_ofNat']
        omega
      have hge : ¬ UInt8.ofNat (n % 0x80 + 0x80) < 0x80 := by
        rw [UInt8.lt_iff_toNat_lt, hval]
        simp
      have hpow : 2 ^ (7 * (k + 1) + 1) = 2 ^ (7 * k + 1) * 128 := by
        rw [show 7 * (k + 1) + 1 = 7 * k + 1 + 7 by ring, Nat.pow_add]
      have hhi : n / 0x80 < 2 ^ (7 * k + 1) := by
        rw [Nat.div_lt_iff_lt_mul (by decide), ← hpow]
        exact hn
      have hsum : n % 0x80 + 0x80 - 0x80 + 0x80 * (n / 0x80) = n := by omega
      rw [List.cons_append, varintNat, bind_run_of_some (byte_run_cons _ _), if_neg hge,
        map_run_of_some (ih _ hhi), hval, hsum]

/-- Every 64-bit value is read back from its varint. -/
theorem consumeVarint_append (v : UInt64) (rest : List UInt8) :
    consumeVarint.run (appendVarint v ++ rest) = some (v, rest) := by
  have h := varintNat_append rest 9 v.toNat (by simpa using v.toNat_lt)
  rw [consumeVarint, appendVarint, map_run_of_some h, UInt64.ofNat_toNat]

lemma consumes_varintNat : ∀ n : Nat, (varintNat n).Consumes
  | 0 => by
    intro b a rest h
    simp [varintNat] at h
  | 1 => consumes_bind consumes_byte _
  | _ + 2 => consumes_bind consumes_byte _

lemma consumes_consumeVarint : consumeVarint.Consumes :=
  consumes_bind (consumes_varintNat 10) _

lemma varintBytes_ne_nil (k n : Nat) : varintBytes k n ≠ [] := by
  cases k with
  | zero => simp [varintBytes]
  | succ k =>
    simp only [varintBytes]
    split <;> simp

lemma appendVarint_ne_nil (v : UInt64) : appendVarint v ≠ [] := varintBytes_ne_nil _ _

/-! ## Tags -/

/-- The wire types a field may have. The two reserved codes are rejected with the tag. -/
inductive WireType where
  | varint
  | fixed64
  | bytes
  | startGroup
  | endGroup
  | fixed32
deriving DecidableEq, Repr

/-- The three low bits of a tag. -/
def WireType.code : WireType → Nat
  | varint => 0
  | fixed64 => 1
  | bytes => 2
  | startGroup => 3
  | endGroup => 4
  | fixed32 => 5

/-- The wire type with the given code. -/
def WireType.ofCode : Nat → Option WireType
  | 0 => some varint
  | 1 => some fixed64
  | 2 => some bytes
  | 3 => some startGroup
  | 4 => some endGroup
  | 5 => some fixed32
  | _ => none

@[simp] lemma WireType.ofCode_code (w : WireType) : ofCode w.code = some w := by
  cases w <;> rfl

lemma WireType.code_lt (w : WireType) : w.code < 8 := by
  cases w <;> decide

/-- The largest field number of a message field. -/
def maxValidNumber : Nat := 2 ^ 29 - 1

/-- The largest field number a decoder lets pass inside a group it steps over. -/
def maxGroupNumber : Nat := 2 ^ 31 - 1

/-- A field number between `1` and `maxNum` and a wire type. -/
structure Tag (maxNum : Nat) where
  /-- The field number. -/
  num : Nat
  /-- How the payload is delimited. -/
  wtyp : WireType
  /-- Field numbers start at `1`. -/
  one_le : 1 ≤ num
  /-- Field numbers are bounded. -/
  le_max : num ≤ maxNum
deriving DecidableEq, Repr

variable (maxNum : Nat)

/-- Split a tag value, rejecting field numbers outside `1 .. maxNum` and reserved wire types. -/
def decodeTag (v : UInt64) : Option (Tag maxNum) :=
  if h : 1 ≤ v.toNat / 8 ∧ v.toNat / 8 ≤ maxNum then
    (WireType.ofCode (v.toNat % 8)).map fun wtyp => ⟨v.toNat / 8, wtyp, h.1, h.2⟩
  else none

/-- Read a tag. -/
def consumeTag : Reader (Tag maxNum) :=
  consumeVarint.bind fun v => ofOption (decodeTag maxNum v)

/-- The bytes of a tag. -/
def appendTag {maxNum : Nat} (t : Tag maxNum) : List UInt8 :=
  appendVarint (UInt64.ofNat (t.num * 8 + t.wtyp.code))

/-- A tag is read back from its bytes. -/
theorem consumeTag_append (t : Tag maxValidNumber) (rest : List UInt8) :
    (consumeTag maxValidNumber).run (appendTag t ++ rest) = some (t, rest) := by
  obtain ⟨num, wtyp, hpos, hmax⟩ := t
  have hcode := wtyp.code_lt
  have hnum : num < 2 ^ 29 := by
    simp only [maxValidNumber] at hmax
    omega
  have hval : (UInt64.ofNat (num * 8 + wtyp.code)).toNat = num * 8 + wtyp.code := by
    rw [UInt64.toNat_ofNat']
    omega
  have hdiv : (num * 8 + wtyp.code) / 8 = num := by omega
  have hmod : (num * 8 + wtyp.code) % 8 = wtyp.code := by omega
  have hdec : decodeTag maxValidNumber (UInt64.ofNat (num * 8 + wtyp.code)) =
      some ⟨num, wtyp, hpos, hmax⟩ := by
    simp only [decodeTag, hval, hdiv, hmod]
    simp [hpos, hmax]
  simp only [consumeTag, appendTag]
  rw [bind_run_of_some (consumeVarint_append _ _), hdec]
  rfl

lemma consumes_consumeTag : (consumeTag maxNum).Consumes :=
  consumes_bind consumes_consumeVarint _

lemma appendTag_ne_nil {maxNum : Nat} (t : Tag maxNum) : appendTag t ≠ [] :=
  appendVarint_ne_nil _

/-! ## Payloads -/

/-- Read a length-prefixed payload. -/
def consumeBytes : Reader (List UInt8) := consumeVarint.bind fun n => take n.toNat

/-- The length-prefixed form of a payload. -/
def appendBytes (b : List UInt8) : List UInt8 := appendVarint (UInt64.ofNat b.length) ++ b

variable {b rest : List UInt8} {s : String} {t : Tag maxValidNumber}

/-- A payload shorter than `2 ^ 64` bytes is read back from its length-prefixed form. -/
theorem consumeBytes_append (h : b.length < 2 ^ 64) (rest : List UInt8) :
    consumeBytes.run (appendBytes b ++ rest) = some (b, rest) := by
  rw [consumeBytes, appendBytes, List.append_assoc, bind_run_of_some (consumeVarint_append _ _)]
  apply take_run_append
  rw [UInt64.toNat_ofNat']
  omega

/-- A payload that was read is shorter than `2 ^ 64` bytes. -/
theorem length_lt_of_consumeBytes {payload : List UInt8}
    (h : consumeBytes.run b = some (payload, rest)) : payload.length < 2 ^ 64 := by
  obtain ⟨n, mid, -, htake⟩ := exists_of_bind_run h
  rw [length_of_take_run htake]
  exact n.toNat_lt

/-- Read a length-prefixed string, rejecting bytes that are not UTF-8. -/
def consumeString : Reader String :=
  consumeBytes.bind fun b => ofOption (String.fromUTF8? ⟨b.toArray⟩)

/-- The length-prefixed form of a string. -/
def appendString (s : String) : List UInt8 := appendBytes s.toUTF8.data.toList

/-- A string shorter than `2 ^ 64` bytes is read back from its length-prefixed form. -/
theorem consumeString_append (h : s.toUTF8.data.toList.length < 2 ^ 64) (rest : List UInt8) :
    consumeString.run (appendString s ++ rest) = some (s, rest) := by
  have hdec : String.fromUTF8? ⟨s.toUTF8.data.toList.toArray⟩ = some s := by
    simp [String.fromUTF8?, s.isValidUTF8, String.fromUTF8]
  rw [consumeString, appendString, bind_run_of_some (consumeBytes_append h rest), hdec]
  rfl

/-- A string that was read is shorter than `2 ^ 64` bytes. -/
theorem length_lt_of_consumeString (h : consumeString.run b = some (s, rest)) :
    s.toUTF8.data.toList.length < 2 ^ 64 := by
  obtain ⟨payload, mid, hbytes, hdec⟩ := exists_of_bind_run h
  have hlen := length_lt_of_consumeBytes hbytes
  simp only [String.fromUTF8?] at hdec
  split at hdec
  · simp only [ofOption_some, pure_run, Option.some.injEq, Prod.mk.injEq] at hdec
    rw [← hdec.1]
    simpa [String.fromUTF8] using hlen
  · simp at hdec

/-- Step over a payload that is not a group. -/
def consumeScalar : WireType → Reader Unit
  | .varint => consumeVarint.map fun _ => ()
  | .fixed32 => (take 4).map fun _ => ()
  | .fixed64 => (take 8).map fun _ => ()
  | .bytes => consumeBytes.map fun _ => ()
  | .startGroup => fail
  | .endGroup => fail

/-- How deep groups may nest. -/
def recursionLimit : Nat := 10000

/-- Step over fields until the open groups, innermost first, are closed. The first argument bounds
the number of fields. -/
def consumeGroups : Nat → List Nat → Reader Unit
  | _, [] => Reader.pure ()
  | 0, _ :: _ => fail
  | n + 1, num :: outer => (consumeTag maxGroupNumber).bind fun t =>
    match t.wtyp with
    | .endGroup => if t.num = num then consumeGroups n outer else fail
    | .startGroup =>
      if outer.length < recursionLimit then consumeGroups n (t.num :: num :: outer) else fail
    | w => (consumeScalar w).bind fun _ => consumeGroups n (num :: outer)

/-- Step over the payload of one field. No input is long enough to hold `2 ^ 63` fields, so the
bound on the fields of a group never decides. -/
def consumeFieldValue (t : Tag maxValidNumber) : Reader Unit :=
  match t.wtyp with
  | .startGroup => consumeGroups (2 ^ 63) [t.num]
  | w => consumeScalar w

/-! ## Fields that are left out at their default -/

/-- The tag of a varint field. -/
def varintTag (num : Nat) (h : 1 ≤ num ∧ num ≤ maxValidNumber := by decide) :
    Tag maxValidNumber :=
  ⟨num, .varint, h.1, h.2⟩

/-- The tag of a length-prefixed field. -/
def bytesTag (num : Nat) (h : 1 ≤ num ∧ num ≤ maxValidNumber := by decide) :
    Tag maxValidNumber :=
  ⟨num, .bytes, h.1, h.2⟩

/-- A varint field, left out when it is zero. -/
def varintField (t : Tag maxValidNumber) (v : UInt64) : List UInt8 :=
  if v = 0 then [] else appendTag t ++ appendVarint v

/-- A bytes field, left out when it is empty. -/
def bytesField (t : Tag maxValidNumber) (b : List UInt8) : List UInt8 :=
  if b = [] then [] else appendTag t ++ appendBytes b

/-- A string field, left out when it is empty. -/
def stringField (t : Tag maxValidNumber) (s : String) : List UInt8 :=
  if s = "" then [] else appendTag t ++ appendString s

lemma varintField_eq_nil_iff {v : UInt64} : varintField t v = [] ↔ v = 0 := by
  simp [varintField, appendTag_ne_nil]

lemma bytesField_eq_nil_iff : bytesField t b = [] ↔ b = [] := by
  simp [bytesField, appendTag_ne_nil]

lemma stringField_eq_nil_iff : stringField t s = [] ↔ s = "" := by
  simp [stringField, appendTag_ne_nil]

/-! ## Messages -/

/-- A field kept as its bytes because the schema has no decoder for its tag. -/
structure UnknownField (known : Tag maxValidNumber → Bool) where
  /-- The tag of the field. -/
  tag : Tag maxValidNumber
  /-- The payload, undecoded. -/
  raw : List UInt8
  /-- The schema does not decode this tag. -/
  foreign : known tag = false
  /-- The payload ends where the wire format says it ends. -/
  complete : (consumeFieldValue tag).run raw = some ((), [])
deriving DecidableEq

/-- The bytes of an undecoded field. -/
def UnknownField.bytes {known : Tag maxValidNumber → Bool} (u : UnknownField known) :
    List UInt8 :=
  appendTag u.tag ++ u.raw

/-- What a decoder has to know about a message type `M`. -/
structure Schema (M : Type*) where
  /-- The tags the schema decodes. -/
  known : Tag maxValidNumber → Bool
  /-- Decode the payload of a known field into the message read so far. -/
  decode : Tag maxValidNumber → M → Reader M
  /-- Keep a field that is not known. -/
  keep : M → UnknownField known → M
  /-- The message all of whose fields have their default. -/
  empty : M

namespace Schema

variable {M : Type*} (S : Schema M)

/-- Read one field into the message read so far. -/
def field (m : M) : Reader M :=
  (consumeTag maxValidNumber).bind fun t =>
    if h : S.known t = false then
      (consumeFieldValue t).exactly.map fun raw => S.keep m ⟨t, raw.1, h, raw.2⟩
    else S.decode t m

/-- Decode a whole message: fields in any order, the last occurrence of a field wins. -/
def unmarshal (b : List UInt8) : Option M := foldAll S.field S.empty b

lemma consumes_field (m : M) : (S.field m).Consumes :=
  consumes_bind (consumes_consumeTag _) _

variable {m m' : M} {payload rest : List UInt8} {t : Tag maxValidNumber}

/-- A known field in front of other bytes is decoded by its own decoder. -/
theorem foldAll_known (ht : S.known t = true)
    (h : (S.decode t m).run (payload ++ rest) = some (m', rest)) :
    foldAll S.field m (appendTag t ++ payload ++ rest) = foldAll S.field m' rest := by
  apply foldAll_step S.consumes_field
  rw [List.append_assoc, field, bind_run_of_some (consumeTag_append _ _),
    dif_neg (by simp [ht]), h]

/-- An unknown field in front of other bytes is kept. -/
theorem foldAll_unknown (u : UnknownField S.known) (m : M) (rest : List UInt8) :
    foldAll S.field m (u.bytes ++ rest) = foldAll S.field (S.keep m u) rest := by
  apply foldAll_step S.consumes_field
  rw [UnknownField.bytes, List.append_assoc, field, bind_run_of_some (consumeTag_append _ _),
    dif_pos u.foreign,
    map_run_of_some (exactly_run_append (consumeFieldValue u.tag) ⟨u.raw, u.complete⟩ rest)]

/-- A field that was read is a known one, or it was kept. -/
theorem field_run_cases {b : List UInt8} (h : (S.field m).run b = some (m', rest)) :
    (∃ u, m' = S.keep m u) ∨ ∃ t mid, (S.decode t m).run mid = some (m', rest) := by
  obtain ⟨t, mid, -, h⟩ := exists_of_bind_run h
  split at h
  · obtain ⟨raw, -, rfl⟩ := exists_of_map_run h
    exact .inl ⟨_, rfl⟩
  · exact .inr ⟨t, mid, h⟩

/-- The kept fields of a message are read back in order. -/
theorem foldAll_unknowns (us : List (UnknownField S.known)) (m : M) :
    foldAll S.field m (us.flatMap UnknownField.bytes) = some (us.foldl S.keep m) := by
  induction us generalizing m with
  | nil => simp
  | cons u us ih => rw [List.flatMap_cons, foldAll_unknown, List.foldl_cons, ih]

/-- A field that is left out when its value is the default: reading it back sets the field in both
cases, as long as setting the default changes nothing. -/
theorem foldAll_implicit {α : Type*} (ht : S.known t = true) (set : M → α → M) {isDefault : Prop}
    [Decidable isDefault] {v : α}
    (hdec : (S.decode t m).run (payload ++ rest) = some (set m v, rest))
    (hdefault : isDefault → set m v = m) :
    foldAll S.field m ((if isDefault then [] else appendTag t ++ payload) ++ rest) =
      foldAll S.field (set m v) rest := by
  by_cases h : isDefault
  · rw [if_pos h, List.nil_append, hdefault h]
  · rw [if_neg h, S.foldAll_known ht hdec]

section ImplicitFields

variable {S} {t : Tag maxValidNumber} {m : M} {rest : List UInt8}

/-- An encoded varint field sets the field. -/
theorem foldAll_varintField (set : M → UInt64 → M) (v : UInt64) (ht : S.known t = true)
    (hdec : S.decode t m = consumeVarint.map (set m)) (hzero : set m 0 = m) :
    foldAll S.field m (varintField t v ++ rest) = foldAll S.field (set m v) rest := by
  refine S.foldAll_implicit ht set ?_ (fun h => by rw [h, hzero])
  rw [hdec, map_run_of_some (consumeVarint_append v rest)]

/-- An encoded bytes field sets the field. -/
theorem foldAll_bytesField (set : M → List UInt8 → M) {b : List UInt8} (hb : b.length < 2 ^ 64)
    (ht : S.known t = true) (hdec : S.decode t m = consumeBytes.map (set m)) (hnil : set m [] = m) :
    foldAll S.field m (bytesField t b ++ rest) = foldAll S.field (set m b) rest := by
  refine S.foldAll_implicit ht set ?_ (fun h => by rw [h, hnil])
  rw [hdec, map_run_of_some (consumeBytes_append hb rest)]

/-- An encoded string field sets the field. -/
theorem foldAll_stringField (set : M → String → M) {s : String}
    (hs : s.toUTF8.data.toList.length < 2 ^ 64) (ht : S.known t = true)
    (hdec : S.decode t m = consumeString.map (set m)) (hnil : set m "" = m) :
    foldAll S.field m (stringField t s ++ rest) = foldAll S.field (set m s) rest := by
  refine S.foldAll_implicit ht set ?_ (fun h => by rw [h, hnil])
  rw [hdec, map_run_of_some (consumeString_append hs rest)]

end ImplicitFields

end Schema

end Protowire
