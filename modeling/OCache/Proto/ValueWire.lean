import OCache.Proto.ValueMessage

/-!
# Reading single fields off the wire

The scans of the cleaner read one or two fields of every row. They walk over the encoding and keep
nothing but the field they want, so that the data of a row is never copied. They have to agree with
`proto.Unmarshal` about the field and about which rows are malformed.
-/

namespace OCache.ValueWire

open Protowire Reader ValueMessage

/-! ## The scans -/

def valueTypeField : Nat := 1

def valueDataField : Nat := 2

def valueExpiryField : Nat := 3

def valueRawPathField : Nat := 4

def valueSegPathField : Nat := 5

def valueLengthField : Nat := 7

def valueVersionField : Nat := 9

/-- What `valueMessageVarintField` does behind a tag. -/
def varintFieldPayload (want : Nat) (val : Int64) (t : Tag maxValidNumber) : Reader Int64 :=
  if t.num = want ∧ t.wtyp = .varint then consumeVarint.map UInt64.toInt64
  else if (t.num = valueRawPathField ∨ t.num = valueSegPathField) ∧ t.wtyp = .bytes then
    consumeString.map fun _ => val
  else (consumeFieldValue t).map fun _ => val

/-- The body of the loop of `valueMessageVarintField`. -/
def varintFieldStep (want : Nat) (val : Int64) : Reader Int64 :=
  (consumeTag maxValidNumber).bind (varintFieldPayload want val)

/-- The last value of a varint field, `none` if the message is malformed. -/
def valueMessageVarintField (buf : List UInt8) (want : Nat) : Option Int64 :=
  foldAll (varintFieldStep want) 0 buf

def valueMessageExpiry (buf : List UInt8) : Option Int64 :=
  valueMessageVarintField buf valueExpiryField

def valueMessageVersion (buf : List UInt8) : Option UInt64 :=
  (valueMessageVarintField buf valueVersionField).map Int64.toUInt64

/-- What a scan makes of the fields of a message. -/
structure Scan (σ : Type) where
  /-- Keep a varint field, `none` for a field that is stepped over. -/
  varint : Nat → Option (σ → UInt64 → σ)
  rawPath : σ → String → σ
  segPath : σ → String → σ

namespace Scan

variable {σ : Type} (S : Scan σ)

/-- What a scan does behind a tag. Both paths are checked for their encoding, also the one that is
not kept. -/
def payload (s : σ) (t : Tag maxValidNumber) : Reader σ :=
  match t.wtyp, S.varint t.num with
  | .varint, some keep => consumeVarint.map (keep s)
  | .bytes, _ =>
    if t.num = valueRawPathField then consumeString.map (S.rawPath s)
    else if t.num = valueSegPathField then consumeString.map (S.segPath s)
    else (consumeFieldValue t).map fun _ => s
  | _, _ => (consumeFieldValue t).map fun _ => s

/-- The loop of a scan. -/
def run (s : σ) (buf : List UInt8) : Option σ :=
  foldAll (fun s => (consumeTag maxValidNumber).bind (S.payload s)) s buf

end Scan

/-- The path of the segment and the length. -/
def valueMessageSegmentRef (buf : List UInt8) : Option (String × Int64) :=
  Scan.run {
    varint := fun num => if num = valueLengthField then some fun s v => (s.1, v.toInt64) else none
    rawPath := fun s _ => s
    segPath := fun s path => (path, s.2) } ("", 0) buf

/-- The length and the path of the raw file. -/
def valueMessageSizeAndRawPath (buf : List UInt8) : Option (Int64 × String) :=
  Scan.run {
    varint := fun num => if num = valueLengthField then some fun s v => (v.toInt64, s.2) else none
    rawPath := fun s path => (s.1, path)
    segPath := fun s _ => s } (0, "") buf

/-- `valueMessageCleanupFields` -/
structure CleanupFields where
  valueType : ValueType := .inline
  valueLength : Int64 := 0
  rawFilePath : String := ""
  segmentPath : String := ""

def decodeValueMessageCleanupFields (buf : List UInt8) : Option CleanupFields :=
  Scan.run {
    varint := fun num =>
      if num = valueTypeField then some fun f v => { f with valueType := .ofUInt32 v.toUInt32 }
      else if num = valueLengthField then some fun f v => { f with valueLength := v.toInt64 }
      else none
    rawPath := fun f path => { f with rawFilePath := path }
    segPath := fun f path => { f with segmentPath := path } } {} buf

/-- One field with its tag, added to what is kept unless it is the data. -/
def stripStep (stripped : List UInt8) : Reader (List UInt8) where
  run b :=
    match (consumeTag maxValidNumber).run b with
    | none => none
    | some (t, mid) =>
      match (consumeFieldValue t).run mid with
      | none => none
      | some ((), rest) =>
        some (if t.num = valueDataField then stripped
          else stripped ++ b.take (b.length - rest.length), rest)
  isLocal := by
    intro b a rest h
    split at h
    · simp at h
    · rename_i t mid htag
      split at h
      · simp at h
      · rename_i rest' hvalue
        simp only [Option.some.injEq, Prod.mk.injEq] at h
        obtain ⟨rfl, rfl⟩ := h
        obtain ⟨used₁, rfl, h₁⟩ := (consumeTag maxValidNumber).isLocal htag
        obtain ⟨used₂, rfl, h₂⟩ := (consumeFieldValue t).isLocal hvalue
        refine ⟨used₁ ++ used₂, by simp, fun rest'' => ?_⟩
        rw [List.append_assoc, h₁]
        simp [h₂, ← List.append_assoc]

/-- `unmarshalValueMessageSkippingData`: the rest of the message is decoded. -/
def unmarshalValueMessageSkippingData (buf : List UInt8) : Option ValueMessage :=
  (foldAll stripStep [] buf).bind unmarshal

/-! ## Agreement with the decoder -/

variable {t : Tag maxValidNumber}

/-- How the payload of a known field is read. -/
theorem decodeField_cases (ht : known t = true) (m : ValueMessage) :
    (t.wtyp = .varint ∧ ∃ set, decodeField t m = consumeVarint.map set) ∨
      (t.wtyp = .bytes ∧ t.num = valueDataField ∧ ∃ set, decodeField t m = consumeBytes.map set) ∨
      (t.wtyp = .bytes ∧ (t.num = valueRawPathField ∨ t.num = valueSegPathField) ∧
        ∃ set, decodeField t m = consumeString.map set) := by
  unfold known at ht
  split at ht
  · rename_i hw
    refine .inl ⟨hw, ?_⟩
    simp only [List.contains_eq_mem, List.mem_cons, List.not_mem_nil, or_false,
      decide_eq_true_eq] at ht
    rcases ht with h | h | h | h | h | h | h | h <;> (rw [decodeField, hw, h]; exact ⟨_, rfl⟩)
  · rename_i hw
    simp only [List.contains_eq_mem, List.mem_cons, List.not_mem_nil, or_false,
      decide_eq_true_eq] at ht
    rw [decodeField, hw]
    rcases ht with h | h | h <;> rw [h]
    · exact .inr (.inl ⟨rfl, rfl, _, rfl⟩)
    · exact .inr (.inr ⟨rfl, .inl rfl, _, rfl⟩)
    · exact .inr (.inr ⟨rfl, .inr rfl, _, rfl⟩)
  · simp at ht

/-- The varint fields of the message. -/
def varintSetter : Nat → Option (ValueMessage → UInt64 → ValueMessage)
  | 1 => some setValueType
  | 3 => some setExpiry
  | 6 => some setSegmentOffset
  | 7 => some setValueLength
  | 8 => some setChecksum
  | 9 => some setVersion
  | 10 => some setOpType
  | 11 => some setCasExpectedVersion
  | _ => none

section Decoder

variable {t : Tag maxValidNumber}

lemma decodeField_of_varintSetter (hw : t.wtyp = .varint)
    {set : ValueMessage → UInt64 → ValueMessage} (hset : varintSetter t.num = some set)
    (m : ValueMessage) : decodeField t m = consumeVarint.map (set m) := by
  unfold varintSetter at hset
  split at hset
  case h_9 => simp at hset
  all_goals
    rename_i hnum
    rw [decodeField, hw, hnum]
    cases hset
    rfl

lemma known_varint (hw : t.wtyp = .varint) : known t = (varintSetter t.num).isSome := by
  simp only [known, hw, varintSetter]
  split <;> simp_all

end Decoder

/-- The scan computes `get` of the message: a field that it keeps sets `get`, any other field leaves
`get` alone. -/
structure Scan.Reads {σ : Type} (S : Scan σ) (get : ValueMessage → σ) : Prop where
  varint : ∀ num set, varintSetter num = some set → ∀ m v,
    get (set m v) = match S.varint num with
      | some keep => keep (get m) v
      | none => get m
  known : ∀ num, (S.varint num).isSome → (varintSetter num).isSome
  data : ∀ m b, get (setData m b) = get m
  rawPath : ∀ m path, get (setRawFilePath m path) = S.rawPath (get m) path
  segPath : ∀ m path, get (setSegmentPath m path) = S.segPath (get m) path
  keep : ∀ m u, get (keepUnknown m u) = get m

namespace Scan

variable {σ : Type} {S : Scan σ} {get : ValueMessage → σ} {t : Tag maxValidNumber}

/-- Stepping over a payload agrees with decoding it into a field that the scan does not keep. -/
theorem agrees_step_over {α : Type*} {x : Reader α} {g : α → Unit} {set : α → ValueMessage} {s : σ}
    (hx : consumeFieldValue t = x.map g) (hget : ∀ a, get (set a) = s) :
    Agrees get (x.map set) ((consumeFieldValue t).map fun _ => s) := by
  intro b
  rw [hx]
  cases hb : x.run b with
  | none => simp [Reader.map, Reader.bind, hb]
  | some p => simp [map_run_of_some (map_run_of_some hb), map_run_of_some hb, hget]

lemma agrees_known (hS : S.Reads get) (ht : known t = true) (m : ValueMessage) :
    Agrees get (decodeField t m) (S.payload (get m) t) := by
  rcases decodeField_cases ht m with ⟨hw, -⟩ | ⟨hw, hnum, -⟩ | ⟨hw, hnum | hnum, -⟩
  · rw [known_varint hw, Option.isSome_iff_exists] at ht
    obtain ⟨set, hset⟩ := ht
    rw [decodeField_of_varintSetter hw hset, payload, hw]
    have hget := hS.varint t.num set hset m
    cases hkeep : S.varint t.num with
    | some keep =>
      rw [hkeep] at hget
      exact agrees_map hget
    | none =>
      rw [hkeep] at hget
      exact agrees_step_over (by rw [consumeFieldValue, hw]; rfl) hget
  · have hdecode : decodeField t m = consumeBytes.map m.setData := by rw [decodeField, hw, hnum]; rfl
    rw [hdecode, payload, hw]
    simp only [hnum, valueDataField, valueRawPathField, valueSegPathField, Nat.reduceEqDiff, if_false]
    exact agrees_step_over (by rw [consumeFieldValue, hw]; rfl) (hS.data m)
  · have hdecode : decodeField t m = consumeString.map m.setRawFilePath := by
      rw [decodeField, hw, hnum]; rfl
    rw [hdecode, payload, hw]
    simp only [hnum, if_true]
    exact agrees_map (hS.rawPath m)
  · have hdecode : decodeField t m = consumeString.map m.setSegmentPath := by
      rw [decodeField, hw, hnum]; rfl
    rw [hdecode, payload, hw]
    simp only [hnum, valueRawPathField, valueSegPathField, Nat.reduceEqDiff, if_false, if_true]
    exact agrees_map (hS.segPath m)

/-- A field that the decoder does not know is stepped over. -/
theorem payload_of_unknown (hS : S.Reads get) (ht : known t = false) (s : σ) :
    S.payload s t = (consumeFieldValue t).map fun _ => s := by
  unfold payload
  split
  · rename_i keep hw hkeep
    rw [known_varint hw] at ht
    have := hS.known t.num (by simp [hkeep])
    simp [ht] at this
  · rename_i hw
    have hnum : t.num ≠ valueRawPathField ∧ t.num ≠ valueSegPathField := by
      constructor <;> (rintro hnum; simp [known, hw, hnum, valueRawPathField, valueSegPathField] at ht)
    rw [if_neg hnum.1, if_neg hnum.2]
  · rfl

variable (get) in
/-- A scan reads what the decoder reads, and rejects what it rejects. -/
theorem run_eq (hS : S.Reads get) (buf : List UInt8) :
    S.run (get {}) buf = (unmarshal buf).map get := by
  refine foldAll_agrees (r := schema.field) (fun m => agrees_bind fun t => ?_) {} buf
  split
  · rename_i ht
    rw [payload_of_unknown hS ht]
    exact agrees_exactly fun raw => hS.keep m _
  · rename_i ht
    exact agrees_known hS (by simpa [schema] using ht) m

end Scan

/-- The only varint field that a scan keeps is one of the message. -/
theorem isSome_varintSetter {σ : Type} {want num : Nat} {keep : σ → UInt64 → σ}
    (hwant : (varintSetter want).isSome)
    (h : (if num = want then some keep else none : Option (σ → UInt64 → σ)).isSome) :
    (varintSetter num).isSome := by
  split at h
  · rename_i heq
    exact heq ▸ hwant
  · simp at h

/-- `valueMessageVarintField` as a scan. -/
def varintScan (want : Nat) : Scan Int64 where
  varint num := if num = want then some fun _ v => v.toInt64 else none
  rawPath s _ := s
  segPath s _ := s

lemma varintFieldPayload_eq (want : Nat) (val : Int64) (t : Tag maxValidNumber) :
    varintFieldPayload want val t = (varintScan want).payload val t := by
  unfold varintFieldPayload Scan.payload varintScan
  cases t.wtyp with
  | varint => by_cases hnum : t.num = want <;> simp [hnum]
  | bytes => by_cases hraw : t.num = valueRawPathField <;> simp [hraw]
  | fixed32 | fixed64 | startGroup | endGroup => simp

/-- The scan for a varint field reads what the decoder reads, and rejects what it rejects. -/
theorem valueMessageVarintField_eq {want : Nat} {get : ValueMessage → Int64}
    (h : (varintScan want).Reads get) (hzero : get {} = 0) (buf : List UInt8) :
    valueMessageVarintField buf want = (unmarshal buf).map get := by
  rw [← Scan.run_eq get h, hzero, valueMessageVarintField, Scan.run]
  congr 1
  funext val
  exact congrArg _ (funext (varintFieldPayload_eq want val))

lemma reads_expiry : (varintScan valueExpiryField).Reads expiry where
  varint _ _ hset _ _ := by unfold varintSetter at hset; split at hset <;> cases hset <;> rfl
  known _ := isSome_varintSetter rfl
  data _ _ := rfl
  rawPath _ _ := rfl
  segPath _ _ := rfl
  keep _ _ := rfl

lemma reads_valueLength : (varintScan valueLengthField).Reads valueLength where
  varint _ _ hset _ _ := by unfold varintSetter at hset; split at hset <;> cases hset <;> rfl
  known _ := isSome_varintSetter rfl
  data _ _ := rfl
  rawPath _ _ := rfl
  segPath _ _ := rfl
  keep _ _ := rfl

lemma reads_version : (varintScan valueVersionField).Reads fun m => m.version.toInt64 where
  varint _ _ hset _ _ := by unfold varintSetter at hset; split at hset <;> cases hset <;> rfl
  known _ := isSome_varintSetter rfl
  data _ _ := rfl
  rawPath _ _ := rfl
  segPath _ _ := rfl
  keep _ _ := rfl

lemma valueMessageExpiry_eq (buf : List UInt8) :
    valueMessageExpiry buf = (unmarshal buf).map expiry :=
  valueMessageVarintField_eq reads_expiry rfl buf

lemma valueMessageVersion_eq (buf : List UInt8) :
    valueMessageVersion buf = (unmarshal buf).map version := by
  rw [valueMessageVersion, valueMessageVarintField_eq reads_version rfl, Option.map_map]
  simp [Function.comp_def]

lemma valueMessageSegmentRef_eq (buf : List UInt8) :
    valueMessageSegmentRef buf = (unmarshal buf).map fun m => (m.segmentPath, m.valueLength) := by
  refine Scan.run_eq (fun m => (m.segmentPath, m.valueLength)) ⟨?_, fun _ => isSome_varintSetter rfl,
    fun _ _ => rfl, fun _ _ => rfl, fun _ _ => rfl, fun _ _ => rfl⟩ buf
  intro num set hset m v
  unfold varintSetter at hset
  split at hset <;> cases hset <;> rfl

lemma valueMessageSizeAndRawPath_eq (buf : List UInt8) :
    valueMessageSizeAndRawPath buf = (unmarshal buf).map fun m => (m.valueLength, m.rawFilePath) := by
  refine Scan.run_eq (fun m => (m.valueLength, m.rawFilePath)) ⟨?_, fun _ => isSome_varintSetter rfl,
    fun _ _ => rfl, fun _ _ => rfl, fun _ _ => rfl, fun _ _ => rfl⟩ buf
  intro num set hset m v
  unfold varintSetter at hset
  split at hset <;> cases hset <;> rfl

/-- The fields of a message that a cleanup needs. -/
def cleanupFields (m : ValueMessage) : CleanupFields where
  valueType := m.valueType
  valueLength := m.valueLength
  rawFilePath := m.rawFilePath
  segmentPath := m.segmentPath

lemma decodeValueMessageCleanupFields_eq (buf : List UInt8) :
    decodeValueMessageCleanupFields buf = (unmarshal buf).map cleanupFields := by
  refine Scan.run_eq cleanupFields
    ⟨?_, ?_, fun _ _ => rfl, fun _ _ => rfl, fun _ _ => rfl, fun _ _ => rfl⟩ buf
  · intro num set hset m v
    unfold varintSetter at hset
    split at hset <;> cases hset <;> rfl
  · intro num hnum
    obtain rfl | rfl : num = valueTypeField ∨ num = valueLengthField := by
      by_contra hne
      push Not at hne
      simp [hne] at hnum
    · rfl
    · rfl

/-! ## Decoding without the data -/

/-- The message without its data. A field with the number of the data and another wire type is
unknown to the decoder and is left out as well. -/
def dropData (m : ValueMessage) : ValueMessage :=
  { m with
    data := []
    unknownFields := m.unknownFields.filter (·.tag.num ≠ valueDataField) }

/-- What the decoder does behind a tag. -/
def fieldPayload (m : ValueMessage) (t : Tag maxValidNumber) : Reader ValueMessage :=
  if h : known t = false then
    (consumeFieldValue t).exactly.map fun ⟨raw, hraw⟩ => keepUnknown m ⟨t, raw, h, hraw⟩
  else decodeField t m

section Strip

variable {t : Tag maxValidNumber} {m m' : ValueMessage} {b used rest : List UInt8}

lemma field_run_of_tag (htag : (consumeTag maxValidNumber).run b = some (t, rest)) :
    (schema.field m).run b = (fieldPayload m t).run rest :=
  bind_run_of_some htag

/-- The decoder reads what the wire format delimits: it rejects a field that cannot be stepped over,
and otherwise consumes the same bytes, whatever stands behind them. -/
theorem fieldPayload_framed (hvalue : (consumeFieldValue t).run (used ++ rest) = some ((), rest)) :
    ∃ r : Option ValueMessage, ∀ rest', (fieldPayload m t).run (used ++ rest') =
      r.map fun m' => (m', rest') := by
  unfold fieldPayload
  split
  · rename_i ht
    have hraw := run_append_of_run hvalue []
    rw [List.append_nil] at hraw
    refine ⟨some (keepUnknown m ⟨t, used, ht, hraw⟩), fun rest' => ?_⟩
    exact map_run_of_some (exactly_run_append (consumeFieldValue t) ⟨used, hraw⟩ rest')
  · rename_i ht
    rcases decodeField_cases (by simpa using ht) m with
      ⟨hw, set, hset⟩ | ⟨hw, -, set, hset⟩ | ⟨hw, -, set, hset⟩
    · rw [consumeFieldValue, hw] at hvalue
      obtain ⟨v, hv, -⟩ := exists_of_map_run hvalue
      exact ⟨some (set v), fun rest' => hset ▸ map_run_of_some (run_append_of_run hv rest')⟩
    · rw [consumeFieldValue, hw] at hvalue
      obtain ⟨v, hv, -⟩ := exists_of_map_run hvalue
      exact ⟨some (set v), fun rest' => hset ▸ map_run_of_some (run_append_of_run hv rest')⟩
    · -- The bytes are read in any case, and are rejected if they are no text.
      rw [consumeFieldValue, hw] at hvalue
      obtain ⟨v, hv, -⟩ := exists_of_map_run hvalue
      refine ⟨(String.fromUTF8? ⟨v.toArray⟩).map set, fun rest' => ?_⟩
      have hstring : consumeString.run (used ++ rest') =
          (ofOption (String.fromUTF8? ⟨v.toArray⟩)).run rest' :=
        bind_run_of_some (run_append_of_run hv rest')
      rw [hset, Reader.map, Reader.bind]
      simp only [hstring]
      cases String.fromUTF8? ⟨v.toArray⟩ with
      | none | some text => rfl

/-- What the decoder accepts can be stepped over. -/
theorem consumeFieldValue_of_fieldPayload (h : (fieldPayload m t).run b = some (m', rest)) :
    (consumeFieldValue t).run b = some ((), rest) := by
  unfold fieldPayload at h
  split at h
  · obtain ⟨raw, hraw, -⟩ := exists_of_map_run h
    exact run_of_exactly_run hraw
  · rename_i ht
    rcases decodeField_cases (by simpa using ht) m with
      ⟨hw, set, hset⟩ | ⟨hw, -, set, hset⟩ | ⟨hw, -, set, hset⟩
    · rw [hset] at h
      obtain ⟨v, hv, -⟩ := exists_of_map_run h
      rw [consumeFieldValue, hw]
      exact map_run_of_some hv
    · rw [hset] at h
      obtain ⟨v, hv, -⟩ := exists_of_map_run h
      rw [consumeFieldValue, hw]
      exact map_run_of_some hv
    · rw [hset] at h
      obtain ⟨text, htext, -⟩ := exists_of_map_run h
      obtain ⟨v, mid, hv, hmid⟩ := exists_of_bind_run htext
      rw [consumeFieldValue, hw]
      cases hdecoded : String.fromUTF8? ⟨v.toArray⟩ with
      | none => simp [hdecoded] at hmid
      | some text' =>
        simp only [hdecoded, ofOption_some, pure_run, Option.some.injEq, Prod.mk.injEq] at hmid
        exact hmid.2 ▸ map_run_of_some hv

lemma dropData_of_data (hnum : t.num = valueDataField)
    (hvalue : (consumeFieldValue t).run b = some ((), rest)) :
    ∃ m', (fieldPayload m t).run b = some (m', rest) ∧ dropData m' = dropData m := by
  unfold fieldPayload
  split
  · rename_i ht
    obtain ⟨used, rfl, hlocal⟩ := (consumeFieldValue t).isLocal hvalue
    have hraw := hlocal []
    rw [List.append_nil] at hraw
    refine ⟨_, map_run_of_some (exactly_run_append (consumeFieldValue t) ⟨used, hraw⟩ rest), ?_⟩
    simp [dropData, keepUnknown, hnum]
  · rename_i ht
    rcases decodeField_cases (by simpa using ht) m with ⟨hw, -⟩ | ⟨hw, -⟩ | ⟨-, hpath, -⟩
    · simp [known, hw, hnum, valueDataField] at ht
    · have hdecode : decodeField t m = consumeBytes.map m.setData := by
        rw [decodeField, hw, hnum]; rfl
      rw [consumeFieldValue, hw] at hvalue
      obtain ⟨v, hv, -⟩ := exists_of_map_run hvalue
      exact ⟨m.setData v, hdecode ▸ map_run_of_some hv, rfl⟩
    · simp [hnum, valueDataField, valueRawPathField, valueSegPathField] at hpath

lemma agrees_dropData (hnum : t.num ≠ valueDataField) :
    Agrees dropData (fieldPayload m t) (fieldPayload (dropData m) t) := by
  unfold fieldPayload
  split
  · rename_i ht
    refine agrees_map fun raw => ?_
    simp [dropData, keepUnknown, hnum]
  · unfold decodeField
    split
    case h_2 hnum' => exact absurd hnum' hnum
    case h_12 =>
      intro b
      rfl
    all_goals exact agrees_map fun _ => rfl

lemma consumes_stripStep (stripped : List UInt8) : (stripStep stripped).Consumes := by
  intro b a rest h
  simp only [stripStep] at h
  split at h
  · simp at h
  · rename_i t mid htag
    split at h
    · simp at h
    · rename_i rest' hvalue
      simp only [Option.some.injEq, Prod.mk.injEq] at h
      obtain ⟨-, rfl⟩ := h
      exact (length_le_of_run hvalue).trans_lt (consumes_consumeTag _ _ _ _ htag)

variable {stripped : List UInt8}

/-- What is kept is only added to. -/
theorem isPrefix_of_foldAll_stripStep {out : List UInt8}
    (h : foldAll stripStep stripped b = some out) : stripped <+: out := by
  refine foldAll_invariant (r := stripStep) (I := (stripped <+: ·)) ?_ List.prefix_rfl h
  intro kept b kept' rest hkept hrun
  simp only [stripStep] at hrun
  split at hrun
  · simp at hrun
  · split at hrun
    · simp at hrun
    · simp only [Option.some.injEq, Prod.mk.injEq] at hrun
      rw [← hrun.1]
      split
      · exact hkept
      · exact hkept.trans (List.prefix_append _ _)

/-- A field that is kept, behind fields that decode: the kept bytes decode as the field does. -/
theorem foldAll_field_kept {used₁ used₂ : List UInt8} (hne : used₁ ≠ [])
    (h : foldAll schema.field {} stripped = some m)
    (htag : ∀ rest, (consumeTag maxValidNumber).run (used₁ ++ rest) = some (t, rest))
    {r : Option ValueMessage}
    (hr : ∀ rest, (fieldPayload m t).run (used₂ ++ rest) = r.map fun m' => (m', rest))
    (more : List UInt8) :
    foldAll schema.field {} (stripped ++ (used₁ ++ used₂) ++ more) =
      r.bind fun m' => foldAll schema.field m' more := by
  rw [List.append_assoc, foldAll_append schema.consumes_field h, List.append_assoc,
    foldAll_of_ne_nil schema.consumes_field _ (by simp [hne]), field_run_of_tag (htag _), hr]
  cases r with
  | none | some m' => rfl

/-- The kept bytes of the fields read so far decode to the message without its data. -/
theorem foldAll_stripStep (h : foldAll schema.field {} stripped = some (dropData m))
    (b : List UInt8) :
    (foldAll stripStep stripped b).bind unmarshal = (foldAll schema.field m b).map dropData := by
  induction hlen : b.length using Nat.strong_induction_on generalizing stripped m b with
  | _ n ih =>
    by_cases hnil : b = []
    · subst hnil
      exact h
    rw [foldAll_of_ne_nil consumes_stripStep _ hnil, foldAll_of_ne_nil schema.consumes_field _ hnil]
    cases htag : (consumeTag maxValidNumber).run b with
    | none => simp [stripStep, htag, Schema.field, Reader.bind]
    | some p =>
      obtain ⟨t, mid⟩ := p
      rw [field_run_of_tag htag]
      cases hvalue : (consumeFieldValue t).run mid with
      | none =>
        have hnone : (fieldPayload m t).run mid = none := by
          by_contra hsome
          obtain ⟨⟨m', rest⟩, hrun⟩ := Option.ne_none_iff_exists'.mp hsome
          rw [consumeFieldValue_of_fieldPayload hrun] at hvalue
          simp at hvalue
        simp [stripStep, htag, hvalue, hnone]
      | some p =>
        obtain ⟨⟨⟩, rest⟩ := p
        have hlt : rest.length < n :=
          hlen ▸ (length_le_of_run hvalue).trans_lt (consumes_consumeTag _ _ _ _ htag)
        by_cases hnum : t.num = valueDataField
        · -- The data: the decoder sets a field that does not matter.
          obtain ⟨m', hm', hdrop⟩ := dropData_of_data (m := m) hnum hvalue
          simp only [stripStep, htag, hvalue, if_pos hnum, hm', Option.bind_some]
          exact ih rest.length hlt (hdrop ▸ h) rest rfl
        · obtain ⟨used₁, rfl, htag'⟩ := (consumeTag maxValidNumber).isLocal htag
          obtain ⟨used₂, rfl, -⟩ := (consumeFieldValue t).isLocal hvalue
          have hne : used₁ ≠ [] := by
            rintro rfl
            exact absurd (consumes_consumeTag _ _ _ _ htag) (lt_irrefl _)
          obtain ⟨r, hr⟩ := fieldPayload_framed (m := m) hvalue
          have hkept := foldAll_field_kept hne h htag' fun rest => by
            rw [agrees_dropData hnum, hr, Option.map_map]
            exact (Option.map_map (fun m' => (m', rest)) dropData r).symm
          have htake : (used₁ ++ (used₂ ++ rest)).take
              ((used₁ ++ (used₂ ++ rest)).length - rest.length) = used₁ ++ used₂ := by
            rw [← List.append_assoc, List.length_append, Nat.add_sub_cancel, List.take_left]
          simp only [stripStep, htag, hvalue, if_neg hnum, htake, hr, Option.bind_some]
          cases r with
          | none =>
            -- A path that is no text stays in the kept bytes and is rejected there.
            rw [Option.map_none, Option.bind_none, Option.map_none, Option.bind_eq_none_iff]
            intro out hout
            obtain ⟨more, rfl⟩ := isPrefix_of_foldAll_stripStep hout
            exact hkept more
          | some m' =>
            refine ih rest.length hlt ?_ rest rfl
            have hdone := hkept []
            rwa [List.append_nil] at hdone

end Strip

/-- Without the data, a message decodes to the message without the data. -/
theorem unmarshalValueMessageSkippingData_eq (buf : List UInt8) :
    unmarshalValueMessageSkippingData buf = (unmarshal buf).map dropData :=
  foldAll_stripStep (by rfl) buf

end OCache.ValueWire
