import OCache.Lib.ByteSource
import OCache.Lib.SignedWord
import OCache.SegmentFile.Format
import OCache.Store.Calls

/-!
# What a put stores

`Put` and `PutIfVersion` read one byte more than fits into a row. If the reader has that many, the
value goes to a raw file: the bytes that were read, joined with the rest of the stream, are copied
there by the reader's own `WriteTo` or with a buffer. Otherwise what was read is the value.
`PutLocalWithOptions` rewinds a seekable reader before every attempt.

Readers may do anything after an error. Writes to files succeed. The database may refuse a row.
-/

namespace OCache.Values

open Merge Cas SignedWord

/-! ## Reading the body -/

/-- What `Seek` to the start of a reader does: it leaves the reader in one of some states, with its
whole content ahead. -/
structure SeekStart {ρ : Type*} (source : ByteSource ρ ReadError) where
  content : List UInt8
  ending : ReadError
  states : Set ρ
  rest_eq : ∀ s ∈ states, source.rest s = content
  ending_eq : ∀ s ∈ states, source.ending s = ending

/-- A reader that a caller hands over. `seeker` is there if it is an `io.Seeker`. `writeTo` is there
if it is an `io.WriterTo`: it writes all that is left, and reports the error at the end unless that
is `io.EOF`. -/
structure BodyReader (ρ : Type*) where
  source : ByteSource ρ ReadError
  seeker : Option (SeekStart source)
  writeTo : Option (ρ → List UInt8 × Option ReadError × ρ)
  writeTo_eq : ∀ f, writeTo = some f → ∀ s, ∃ s',
    f s = (source.rest s, if source.ending s = .eof then none else some (source.ending s), s')

variable {ρ : Type*} (R : BodyReader ρ) (threshold : Int64)

/-- `io.ReadFull`: what was read, and the error if the buffer is not full. -/
def readFull (n : Nat) (s : ρ) : List UInt8 × Option ReadError × ρ :=
  let r := R.source.fill n s
  let err :=
    if n ≤ r.bytes.length then none
    else if r.bytes ≠ [] ∧ r.err = some .eof then some .unexpectedEOF
    else r.err
  (r.bytes, err, r.state)

/-- The size of the buffer for the first read. -/
def firstReadSize : Nat :=
  if threshold + 1 ≤ 0 then 1 else (threshold + 1).toNatClampNeg

/-- The first read. A stream that ends within it is no error, by whichever of the two errors it
ends. -/
def readFirst (s : ρ) : Except ReadError (List UInt8) × ρ :=
  match readFull R (firstReadSize threshold) s with
  | (bytes, none, s) | (bytes, some .eof, s) | (bytes, some .unexpectedEOF, s) => (.ok bytes, s)
  | (_, some e, s) => (.error e, s)

/-- `io.CopyBuffer` from the joined reader of `joinPrefix`, to a file. -/
def copyRawFilePayload (bytes : List UInt8) (s : ρ) : Except ReadError (List UInt8) × ρ :=
  match R.writeTo with
  | some f =>
    -- `prefixWriterToReader.WriteTo`
    match f s with
    | (more, none, s) => (.ok (bytes ++ more), s)
    | (_, some e, s) => (.error e, s)
  | none =>
    let r := R.source.prefixed.drain (2 ^ 20) (bytes, s)
    match r.err with
    | some .eof | none => (.ok r.bytes, r.state.2)
    | some e => (.error e, r.state.2)

/-- A body that is stored: where its row says it is, and the content of the file. -/
structure Spilled where
  payload : Payload
  file : Option (List UInt8)

/-- Where the body goes after the first read. -/
def spill (path : String) (bytes : List UInt8) (s : ρ) : Except ReadError Spilled × ρ :=
  if threshold < Int64.ofNat bytes.length then
    match copyRawFilePayload R bytes s with
    | (.ok all, s) =>
      (.ok ⟨.rawFile path (Int64.ofNat all.length) (SegmentFile.crc32 all), some all⟩, s)
    | (.error e, s) => (.error e, s)
  else (.ok ⟨.inline bytes, none⟩, s)

/-! ## Calls -/

/-- Why a call failed. -/
inductive PutError where
  | io (e : ReadError)
  | overBudget
  | versionMismatch
  | internal
  /-- A database error that is worth another attempt. -/
  | temporary
  | timeout
  | seek
deriving DecidableEq

def PutError.isRetryable : PutError → Bool
  | .temporary | .timeout => true
  | _ => false

/-- What a call leaves: the row it has written, the raw file if it wrote one, and what it
returns. -/
structure Outcome where
  row : Option ValueMessage
  file : Option (String × List UInt8)
  returned : Except PutError Unit

/-- A call that ends before it writes a row. -/
def Outcome.failed (e : PutError) : Outcome := ⟨none, none, .error e⟩

/-- The outcome of a call whose body was stored. -/
@[simp] def Spilled.outcome (w : Spilled) (path : String) (row : Option ValueMessage)
    (returned : Except PutError Unit) : Outcome := ⟨row, w.file.map (path, ·), returned⟩

/-- What `Put` gets from outside: the name of the file if it needs one, the expiry it computes, and
the error of `putLow` if that fails. -/
structure Target where
  path : String
  expiry : Int64
  refused : Option PutError

/-- `Put` -/
def put (t : Target) (s : ρ) : Outcome × ρ :=
  match readFirst R threshold s with
  | (.error e, s) => (.failed (.io e), s)
  | (.ok bytes, s) =>
    match spill R threshold t.path bytes s with
    | (.error e, s) => (.failed (.io e), s)
    | (.ok w, s) =>
      match t.refused with
      | none => (w.outcome t.path (some (Store.putRow w.payload t.expiry)) (.ok ()), s)
      | some e => (w.outcome t.path none (.error e), s)

/-- What an attempt of `retry.DoWithKey` gets from outside. -/
structure Attempt (ρ : Type*) where
  target : Target
  /-- The reader after `Seek`; none if `Seek` fails. -/
  rewound : Option ρ
  /-- The context is done when the attempt starts. -/
  cancelled : Bool
  /-- The context is done while the next attempt is waited for. -/
  cancelledWaiting : Bool

/-- `MaxRetries` -/
def maxRetries : Nat := 5

/-- The loop of `retry.DoWithKey` around a rewind and a `Put`. -/
def retryPut : List (Attempt ρ) → Outcome → Outcome
  | [], last => last
  | a :: attempts, _ =>
    if a.cancelled then .failed .timeout
    else
      match a.rewound with
      | none => .failed .seek
      | some s =>
        let out := (put R threshold a.target s).1
        match out.returned with
        | .ok _ => out
        | .error e =>
          if !e.isRetryable ∨ attempts = [] then out
          else if a.cancelledWaiting then .failed .timeout
          else retryPut attempts out

/-- `PutLocalWithOptions` -/
def putLocalWithOptions (shed : Bool) (attempts : Nat → Attempt ρ) (s : ρ) : Outcome :=
  if shed then .failed .overBudget
  else
    match R.seeker with
    | none => (put R threshold (attempts 0).target s).1
    | some _ =>
      retryPut R threshold ((List.range (maxRetries + 1)).map attempts) (.failed .internal)

/-- What `PutIfVersion` gets from outside: rows and clock readings of its two checks, the row that
it merges into, its stamp, and which steps succeed. -/
structure CasTarget where
  path : String
  expiry : Int64
  expected : UInt64
  first : Int64 × Option ValueMessage
  second : Int64 × Option ValueMessage
  base : Option ValueMessage
  stamp : UInt64
  /-- Stamps are positive and not issued twice. -/
  stamp_fresh : stamp ≠ 0 ∧ ∀ r ∈ base, r.version ≠ stamp
  stampOk : Bool
  mergeOk : Bool
  readBackOk : Bool

/-- The check of `PutIfVersion` on a row it has read. -/
def CasTarget.admits (t : CasTarget) (read : Int64 × Option ValueMessage) : Bool :=
  casAdmits (casClassify read.1 read.2).1 (casClassify read.1 read.2).2 t.expected

/-- The operand that `PutIfVersion` merges. -/
def CasTarget.operand (t : CasTarget) (payload : Payload) : ValueMessage :=
  casPutOperand payload t.expiry t.stamp (carriedVersion t.second.1 t.second.2 t.expected)

/-- `PutIfVersion` -/
def putIfVersion (t : CasTarget) (s : ρ) : Outcome :=
  if t.admits t.first then
    match readFirst R threshold s with
    | (.error e, _) => .failed (.io e)
    | (.ok bytes, s) =>
      if t.stampOk then
        match spill R threshold t.path bytes s with
        | (.error e, _) => .failed (.io e)
        | (.ok w, _) =>
          if t.admits t.second then
            if t.mergeOk then
              let got := mergeRow t.base [t.operand w.payload]
              if t.readBackOk then
                if got.version = t.stamp then w.outcome t.path (some got) (.ok ())
                else w.outcome t.path (some got) (.error .versionMismatch)
              else w.outcome t.path (some got) (.error .temporary)
            else w.outcome t.path none (.error .temporary)
          else w.outcome t.path none (.error .versionMismatch)
      else .failed .internal
  else .failed .versionMismatch

/-- A call with a body, and all that happens around it. -/
inductive PutCall (ρ : Type*) where
  | put (t : Target)
  | putLocalWithOptions (shed : Bool) (attempts : Nat → Attempt ρ)
  | putIfVersion (t : CasTarget)

def PutCall.run : PutCall ρ → ρ → Outcome
  | .put t, s => (Values.put R threshold t s).1
  | .putLocalWithOptions shed attempts, s => Values.putLocalWithOptions R threshold shed attempts s
  | .putIfVersion t, s => Values.putIfVersion R threshold t s

/-- The functions with a body. -/
inductive Entry where
  | put
  | putLocalWithOptions
  | putIfVersion

/-- The calls of a function with a reader: `Seek` does what the reader's `Seek` can do. -/
inductive Calls (R : BodyReader ρ) : Entry → PutCall ρ → Prop
  | put (t : Target) : Calls R .put (.put t)
  | putLocalWithOptions (shed : Bool) (attempts : Nat → Attempt ρ)
      (hrewound : ∀ k, R.seeker = some k → ∀ n, ∀ s ∈ (attempts n).rewound, s ∈ k.states) :
      Calls R .putLocalWithOptions (.putLocalWithOptions shed attempts)
  | putIfVersion (t : CasTarget) : Calls R .putIfVersion (.putIfVersion t)

/-! ## The body -/

/-- The stored body is `bs`. -/
inductive Spilled.Holds (path : String) (bs : List UInt8) : Spilled → Prop
  | inline : Holds path bs ⟨.inline bs, none⟩
  | rawFile : Holds path bs
      ⟨.rawFile path (Int64.ofNat bs.length) (SegmentFile.crc32 bs), some bs⟩

variable {R threshold} {s : ρ}

/-- What the reader does for the first buffer. -/
def firstFill (R : BodyReader ρ) (threshold : Int64) (s : ρ) : ByteSource.Fill ρ ReadError :=
  R.source.fill (firstReadSize threshold) s

/-- A full buffer, and both errors that stand for the end of a stream, are taken for no error. -/
theorem readFirst_eq_ok
    (h : firstReadSize threshold ≤ (firstFill R threshold s).bytes.length ∨
      (firstFill R threshold s).err = some .eof ∨
        (firstFill R threshold s).err = some .unexpectedEOF) :
    readFirst R threshold s =
      (.ok (firstFill R threshold s).bytes, (firstFill R threshold s).state) := by
  unfold firstFill at *
  unfold readFirst readFull
  generalize R.source.fill (firstReadSize threshold) s = r at h ⊢
  dsimp only
  by_cases hfull : firstReadSize threshold ≤ r.bytes.length
  · simp [hfull]
  · rw [if_neg hfull]
    rcases h.resolve_left hfull with herr | herr
    · by_cases hbytes : r.bytes = []
      all_goals simp [hbytes, herr]
    · simp [herr]

/-- Any other error before the buffer is full is returned. -/
theorem readFirst_eq_error {code : Nat}
    (hlen : (firstFill R threshold s).bytes.length < firstReadSize threshold)
    (herr : (firstFill R threshold s).err = some (.other code)) :
    readFirst R threshold s = (.error (.other code), (firstFill R threshold s).state) := by
  unfold firstFill at *
  unfold readFirst readFull
  generalize R.source.fill (firstReadSize threshold) s = r at hlen herr ⊢
  simp [Nat.not_le.mpr hlen, herr]

/-- The copy has the bytes in front and all that the reader yields, if it ends in `io.EOF`. -/
theorem copyRawFilePayload_eq (bytes : List UInt8) (s : ρ) :
    ∃ s', copyRawFilePayload R bytes s =
      (if R.source.ending s = .eof then .ok (bytes ++ R.source.rest s) else .error (R.source.ending s),
        s') := by
  unfold copyRawFilePayload
  -- `io.Copy` uses `WriteTo` if the reader has it.
  cases hwriteTo : R.writeTo with
  | some f =>
    obtain ⟨s', hf⟩ := R.writeTo_eq f hwriteTo s
    simp only [hf]
    by_cases hend : R.source.ending s = .eof <;> exact ⟨s', by simp [hend]⟩
  | none =>
    obtain ⟨hbytes, herr⟩ :=
      ByteSource.drain_eq (S := R.source.prefixed) (n := 2 ^ 20) (by decide) (bytes, s)
    have hending : R.source.prefixed.ending (bytes, s) = R.source.ending s := rfl
    simp only [herr, hending]
    cases hend : R.source.ending s with
    | eof => exact ⟨_, by simp only [hbytes, if_true]; rfl⟩
    | unexpectedEOF | other code => exact ⟨_, rfl⟩

/-- What is stored after the first read: all, if more was expected and it ends in `io.EOF`. -/
def finish (R : BodyReader ρ) (threshold : Int64) (bytes : List UInt8) (s : ρ) :
    Option (List UInt8) :=
  if threshold.toInt < bytes.length then
    if R.source.ending s = .eof then some (bytes ++ R.source.rest s) else none
  else some bytes

/-- What is taken for the whole body. -/
def taken (R : BodyReader ρ) (threshold : Int64) (s : ρ) : Option (List UInt8) :=
  if firstReadSize threshold ≤ (firstFill R threshold s).bytes.length ∨
      (firstFill R threshold s).err = some .eof ∨
        (firstFill R threshold s).err = some .unexpectedEOF then
    finish R threshold (firstFill R threshold s).bytes (firstFill R threshold s).state
  else none

/-- Nothing but `bs` is taken for the body, and only if the body ends in `io.EOF`. -/
def TakesOnly (R : BodyReader ρ) (threshold : Int64) (s : ρ) (bs : List UInt8) (ending : ReadError) :
    Prop :=
  ∀ v, taken R threshold s = some v → v = bs ∧ ending = .eof

/-- `spill` stores what `finish` says. -/
theorem spill_eq (path : String) (bytes : List UInt8) (s : ρ) (hlen : bytes.length < 2 ^ 63) :
    (∃ v w s', finish R threshold bytes s = some v ∧
        spill R threshold path bytes s = (.ok w, s') ∧ w.Holds path v) ∨
      ∃ e s', finish R threshold bytes s = none ∧
        spill R threshold path bytes s = (.error e, s') := by
  obtain ⟨s', hcopy⟩ := copyRawFilePayload_eq (R := R) bytes s
  have hlarge : threshold < Int64.ofNat bytes.length ↔ threshold.toInt < bytes.length := by
    rw [Int64.lt_iff_toInt_lt, toInt_ofNat hlen]
  unfold spill finish
  simp only [hlarge, hcopy]
  split
  · split
    · exact .inl ⟨_, _, _, rfl, rfl, .rawFile⟩
    · exact .inr ⟨_, _, rfl, rfl⟩
  · exact .inl ⟨_, _, _, rfl, rfl, .inline⟩

/-- How the body is read: a value is stored, or an error is found. -/
inductive ReadsBody (R : BodyReader ρ) (threshold : Int64) (path : String) (s : ρ) :
    Option (List UInt8) → Prop
  | stored {bytes v : List UInt8} {s₁ s₂ : ρ} {w : Spilled}
      (hfirst : readFirst R threshold s = (.ok bytes, s₁))
      (hspill : spill R threshold path bytes s₁ = (.ok w, s₂)) (hholds : w.Holds path v) :
      ReadsBody R threshold path s (some v)
  | failedFirst {e : ReadError} {s₁ : ρ} (hfirst : readFirst R threshold s = (.error e, s₁)) :
      ReadsBody R threshold path s none
  | failedSpill {bytes : List UInt8} {s₁ s₂ : ρ} {e : ReadError}
      (hfirst : readFirst R threshold s = (.ok bytes, s₁))
      (hspill : spill R threshold path bytes s₁ = (.error e, s₂)) :
      ReadsBody R threshold path s none

/-- The first buffer, by `ByteSource.fill_spec`. -/
theorem firstFill_spec (R : BodyReader ρ) (threshold : Int64) (s : ρ) :
    ByteSource.Fills R.source (firstReadSize threshold) s (firstFill R threshold s) :=
  R.source.fill_spec _ s

/-- The size of the first buffer is one more than the threshold, and at least one. One more than the
largest integer wraps. -/
theorem firstReadSize_eq (threshold : Int64) :
    (threshold = Int64.maxValue ∧ firstReadSize threshold = 1) ∨
      threshold.toInt < 2 ^ 63 - 1 ∧
        (firstReadSize threshold : Int) = max 1 (threshold.toInt + 1) := by
  by_cases hmax : threshold = Int64.maxValue
  · exact .inl ⟨hmax, by rw [hmax]; decide⟩
  · have hlt : threshold.toInt < 2 ^ 63 - 1 := by
      have := Int64.lt_iff_toInt_lt.mp
        ((Int64.lt_or_eq_of_le (Int64.le_maxValue threshold)).resolve_right hmax)
      rwa [Int64.toInt_maxValue] at this
    have hnext : (threshold + 1).toInt = threshold.toInt + 1 :=
      toInt_add (by rw [Int64.toInt_one]; have := Int64.le_toInt threshold; omega)
        (by rw [Int64.toInt_one]; omega)
    refine .inr ⟨hlt, ?_⟩
    unfold firstReadSize
    split
    · rename_i hle
      rw [Int64.le_iff_toInt_le, hnext, Int64.toInt_zero] at hle
      omega
    · rename_i hnle
      rw [Int64.le_iff_toInt_le, hnext, Int64.toInt_zero] at hnle
      rw [Int64.toNatClampNeg, hnext]
      omega

lemma ne_maxValue_of_lt (h : threshold.toInt < 2 ^ 63 - 1) : threshold ≠ Int64.maxValue := by
  rintro rfl
  rw [Int64.toInt_maxValue] at h
  omega

/-- The code stores what is taken for the whole body, for every reader. -/
theorem readsBody (R : BodyReader ρ) (threshold : Int64) (path : String) (s : ρ) :
    ReadsBody R threshold path s (taken R threshold s) := by
  have hfill := firstFill_spec R threshold s
  have hlen : (firstFill R threshold s).bytes.length ≤ firstReadSize threshold := by
    rw [hfill.bytes]
    exact List.length_take_le _ _
  unfold taken
  split
  · rename_i hok
    have hfirst := readFirst_eq_ok hok
    have hlt : (firstFill R threshold s).bytes.length < 2 ^ 63 := by
      rcases firstReadSize_eq threshold with ⟨-, hsize⟩ | ⟨hmax, hsize⟩ <;> omega
    rcases spill_eq path _ (firstFill R threshold s).state hlt with
      ⟨v, w, s', hfinish, hspill, hholds⟩ | ⟨e, s', hfinish, hspill⟩
    · rw [hfinish]
      exact .stored hfirst hspill hholds
    · rw [hfinish]
      exact .failedSpill hfirst hspill
  · rename_i hnot
    rw [not_or, not_or] at hnot
    obtain ⟨hshort, heof, hunexpected⟩ := hnot
    -- The buffer is not full, so there was an error.
    cases herr : (firstFill R threshold s).err with
    | none =>
      have := (hfill.more herr).1
      rw [hfill.bytes, List.length_take_of_le this] at hshort
      omega
    | some e =>
      cases e with
      | eof => exact absurd herr heof
      | unexpectedEOF => exact absurd herr hunexpected
      | other code => exact .failedFirst (readFirst_eq_error (by omega) herr)

/-! ## Readers whose streams are stored -/

variable {e : ReadError} {bs : List UInt8}

/-- The part of a body that is read: one byte with the largest threshold. -/
def kept (threshold : Int64) (bs : List UInt8) : List UInt8 :=
  if threshold = Int64.maxValue then bs.take 1 else bs

/-- A reader in a state in which the calls store `bs` or nothing. -/
structure Faithful (R : BodyReader ρ) (threshold : Int64) (s : ρ) (bs : List UInt8) : Prop where
  /-- An error that is not seen, because it comes with the byte that fills the first buffer or
  because it stands for a short stream. Either the code reads on, and then finds an error too or was
  right to take this one for the end, or this is the end. -/
  dropped : ∀ e, (firstFill R threshold s).err = some e →
    (firstReadSize threshold ≤ (firstFill R threshold s).bytes.length ∨
      e = .eof ∨ e = .unexpectedEOF) →
    if threshold.toInt < (firstFill R threshold s).bytes.length then
      R.source.ending (firstFill R threshold s).state = .eof →
        e = .eof ∧ R.source.rest (firstFill R threshold s).state = []
    else e = .eof
  /-- With the largest threshold no more than one byte is read. -/
  oneByte : threshold = Int64.maxValue → R.source.rest s ≠ [] → R.source.ending s = .eof
  /-- A body that is stored is the one that was handed over. -/
  handed : R.source.ending s = .eof →
    ((firstFill R threshold s).err ≠ none →
      threshold.toInt < (firstFill R threshold s).bytes.length →
        R.source.ending (firstFill R threshold s).state = .eof) →
    kept threshold (R.source.rest s) = bs

/-- With the error still ahead, the rest of the stream is copied. With the largest threshold it is
lost. -/
theorem faithful_iff_of_none (herr : (firstFill R threshold s).err = none) :
    Faithful R threshold s bs ↔ TakesOnly R threshold s bs (R.source.ending s) := by
  have hfill := firstFill_spec R threshold s
  obtain ⟨hlen, hrest, hending⟩ := hfill.more herr
  have hbytes : (firstFill R threshold s).bytes.length = firstReadSize threshold := by
    rw [hfill.bytes, List.length_take_of_le hlen]
  have htaken : taken R threshold s = finish R threshold
      (firstFill R threshold s).bytes (firstFill R threshold s).state :=
    if_pos (.inl hbytes.ge)
  rcases firstReadSize_eq threshold with ⟨hmax, hone⟩ | ⟨hlt, hnext⟩
  · have hfinish : taken R threshold s = some ((R.source.rest s).take 1) := by
      rw [htaken, finish, if_neg, hfill.bytes, hone]
      rw [hbytes, hone, hmax]
      decide
    have hne : R.source.rest s ≠ [] := by
      rw [← List.length_pos_iff]
      omega
    rw [TakesOnly, hfinish]
    constructor
    · rintro ⟨-, honeByte, hhanded⟩ v hv
      have hend := honeByte hmax hne
      have hkept := hhanded hend (by simp [herr])
      rw [kept, if_pos hmax] at hkept
      exact ⟨(Option.some.inj hv).symm.trans hkept, hend⟩
    · intro h
      obtain ⟨hv, hend⟩ := h _ rfl
      exact ⟨by simp [herr], fun _ _ => hend, fun _ _ => by rw [kept, if_pos hmax, hv]⟩
  · have hnotmax := ne_maxValue_of_lt hlt
    have hfinish : taken R threshold s =
        if R.source.ending s = .eof then some (R.source.rest s) else none := by
      rw [htaken, finish, if_pos (by omega), hending, hrest, hfill.bytes, List.take_append_drop]
    rw [TakesOnly, hfinish]
    constructor
    · rintro ⟨-, -, hhanded⟩ v hv
      split at hv
      · rename_i hend
        have hkept := hhanded hend (by simp [herr])
        rw [kept, if_neg hnotmax] at hkept
        exact ⟨(Option.some.inj hv).symm.trans hkept, hend⟩
      · simp at hv
    · intro h
      refine ⟨by simp [herr], fun hmax => absurd hmax hnotmax, fun hend _ => ?_⟩
      rw [if_pos hend] at h
      rw [kept, if_neg hnotmax]
      exact (h _ rfl).1

/-- An error within the first buffer comes with the last byte of the stream. -/
theorem faithful_iff_of_some (hsuffix : bs <:+ R.source.rest s)
    (herr : (firstFill R threshold s).err = some e) :
    Faithful R threshold s bs ↔ TakesOnly R threshold s bs (R.source.ending s) := by
  have hfill := firstFill_spec R threshold s
  obtain ⟨rfl, hlen⟩ := hfill.ended e herr
  have hbytes : (firstFill R threshold s).bytes = R.source.rest s := by
    rw [hfill.bytes, List.take_of_length_le hlen]
  -- No more than one byte is read with the largest threshold, and here that is everything.
  have hkept : kept threshold (R.source.rest s) = R.source.rest s := by
    unfold kept
    split
    · rename_i hmax
      rcases firstReadSize_eq threshold with ⟨-, hone⟩ | ⟨hlt, -⟩
      · exact List.take_of_length_le (hone ▸ hlen)
      · exact absurd hmax (ne_maxValue_of_lt hlt)
    · rfl
  by_cases hdropped : firstReadSize threshold ≤ (R.source.rest s).length ∨
      R.source.ending s = .eof ∨ R.source.ending s = .unexpectedEOF
  · have htaken : taken R threshold s = finish R threshold (R.source.rest s)
        (firstFill R threshold s).state := by
      unfold taken
      rw [hbytes, herr, if_pos (by simpa using hdropped)]
    rw [TakesOnly, htaken, finish]
    by_cases hlarge : threshold.toInt < (R.source.rest s).length
    · -- The code reads on.
      have hnotmax : threshold ≠ Int64.maxValue := by
        rintro rfl
        rw [Int64.toInt_maxValue] at hlarge
        rw [show firstReadSize Int64.maxValue = 1 by decide] at hlen
        omega
      rw [if_pos hlarge]
      constructor
      · rintro ⟨hdrop, -, hhanded⟩ v hv
        split at hv
        · rename_i hend
          have hdrop := hdrop _ herr (by rwa [hbytes])
          rw [hbytes, if_pos hlarge] at hdrop
          obtain ⟨heof, hnil⟩ := hdrop hend
          have hv := Option.some.inj hv
          rw [hnil, List.append_nil] at hv
          exact ⟨hv.symm.trans (hkept.symm.trans (hhanded heof fun _ _ => hend)), heof⟩
        · simp at hv
      · intro h
        -- What is stored is not longer than the part of the body that was handed over.
        have hall : R.source.ending (firstFill R threshold s).state = .eof →
            (R.source.ending s = .eof ∧ R.source.rest (firstFill R threshold s).state = []) ∧
              R.source.rest s = bs := by
          intro hend
          rw [if_pos hend] at h
          obtain ⟨hv, heof⟩ := h _ rfl
          have hle := hsuffix.length_le
          rw [← hv, List.length_append] at hle
          have hnil := List.length_eq_zero_iff.mp (by omega :
            (R.source.rest (firstFill R threshold s).state).length = 0)
          rw [hnil, List.append_nil] at hv
          exact ⟨⟨heof, hnil⟩, hv⟩
        refine ⟨fun e he _ => ?_, fun hmax => absurd hmax hnotmax, fun hend hon => ?_⟩
        · obtain rfl := Option.some.inj (herr.symm.trans he)
          rw [hbytes, if_pos hlarge]
          exact fun hend => (hall hend).1
        · rw [hkept]
          exact (hall (hon (by simp [herr]) (by rwa [hbytes]))).2
    · -- What was read is the body.
      rw [if_neg hlarge]
      constructor
      · rintro ⟨hdrop, -, hhanded⟩ v hv
        have heof := hdrop _ herr (by rwa [hbytes])
        rw [hbytes, if_neg hlarge] at heof
        have hbs := hhanded heof fun _ hlarge' => absurd (hbytes ▸ hlarge') hlarge
        exact ⟨(Option.some.inj hv).symm.trans (hkept.symm.trans hbs), heof⟩
      · intro h
        obtain ⟨hv, heof⟩ := h _ rfl
        refine ⟨fun e he _ => ?_, fun _ _ => heof, fun _ _ => hkept.trans hv⟩
        obtain rfl := Option.some.inj (herr.symm.trans he)
        rwa [hbytes, if_neg hlarge]
  · -- The error is returned.
    have htaken : taken R threshold s = none := by
      unfold taken
      rw [hbytes, herr, if_neg (by simpa using hdropped)]
    rw [not_or, not_or] at hdropped
    refine ⟨fun _ v hv => by simp [htaken] at hv, fun _ => ⟨fun e he hor => ?_, fun hmax hne => ?_, ?_⟩⟩
    · obtain rfl := Option.some.inj (herr.symm.trans he)
      rw [hbytes] at hor
      exact absurd hor (by tauto)
    · have hpos := List.length_pos_iff.mpr hne
      rw [hmax, show firstReadSize Int64.maxValue = 1 by decide] at hdropped
      omega
    · exact fun heof => absurd heof hdropped.2.1

/-- The readers are those from which nothing else is taken. `bs` is a part of the body at its
end. -/
theorem faithful_iff (hsuffix : bs <:+ R.source.rest s) :
    Faithful R threshold s bs ↔ TakesOnly R threshold s bs (R.source.ending s) := by
  cases herr : (firstFill R threshold s).err with
  | none => exact faithful_iff_of_none herr
  | some e => exact faithful_iff_of_some hsuffix herr

/-! ## The rows -/

/-- The row of the outcome holds `bs`. -/
def Outcome.Stores (o : Outcome) (bs : List UInt8) : Prop :=
  ∃ row, o.row = some row ∧ row.valueLength = Int64.ofNat bs.length ∧
    (row.valueType = .inline ∧ row.data = bs ∨
      row.valueType = .rawFile ∧ o.file = some (row.rawFilePath, bs) ∧
        row.checksum = SegmentFile.crc32 bs)

/-- A call that succeeds has stored the stream, which ended in `io.EOF`; with any other end no row
is written. -/
structure Outcome.Exact (o : Outcome) (ending : ReadError) (bs : List UInt8) : Prop where
  stores : o.returned = .ok () → o.Stores bs ∧ ending = .eof
  noRow : ending ≠ .eof → o.row = none

variable {o : Outcome} {path : String} {w : Spilled}

/-- A call that fails without a row is right about every stream. -/
theorem Outcome.Exact.of_noRow (hrow : o.row = none) (hreturned : o.returned ≠ .ok ())
    (ending : ReadError) (bs : List UInt8) : o.Exact ending bs :=
  ⟨fun hok => absurd hok hreturned, fun _ => hrow⟩

lemma Outcome.Exact.failed (e : PutError) (ending : ReadError) (bs : List UInt8) :
    (Outcome.failed e).Exact ending bs :=
  of_noRow rfl (by simp [Outcome.failed]) ending bs

/-- The row of `Put` holds the stored body. -/
theorem Spilled.Holds.stores_putRow (h : w.Holds path bs) (expiry : Int64)
    (returned : Except PutError Unit) :
    (w.outcome path (some (Store.putRow w.payload expiry)) returned).Stores bs := by
  cases h with
  | inline => exact ⟨_, rfl, rfl, .inl ⟨rfl, rfl⟩⟩
  | rawFile => exact ⟨_, rfl, rfl, .inr ⟨rfl, rfl, rfl⟩⟩

/-- The row of `PutIfVersion` holds the stored body. -/
theorem Spilled.Holds.stores_casPut (h : w.Holds path bs) (expiry : Int64) (stamp expected : UInt64)
    (returned : Except PutError Unit) :
    (w.outcome path (some (casResult (casPutOperand w.payload expiry stamp expected))) returned).Stores
      bs := by
  cases h with
  | inline => exact ⟨_, rfl, rfl, .inl ⟨rfl, rfl⟩⟩
  | rawFile => exact ⟨_, rfl, rfl, .inr ⟨rfl, rfl, rfl⟩⟩

/-- The outcome of a call stores at most one body. -/
theorem Outcome.Stores.unique {bs bs' : List UInt8} (h : o.Stores bs) (h' : o.Stores bs') :
    bs = bs' := by
  obtain ⟨row, hrow, -, hbs⟩ := h
  obtain ⟨row', hrow', -, hbs'⟩ := h'
  obtain rfl := Option.some.inj (hrow.symm.trans hrow')
  rcases hbs with ⟨htype, hdata⟩ | ⟨htype, hfile, -⟩
  · rcases hbs' with ⟨-, hdata'⟩ | ⟨htype', -, -⟩
    · exact hdata.symm.trans hdata'
    · simp [htype] at htype'
  · rcases hbs' with ⟨htype', -⟩ | ⟨-, hfile', -⟩
    · simp [htype] at htype'
    · exact (Prod.mk.inj (Option.some.inj (hfile.symm.trans hfile'))).2

/-- `Put` is right about the stream if nothing else is taken for it. -/
theorem exact_put (t : Target) (h : TakesOnly R threshold s bs e) :
    (put R threshold t s).1.Exact e bs := by
  have hbody := readsBody R threshold t.path s
  unfold put
  unfold TakesOnly at h
  generalize taken R threshold s = v at h hbody
  cases hbody with
  | failedFirst hfirst =>
    rw [hfirst]
    exact .failed _ _ _
  | failedSpill hfirst hspill =>
    simp only [hfirst, hspill]
    exact .failed _ _ _
  | stored hfirst hspill hholds =>
    obtain ⟨rfl, hend⟩ := h _ rfl
    simp only [hfirst, hspill]
    cases t.refused with
    | none => exact ⟨fun _ => ⟨hholds.stores_putRow _ _, hend⟩, fun hne => absurd hend hne⟩
    | some e => exact .of_noRow rfl (by simp) _ _

/-- A `Put` that the database does not refuse stores what is taken for the stream. -/
theorem taken_of_exact_put {t : Target} (ht : t.refused = none)
    (h : (put R threshold t s).1.Exact e bs) : TakesOnly R threshold s bs e := by
  have hbody := readsBody R threshold t.path s
  unfold put at h
  intro v hv
  rw [hv] at hbody
  cases hbody with
  | stored hfirst hspill hholds =>
    simp only [hfirst, hspill, ht] at h
    obtain ⟨hstores, hend⟩ := h.stores rfl
    exact ⟨(hholds.stores_putRow _ _).unique hstores, hend⟩

/-- A row that carries the stamp of the operand is the row that the operand leaves. -/
theorem mergeRow_of_stamp (t : CasTarget) (payload : Payload)
    (h : (mergeRow t.base [t.operand payload]).version = t.stamp) :
    mergeRow t.base [t.operand payload] = casResult (t.operand payload) := by
  have hcas : isCas (t.operand payload) = true := by simp [isCas, CasTarget.operand]
  rw [mergeRow_cas hcas] at h ⊢
  split
  · rfl
  · rename_i hnot
    rw [if_neg hnot] at h
    -- The row was there before, and nothing carries the stamp yet.
    cases hbase : baseOf t.base with
    | none =>
      rw [hbase] at h
      exact absurd h.symm t.stamp_fresh.1
    | some r =>
      rw [hbase] at h
      exact absurd h (t.stamp_fresh.2 r (eq_some_of_baseOf hbase))

/-- `PutIfVersion` is right about the stream if nothing else is taken for it. -/
theorem exact_putIfVersion (t : CasTarget) (h : TakesOnly R threshold s bs e) :
    (putIfVersion R threshold t s).Exact e bs := by
  have hbody := readsBody R threshold t.path s
  unfold putIfVersion
  unfold TakesOnly at h
  generalize taken R threshold s = v at h hbody
  split
  · cases hbody with
    | failedFirst hfirst =>
      rw [hfirst]
      exact .failed _ _ _
    | failedSpill hfirst hspill =>
      simp only [hfirst, hspill]
      split <;> exact .failed _ _ _
    | stored hfirst hspill hholds =>
      obtain ⟨rfl, hend⟩ := h _ rfl
      simp only [hfirst, hspill]
      refine ⟨?_, fun hne => absurd hend hne⟩
      split
      · split
        · split
          · split
            · split
              · -- The only way to succeed: the stamp was read back.
                rename_i hstamp
                rw [mergeRow_of_stamp t _ hstamp]
                exact fun _ => ⟨hholds.stores_casPut _ _ _ _, hend⟩
              · simp
            · simp
          · simp
        · simp
      · simp [Outcome.failed]
  · exact .failed _ _ _

/-- A put whose row is written. -/
def target : Target := ⟨"f", 0, none⟩

/-- A `PutIfVersion` of a key without a row, undisturbed. -/
def firstCas : CasTarget where
  path := "f"
  expiry := 0
  expected := 0
  first := (0, none)
  second := (0, none)
  base := none
  stamp := 1
  stamp_fresh := ⟨by decide, by simp⟩
  stampOk := true
  mergeOk := true
  readBackOk := true

/-- It stores what is taken for the stream. -/
theorem taken_of_exact_putIfVersion (h : (putIfVersion R threshold firstCas s).Exact e bs) :
    TakesOnly R threshold s bs e := by
  have hbody := readsBody R threshold firstCas.path s
  intro v hv
  rw [hv] at hbody
  cases hbody with
  | @stored _ _ _ _ w hfirst hspill hholds =>
    have hmerged : mergeRow firstCas.base [firstCas.operand w.payload] = casResult (firstCas.operand w.payload) := by
      have hcas : isCas (firstCas.operand w.payload) = true := by simp [isCas, CasTarget.operand]
      rw [mergeRow_cas hcas, if_pos (by simp [applies, baseOf, CasTarget.operand, firstCas])]
    have hversion : (casResult (firstCas.operand w.payload)).version = firstCas.stamp := by
      simp [CasTarget.operand]
    have hrun : putIfVersion R threshold firstCas s =
        w.outcome "f" (some (casResult (firstCas.operand w.payload))) (.ok ()) := by
      simp only [putIfVersion, show firstCas.admits firstCas.first = true by decide,
        show firstCas.admits firstCas.second = true by decide, show firstCas.stampOk = true from rfl,
        show firstCas.mergeOk = true from rfl, show firstCas.readBackOk = true from rfl, hfirst, hspill,
        hmerged, hversion, if_true]
      rfl
    rw [hrun] at h
    obtain ⟨hstores, hend⟩ := h.stores rfl
    exact ⟨(hholds.stores_casPut _ _ _ _).unique hstores, hend⟩

/-- Every attempt of the loop is a `Put` from one of the states after `Seek`. -/
theorem exact_retryPut (attempts : List (Attempt ρ))
    (h : ∀ a ∈ attempts, ∀ s ∈ a.rewound, TakesOnly R threshold s bs e) {last : Outcome}
    (hlast : last.Exact e bs) : (retryPut R threshold attempts last).Exact e bs := by
  induction attempts generalizing last with
  | nil => exact hlast
  | cons a attempts ih =>
    unfold retryPut
    split
    · exact .failed _ _ _
    · split
      · exact .failed _ _ _
      · rename_i s hs
        have hput := exact_put a.target (h a List.mem_cons_self s (by simp [hs]))
        dsimp only
        split
        · exact hput
        · split
          · exact hput
          · split
            · exact .failed _ _ _
            · exact ih (fun b hb => h b (List.mem_cons_of_mem a hb)) hput

/-- A first attempt that the database does not refuse is the last. -/
theorem retryPut_target (s : ρ) (attempts : List (Attempt ρ)) (last : Outcome) :
    retryPut R threshold (⟨target, some s, false, false⟩ :: attempts) last =
      (put R threshold target s).1 := by
  have hreturned : (put R threshold target s).1.returned = .ok () ∨
      ∃ e, (put R threshold target s).1.returned = .error (.io e) := by
    have hbody := readsBody R threshold target.path s
    unfold put
    generalize taken R threshold s = v at hbody
    cases hbody with
    | failedFirst hfirst => exact .inr ⟨_, by rw [hfirst]; rfl⟩
    | failedSpill hfirst hspill => exact .inr ⟨_, by rw [hfirst]; simp only [hspill]; rfl⟩
    | stored hfirst hspill _ => exact .inl (by rw [hfirst]; simp only [hspill]; rfl)
  rw [retryPut]
  rcases hreturned with hok | ⟨e, hio⟩
  · simp [hok]
  · simp [hio, PutError.isRetryable]

/-! ## The calls -/

/-- The states from which a function reads the body. -/
def BodyReader.readFrom (R : BodyReader ρ) (s : ρ) : Entry → Set ρ
  | .putLocalWithOptions => (R.seeker.map (·.states)).getD {s}
  | _ => {s}

/-- A seekable reader is at some position of its content. -/
def BodyReader.Handed (R : BodyReader ρ) (s : ρ) : Prop :=
  ∀ k, R.seeker = some k → R.source.rest s <:+ k.content ∧ R.source.ending s = k.ending

/-- For every reader in any state, every threshold and each of the functions: whatever happens
around a call, it stores exactly what the reader yields from where it is handed over if it succeeds,
which then ended in `io.EOF`, and no row if the stream ends in another error, if and only if the
reader is faithful in the states from which the function reads. -/
theorem put_stores_stream_iff (R : BodyReader ρ) (threshold : Int64) (entry : Entry) (s : ρ)
    (hs : R.Handed s) :
    (∀ call, Calls R entry call →
        (call.run R threshold s).Exact (R.source.ending s) (R.source.rest s)) ↔
      ∀ s' ∈ R.readFrom s entry, Faithful R threshold s' (R.source.rest s) := by
  have hself : (∀ s' ∈ ({s} : Set ρ), Faithful R threshold s' (R.source.rest s)) ↔
      TakesOnly R threshold s (R.source.rest s) (R.source.ending s) := by
    simp only [Set.mem_singleton_iff, forall_eq]
    exact faithful_iff List.suffix_rfl
  cases entry with
  | put =>
    refine Iff.trans ⟨fun h => ?_, fun h call hcall => ?_⟩ hself.symm
    · exact taken_of_exact_put (t := target) rfl (h _ (.put target))
    · cases hcall with
      | put t => exact exact_put t h
  | putIfVersion =>
    refine Iff.trans ⟨fun h => ?_, fun h call hcall => ?_⟩ hself.symm
    · exact taken_of_exact_putIfVersion (h _ (.putIfVersion firstCas))
    · cases hcall with
      | putIfVersion t => exact exact_putIfVersion t h
  | putLocalWithOptions =>
    cases hseeker : R.seeker with
    | none =>
      have hfrom : R.readFrom s .putLocalWithOptions = {s} := by simp [BodyReader.readFrom, hseeker]
      rw [hfrom]
      refine Iff.trans ⟨fun h => ?_, fun h call hcall => ?_⟩ hself.symm
      · have hexact := h _ (.putLocalWithOptions false (fun _ => ⟨target, none, false, false⟩)
          (by simp [hseeker]))
        simp only [PutCall.run, putLocalWithOptions, hseeker] at hexact
        exact taken_of_exact_put rfl hexact
      · cases hcall with
        | putLocalWithOptions shed attempts _ =>
          simp only [PutCall.run, putLocalWithOptions, hseeker]
          split
          · exact .failed _ _ _
          · exact exact_put _ h
    | some k =>
      have hfrom : R.readFrom s .putLocalWithOptions = k.states := by simp [BodyReader.readFrom, hseeker]
      obtain ⟨hsuffix, hending⟩ := hs k hseeker
      -- After `Seek` the whole content is ahead, with the same end.
      have hfaithful : ∀ s' ∈ k.states, (Faithful R threshold s' (R.source.rest s) ↔
          TakesOnly R threshold s' (R.source.rest s) (R.source.ending s)) := by
        intro s' hs'
        rw [hending, ← k.ending_eq s' hs']
        exact faithful_iff (k.rest_eq s' hs' ▸ hsuffix)
      rw [hfrom]
      refine ⟨fun h s' hs' => (hfaithful s' hs').mpr ?_, fun h call hcall => ?_⟩
      · -- The first attempt succeeds, from this state.
        have hexact := h _ (.putLocalWithOptions false (fun _ => ⟨target, some s', false, false⟩) (by
          intro k' hk' _ s'' hs''
          obtain rfl := Option.some.inj (hseeker.symm.trans hk')
          obtain rfl := Option.some.inj hs''
          exact hs'))
        simp only [PutCall.run, putLocalWithOptions, hseeker, maxRetries, List.range_succ_eq_map,
          List.map_cons] at hexact
        exact taken_of_exact_put rfl (retryPut_target _ _ _ ▸ hexact)
      · cases hcall with
        | putLocalWithOptions shed attempts hrewound =>
          simp only [PutCall.run, putLocalWithOptions, hseeker]
          split
          · exact .failed _ _ _
          · refine exact_retryPut _ (fun a ha s' hs' => ?_) (.failed _ _ _)
            obtain ⟨n, -, rfl⟩ := List.mem_map.mp ha
            have hmem := hrewound k hseeker n s' hs'
            exact (hfaithful s' hmem).mp (h s' hmem)

/-! ## Readers of a content -/

/-- `WriteTo` of a reader of a content. -/
def writeRest (content : List UInt8) (ending after : ReadError) (s : Paced) :
    List UInt8 × Option ReadError × Paced :=
  (Paced.rest content s,
    if Paced.error ending after s = .eof then none else some (Paced.error ending after s), s)

/-- A reader of a content that reports its end in one way first and in another from then on, with or
without `Seek` and `WriteTo`. -/
def contentReader (content : List UInt8) (ending after : ReadError) (seeks writes : Bool) :
    BodyReader Paced where
  source := Paced.source content ending after
  seeker :=
    if seeks then
      some
        { content := content
          ending := ending
          states := {⟨0, [], false⟩}
          rest_eq := fun s hs => by rw [Set.mem_singleton_iff.mp hs]; rfl
          ending_eq := fun s hs => by rw [Set.mem_singleton_iff.mp hs]; rfl }
    else none
  writeTo := if writes then some (writeRest content ending after) else none
  writeTo_eq f hf s := by
    split at hf
    · obtain rfl := Option.some.inj hf
      exact ⟨s, rfl⟩
    · simp at hf

/-- A database that refuses the row at the first attempt. -/
def secondTry (n : Nat) : Attempt Paced :=
  ⟨⟨"f", 0, if n = 0 then some .temporary else none⟩, some ⟨0, [], false⟩, false, false⟩

/-- A seekable reader at its start, that is read in pieces and stored at the second attempt in a
file. -/
theorem put_stores_stream_iff_secondTry :
    (PutCall.run (contentReader [1, 2, 3, 4] .eof .eof true false) 2 (.putLocalWithOptions false secondTry)
      ⟨0, [⟨1, true⟩], false⟩).Stores [1, 2, 3, 4] := by
  have hstart : ∀ k, (contentReader [1, 2, 3, 4] .eof .eof true false).seeker = some k →
      k.content = [1, 2, 3, 4] ∧ k.ending = .eof ∧ k.states = {⟨0, [], false⟩} := by
    intro k hk
    obtain rfl := Option.some.inj hk
    exact ⟨rfl, rfl, rfl⟩
  refine ((put_stores_stream_iff (contentReader [1, 2, 3, 4] .eof .eof true false) 2 .putLocalWithOptions
    ⟨0, [⟨1, true⟩], false⟩ fun k hk => ?_).mpr (fun s hs => ?_) _
      (.putLocalWithOptions false secondTry fun k hk n s hs => ?_)).stores (by decide +kernel) |>.1
  · obtain ⟨hcontent, hending, -⟩ := hstart k hk
    rw [hcontent, hending]
    exact ⟨List.suffix_rfl, rfl⟩
  · obtain rfl : s = ⟨0, [], false⟩ := hs
    have herr : (firstFill (contentReader [1, 2, 3, 4] .eof .eof true false) 2 ⟨0, [], false⟩).err =
        none := by decide +kernel
    exact ⟨by simp [herr], by decide, fun _ _ => rfl⟩
  · rw [(hstart k hk).2.2]
    exact (Option.some.inj hs).symm

/-- A stream that breaks off with `io.ErrUnexpectedEOF` within the first read is stored as if it
were complete. So is one whose error comes with the byte that fills the first buffer, if the reader
reports `io.EOF` when it is asked again. A seekable reader is stored from its start although it was
handed over behind the first byte. With the largest integer as the threshold only one byte is
stored. -/
theorem put_stores_other :
    (PutCall.run (contentReader [1, 2] .unexpectedEOF .eof false false) 4 (.put target)
        ⟨0, [], false⟩).row.map (·.data) = some [1, 2] ∧
      (PutCall.run (contentReader [1, 2] (.other 7) .eof false false) 1 (.put target)
        ⟨0, [], false⟩).row.map (·.rawFilePath) = some "f" ∧
      ((PutCall.run (contentReader [1, 2] .eof .eof true false) 4 (.putLocalWithOptions false secondTry)
          ⟨1, [], false⟩).returned = .ok () ∧
        (PutCall.run (contentReader [1, 2] .eof .eof true false) 4 (.putLocalWithOptions false secondTry)
          ⟨1, [], false⟩).row.map (·.data) = some [1, 2]) ∧
      (PutCall.run (contentReader [1, 2] .eof .eof false false) Int64.maxValue (.put target)
          ⟨0, [], false⟩).returned = .ok () ∧
        (PutCall.run (contentReader [1, 2] .eof .eof false false) Int64.maxValue (.put target)
          ⟨0, [], false⟩).row.map (·.data) = some [1] := by
  decide +kernel

end OCache.Values
