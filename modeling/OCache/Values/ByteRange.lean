import OCache.Lib.ByteSource
import OCache.Lib.SignedWord

/-!
# Byte ranges of values

`Get` wraps the reader of a value if a range is asked for. The wrapper goes to the start of the
range at its first `Read`, by `Seek` if the reader has one and by reading otherwise, and then cuts
the caller's buffer so that nothing after the end of the range is read. Both bounds are what the
client sent. Positions have 64 bits.
-/

namespace OCache.Values

open SignedWord

/-! ## Readers of values -/

/-- A reader of a value. `seek` is there if the reader is an `io.Seeker`; it can refuse an
offset. -/
structure ValueReader (ρ : Type*) where
  source : ByteSource ρ ReadError
  value : List UInt8
  seek : Option (ρ → Int64 → Option ρ)
  ending_eq : ∀ s, source.ending s = .eof
  length_lt : value.length < 2 ^ 63
  rest_seek : ∀ f, seek = some f → ∀ s (k : Int64) s', f s k = some s' →
    source.rest s' = value.drop k.toNatClampNeg

/-- A caller's buffer. -/
structure Buffer where
  len : Nat
  cap : Nat
  len_le : len ≤ cap := by decide

/-- `byteRangeReader`. -/
structure ByteRangeReader (ρ : Type*) where
  reader : ρ
  start : Int64
  stop : Int64
  pos : Int64
  seeked : Bool

/-- `applyByteRange` -/
def applyByteRange {ρ : Type*} (s : ρ) (start stop : Int64) : ByteRangeReader ρ :=
  ⟨s, start, stop, 0, false⟩

variable {ρ : Type*} (V : ValueReader ρ)

/-- The loop that reads and discards, with a bound for its iterations. -/
def skipWithin : Nat → Nat → ρ → Int64 → Option ReadError × ρ × Int64
  | 0, _, s, pos => (none, s, pos)
  | fuel + 1, toSkip, s, pos =>
    if toSkip = 0 then (none, s, pos)
    else
      let out := V.source.read s (min (2 ^ 20) toSkip)
      let pos := pos + Int64.ofNat out.1.bytes.length
      match out.1.err with
      | some e => (some e, out.2, pos)
      | none => skipWithin fuel (toSkip - out.1.bytes.length) out.2 pos

namespace ByteRangeReader

variable (br : ByteRangeReader ρ)

/-- Go to the start, unless that is done. -/
def seekStart : Option ReadError × ByteRangeReader ρ :=
  if !br.seeked ∧ 0 < br.start then
    match V.seek with
    | some f =>
      match f br.reader br.start with
      | some s => (none, { br with reader := s, pos := br.start, seeked := true })
      | none => (some (.other 0), br)
    | none =>
      let (err, s, pos) :=
        skipWithin V (V.source.work br.reader + 1) br.start.toNatClampNeg br.reader br.pos
      (err, { br with reader := s, pos := pos, seeked := br.seeked || err.isNone })
  else (none, br)

/-- The length of the buffer after it was cut; none if the cut panics. -/
def cut (p : Buffer) : Option Nat :=
  if 0 < br.stop ∧ br.stop + 1 < br.pos + Int64.ofNat p.len then
    let k := br.stop - br.pos + 1
    if 0 ≤ k ∧ k.toNatClampNeg ≤ p.cap then some k.toNatClampNeg else none
  else some p.len

/-- `byteRangeReader.Read`; none is a panic. -/
def read (p : Buffer) : Option (Chunk ReadError × ByteRangeReader ρ) :=
  match br.seekStart V with
  | (some e, br) => some (⟨[], some e⟩, br)
  | (none, br) =>
    if 0 < br.stop ∧ br.stop < br.pos then some (⟨[], some .eof⟩, br)
    else
      (br.cut p).map fun n =>
        let out := V.source.read br.reader n
        (out.1, { br with reader := out.2, pos := br.pos + Int64.ofNat out.1.bytes.length })

end ByteRangeReader

/-- What `Get` returns. -/
inductive Body (ρ : Type*) where
  | plain (s : ρ)
  | ranged (br : ByteRangeReader ρ)

/-- The end of `Get`. -/
def getBody (s : ρ) (start stop : Int64) : Body ρ :=
  if 0 < start ∨ 0 < stop then .ranged (applyByteRange s start stop) else .plain s

namespace Body

def read : Body ρ → Buffer → Option (Chunk ReadError × Body ρ)
  | plain s, p => some ((V.source.read s p.len).1, plain (V.source.read s p.len).2)
  | ranged br, p => (br.read V p).map fun out => (out.1, ranged out.2)

/-- Read with the given buffers until an error comes; what was read, and the error. -/
def readAll : List Buffer → Body ρ → Option (List UInt8 × Option ReadError)
  | [], _ => some ([], none)
  | p :: ps, b =>
    (b.read V p).bind fun out =>
      match out.1.err with
      | some e => some (out.1.bytes, some e)
      | none => (readAll ps out.2).map fun more => (out.1.bytes ++ more.1, more.2)

end Body

/-! ## Ranges -/

/-- The number of the first byte that the range does not have. -/
def upto (value : List UInt8) (stop : Int64) : Nat :=
  if stop ≤ 0 then value.length else stop.toNatClampNeg + 1

/-- The bytes at the positions from `max start 0` through `stop`, or through the last if `stop` is
not positive. -/
def byteRange (value : List UInt8) (start stop : Int64) : List UInt8 :=
  (value.take (upto value stop)).drop start.toNatClampNeg

example : byteRange [10, 11, 12, 13, 14] 1 3 = [11, 12, 13] := by decide
example : byteRange [10, 11, 12, 13, 14] (-4) 0 = [10, 11, 12, 13, 14] := by decide

variable {V}

/-- The answer to one call: a piece of what is to come, or the rest of it with `io.EOF`. `work`
bounds the calls that are left. -/
inductive Answer (P : Body ρ → List UInt8 → Nat → Prop) (rest : List UInt8) (work : Nat) (p : Buffer) :
    Chunk ReadError × Body ρ → Prop
  | piece {bytes more : List UInt8} {b : Body ρ} {left : Nat} (hrest : rest = bytes ++ more)
      (hnext : P b more left) (hleft : left ≤ work) (hlt : 0 < p.len → left < work) :
      Answer P rest work p (⟨bytes, none⟩, b)
  | last {b : Body ρ} : Answer P rest work p (⟨rest, some .eof⟩, b)

/-- What a client that reads with `ps` gets. -/
structure Received (rest : List UInt8) (work : Nat) (ps : List Buffer) (bs : List UInt8)
    (err : Option ReadError) : Prop where
  piece : err = none → bs <+: rest ∧ ps.countP (0 < ·.len) ≤ work
  last : ∀ e, err = some e → e = .eof ∧ bs = rest

variable {work : Nat} {s : ρ} {start stop : Int64}

/-- If every call is answered, every client gets what is to come. -/
theorem readAll_of_answers {P : Body ρ → List UInt8 → Nat → Prop} {ps : List Buffer}
    (hP : ∀ b rest work, ∀ p ∈ ps, P b rest work →
      ∃ out, b.read V p = some out ∧ Answer P rest work p out) {b : Body ρ} {rest : List UInt8}
    (h : P b rest work) :
    ∃ bs err, b.readAll V ps = some (bs, err) ∧ Received rest work ps bs err := by
  -- Each buffer that is not empty takes some of the work that is left.
  induction ps generalizing b rest work with
  | nil => exact ⟨[], none, rfl, by simp, by simp⟩
  | cons p ps ih =>
    obtain ⟨out, hread, hanswer⟩ := hP b rest work p List.mem_cons_self h
    simp only [Body.readAll, hread, Option.bind_some]
    cases hanswer with
    | last => exact ⟨rest, some .eof, rfl, by simp, by simp⟩
    | piece hrest hnext hleft hlt =>
      obtain ⟨bs, err, hmore, hreceived⟩ :=
        ih (fun b' rest' work' q hq => hP b' rest' work' q (List.mem_cons_of_mem p hq)) hnext
      simp only [hmore, Option.map_some]
      refine ⟨_, err, rfl, fun hnone => ?_, fun e he => ?_⟩
      · obtain ⟨hpart, hcount⟩ := hreceived.piece hnone
        refine ⟨hrest ▸ (List.prefix_append_right_inj _).mpr hpart, ?_⟩
        rw [List.countP_cons]
        split
        · rename_i hp
          have := hlt (by simpa using hp)
          omega
        · omega
      · obtain ⟨heof, hbs⟩ := hreceived.last e he
        exact ⟨heof, by rw [hrest, hbs]⟩

/-! ## Reads from a position -/

section Positioned

variable {br : ByteRangeReader ρ} {n : Nat}

/-- The wrapper is at position `n` of the value, at or after the start of the range. -/
structure Positioned (V : ValueReader ρ) (br : ByteRangeReader ρ) (n : Nat) : Prop where
  ready : br.seeked = true ∨ br.start ≤ 0
  pos : br.pos = Int64.ofNat n
  lt : n < 2 ^ 63
  rest : V.source.rest br.reader = V.value.drop n

/-- A wrapper at a position does not move again. -/
theorem Positioned.seekStart (h : Positioned V br n) : br.seekStart V = (none, br) := by
  have hnot : ¬(!br.seeked ∧ 0 < br.start) := by
    rintro ⟨hseeked, hstart⟩
    rcases h.ready with hready | hready
    · simp [hready] at hseeked
    · exact absurd hready (Int64.not_le.mpr hstart)
  simp only [ByteRangeReader.seekStart, if_neg hnot]

lemma toInt_pos (h : Positioned V br n) : br.pos.toInt = n := by
  rw [h.pos, toInt_ofNat h.lt]

variable {k stop start : Int64} {p : Buffer} {s : ρ}

lemma toNatClampNeg_eq {m : Nat} (h : k.toInt = m) : k.toNatClampNeg = m := by
  rw [Int64.toNatClampNeg, h, Int.toNat_natCast]

/-- The cut leaves a buffer that ends with the range, or the value is over. -/
theorem cut_spec (h : Positioned V br n) (hstop : br.stop < Int64.maxValue)
    (hnot : ¬(0 < br.stop ∧ br.stop < br.pos)) (hp : V.value.length + p.len < 2 ^ 63) :
    ∃ k, br.cut p = some k ∧ (0 < p.len → 0 < k) ∧
      ∀ m, m ≤ k → m ≤ V.value.length - n → m ≤ upto V.value br.stop - n := by
  have hpos := toInt_pos h
  have hlen : (Int64.ofNat p.len).toInt = p.len := toInt_ofNat (by omega)
  have hmax : br.stop.toInt < 2 ^ 63 - 1 := Int64.lt_iff_toInt_lt.mp hstop
  have hone : (1 : Int64).toInt = 1 := by decide
  by_cases hlimited : 0 < br.stop
  · have hstop0 : 0 < br.stop.toInt := by simpa using Int64.lt_iff_toInt_lt.mp hlimited
    have hle : (n : Int) ≤ br.stop.toInt := by
      by_contra hlt
      exact hnot ⟨hlimited, Int64.lt_iff_toInt_lt.mpr (by omega)⟩
    have hnext : (br.stop + 1).toInt = br.stop.toInt + 1 := by
      rw [toInt_add, hone] <;> rw [hone] <;> omega
    have hupto : (upto V.value br.stop : Int) = br.stop.toInt + 1 := by
      have hnle : ¬br.stop ≤ 0 := Int64.not_le.mpr hlimited
      rw [upto, if_neg hnle, Int64.toNatClampNeg]
      omega
    rcases Nat.lt_or_ge (n + p.len) (2 ^ 63) with hfits | hover
    · have hsum : (br.pos + Int64.ofNat p.len).toInt = n + p.len := by
        rw [toInt_add, hpos, hlen] <;> rw [hpos, hlen] <;> omega
      by_cases hcut : br.stop + 1 < br.pos + Int64.ofNat p.len
      · -- The buffer is cut to what is left of the range.
        have hlt := Int64.lt_iff_toInt_lt.mp hcut
        rw [hnext, hsum] at hlt
        have hdiff : (br.stop - br.pos).toInt = br.stop.toInt - n := by
          rw [toInt_sub, hpos] <;> rw [hpos] <;> omega
        have hk : (br.stop - br.pos + 1).toInt = (upto V.value br.stop - n : Nat) := by
          rw [toInt_add (by rw [hdiff, hone]; omega) (by rw [hdiff, hone]; omega), hdiff, hone]
          omega
        have hnonneg : (0 : Int64) ≤ br.stop - br.pos + 1 := by
          rw [Int64.le_iff_toInt_le, hk, Int64.toInt_zero]
          omega
        have hcap := p.len_le
        refine ⟨upto V.value br.stop - n, ?_, by omega, fun m hm _ => hm⟩
        simp only [ByteRangeReader.cut, if_pos (And.intro hlimited hcut), toNatClampNeg_eq hk]
        rw [if_pos ⟨hnonneg, by omega⟩]
      · refine ⟨p.len, ?_, id, fun m hm _ => ?_⟩
        · simp only [ByteRangeReader.cut, if_neg fun hand => hcut (And.right hand)]
        · have hends := Int64.not_lt.mp hcut
          rw [Int64.le_iff_toInt_le, hsum, hnext] at hends
          omega
    · -- The sum wraps to a negative number, so the buffer is not cut. The value is over by then.
      have hsum : (br.pos + Int64.ofNat p.len).toInt < 0 := by
        rw [Int64.toInt_add, hpos, hlen, Int.bmod_def]
        omega
      refine ⟨p.len, ?_, id, fun m _ hm => by omega⟩
      have hncut : ¬br.stop + 1 < br.pos + Int64.ofNat p.len := by
        rw [Int64.lt_iff_toInt_lt, hnext]
        omega
      simp only [ByteRangeReader.cut, if_neg fun hand => hncut (And.right hand)]
  · refine ⟨p.len, ?_, id, fun m _ hm => ?_⟩
    · simp only [ByteRangeReader.cut, if_neg fun hand => hlimited (And.left hand)]
    · rwa [upto, if_pos (Int64.not_lt.mp hlimited)]

/-- A piece of the value that fits into the range is a piece of the range. -/
theorem range_append {bytes more : List UInt8} (hrest : V.value.drop n = bytes ++ more)
    (hlen : bytes.length ≤ upto V.value stop - n) :
    (V.value.take (upto V.value stop)).drop n =
      bytes ++ (V.value.take (upto V.value stop)).drop (n + bytes.length) := by
  have hmore : V.value.drop (n + bytes.length) = more := by
    rw [← List.drop_drop, hrest, List.drop_left]
  rw [List.drop_take, List.drop_take, hrest, hmore, List.take_append, List.take_of_length_le hlen]
  congr 2
  omega

/-- The client's view of a body: what is to come, and a bound for the calls. A wrapper is at its
position, or will be once it has gone to its start, or finds the value over when it does. -/
inductive Views (V : ValueReader ρ) : Body ρ → List UInt8 → Nat → Prop
  | plain {s : ρ} : Views V (.plain s) (V.source.rest s) (V.source.work s)
  | ranged {br br' : ByteRangeReader ρ} {n : Nat} (hseek : br.seekStart V = (none, br'))
      (hpos : Positioned V br' n) (hstop : br'.stop < Int64.maxValue) :
      Views V (.ranged br) ((V.value.take (upto V.value br'.stop)).drop n) (V.source.work br'.reader)
  | ended {br br' : ByteRangeReader ρ} (hseek : br.seekStart V = (some .eof, br')) :
      Views V (.ranged br) [] 0

/-- A body without a range is read as it is. -/
theorem answer_plain (s : ρ) (p : Buffer) :
    ∃ out, (Body.plain s).read V p = some out ∧
      Answer (Views V) (V.source.rest s) (V.source.work s) p out := by
  refine ⟨_, rfl, ?_⟩
  have hreads := V.source.reads s p.len
  generalize V.source.read s p.len = out at hreads
  cases hreads with
  | piece hrest _ hle hlt => exact .piece hrest .plain hle hlt
  | last _ =>
    rw [V.ending_eq]
    exact .last

/-- A call at a position, once the buffer is cut. -/
theorem answer_positioned (h : Positioned V br n) (hstop : br.stop < Int64.maxValue)
    (hp : V.value.length + p.len < 2 ^ 63) :
    ∃ out, br.read V p = some out ∧
      Answer (Views V) ((V.value.take (upto V.value br.stop)).drop n) (V.source.work br.reader) p
        (out.1, .ranged out.2) := by
  simp only [ByteRangeReader.read, h.seekStart]
  split
  · -- The position is after the range.
    rename_i hafter
    refine ⟨_, rfl, ?_⟩
    have hnle : ¬br.stop ≤ 0 := Int64.not_le.mpr hafter.1
    have hnil : (V.value.take (upto V.value br.stop)).drop n = [] := by
      have hlt := Int64.lt_iff_toInt_lt.mp hafter.2
      rw [toInt_pos h] at hlt
      have hpos : 0 < br.stop.toInt := by simpa using Int64.lt_iff_toInt_lt.mp hafter.1
      have hle : br.stop.toNatClampNeg + 1 ≤ n := by
        rw [Int64.toNatClampNeg]
        omega
      rw [List.drop_take, upto, if_neg hnle, Nat.sub_eq_zero_of_le hle, List.take_zero]
    rw [hnil]
    exact .last
  · rename_i hnot
    obtain ⟨k, hcut, hpos, hfits⟩ := cut_spec h hstop hnot hp
    simp only [hcut, Option.map_some]
    refine ⟨_, rfl, ?_⟩
    have hreads := V.source.reads br.reader k
    generalize V.source.read br.reader k = out at hreads
    cases hreads with
    | @piece bytes s' hrest hlen hle hlt =>
      rw [h.rest] at hrest
      have hlength : bytes.length ≤ V.value.length - n := by
        rw [← List.length_drop, hrest, List.length_append]
        omega
      refine .piece (range_append hrest (hfits _ hlen hlength)) ?_ hle
        fun hlen => hlt (hpos hlen)
      have hnext : Positioned V { br with
          reader := s', pos := br.pos + Int64.ofNat bytes.length } (n + bytes.length) := by
        refine ⟨h.ready, ?_, ?_, ?_⟩
        · rw [h.pos, ← Int64.ofNat_add]
        · have := h.lt
          omega
        · rw [← List.drop_drop, hrest, List.drop_left]
      exact .ranged hnext.seekStart hnext hstop
    | last hlen =>
      have hlength : (V.value.drop n).length ≤ upto V.value br.stop - n :=
        hfits _ (h.rest ▸ hlen) (by simp)
      rw [h.rest, V.ending_eq, List.drop_take, List.take_of_length_le hlength]
      exact .last

/-! ## The first read -/

/-- The loop that discards either arrives or meets the end of the value. -/
theorem skipWithin_spec {fuel : Nat} (toSkip : Nat) (pos : Int64) (hfuel : V.source.work s < fuel) :
    (∃ s', skipWithin V fuel toSkip s pos = (none, s', pos + Int64.ofNat toSkip) ∧
        V.source.rest s' = (V.source.rest s).drop toSkip ∧ ¬V.source.EndsWithin (2 ^ 20) toSkip s) ∨
      ∃ s' pos', skipWithin V fuel toSkip s pos = (some .eof, s', pos') ∧
        V.source.EndsWithin (2 ^ 20) toSkip s := by
  -- A read that yields a piece leaves less work, so the fuel is never used up.
  induction fuel generalizing toSkip s pos with
  | zero => omega
  | succ fuel ih =>
    unfold skipWithin
    by_cases hzero : toSkip = 0
    · rw [if_pos hzero]
      exact .inl ⟨s, by simp [hzero], by simp [hzero], hzero ▸ ByteSource.not_endsWithin_zero _ s⟩
    · rw [if_neg hzero]
      have hpos : 0 < toSkip := Nat.pos_of_ne_zero hzero
      dsimp only
      cases herr : (V.source.read s (min (2 ^ 20) toSkip)).1.err with
      | some e =>
        obtain ⟨rfl, -⟩ := V.source.at_end _ _ _ herr
        rw [V.ending_eq]
        exact .inr ⟨_, _, rfl, .now hpos herr⟩
      | none =>
        have hlen := V.source.length_le s (min (2 ^ 20) toSkip)
        have hless := V.source.work_lt s (min (2 ^ 20) toSkip) (by omega) herr
        have hrest := V.source.rest_eq s (min (2 ^ 20) toSkip) herr
        have hends := ByteSource.endsWithin_iff hpos herr
        generalize V.source.read s (min (2 ^ 20) toSkip) = out at hlen hless hrest hends ⊢
        have hskip : out.1.bytes.length + (toSkip - out.1.bytes.length) = toSkip := by omega
        rcases ih (toSkip - out.1.bytes.length) (pos + Int64.ofNat out.1.bytes.length)
          (by omega : V.source.work out.2 < fuel) with ⟨t, hskips, hdrop, hnot⟩ | ⟨t, pos', hskips, hend⟩
        · refine .inl ⟨t, ?_, ?_, fun h => hnot (hends.mp h)⟩
          · rw [hskips, Int64.add_assoc, ← Int64.ofNat_add, hskip]
          · rw [hdrop, hrest, List.drop_append, List.drop_of_length_le (by omega : _ ≤ toSkip),
              List.nil_append]
        · exact .inr ⟨t, pos', hskips, hends.mpr hend⟩

/-- The wrapper has not moved yet. -/
structure Fresh (V : ValueReader ρ) (br : ByteRangeReader ρ) : Prop where
  start : 0 < br.start
  pos : br.pos = 0
  notSeeked : br.seeked = false
  rest : V.source.rest br.reader = V.value
  seeks : ∀ f, V.seek = some f → (f br.reader br.start).isSome = true

/-- The reader has no `Seek`, and reports the end while bytes are discarded. -/
def Overrun (V : ValueReader ρ) (s : ρ) (start : Int64) : Prop :=
  V.seek = none ∧ V.source.EndsWithin (2 ^ 20) start.toNatClampNeg s

/-- The first read arrives at the start, unless the value is over before. -/
theorem Fresh.seekStart (h : Fresh V br) :
    (∃ br', br.seekStart V = (none, br') ∧ Positioned V br' br.start.toNatClampNeg ∧
        br'.stop = br.stop ∧ ¬Overrun V br.reader br.start) ∨
      ∃ br', br.seekStart V = (some .eof, br') ∧ Overrun V br.reader br.start := by
  have hstart : br.start.toNatClampNeg = br.start.toInt := by
    have := Int64.lt_iff_toInt_lt.mp h.start
    rw [Int64.toInt_zero] at this
    rw [Int64.toNatClampNeg]
    omega
  have hlt : br.start.toNatClampNeg < 2 ^ 63 := by
    have := Int64.toInt_lt br.start
    omega
  have hpos : br.start = Int64.ofNat br.start.toNatClampNeg := by
    rw [← Int64.toInt_inj, toInt_ofNat hlt, hstart]
  have hcond : (!br.seeked) = true ∧ 0 < br.start := ⟨by simp [h.notSeeked], h.start⟩
  unfold ByteRangeReader.seekStart
  rw [if_pos hcond]
  -- A reader that can seek goes there directly, any other discards bytes.
  cases hseek : V.seek with
  | some f =>
    obtain ⟨s, hs⟩ := Option.isSome_iff_exists.mp (h.seeks f hseek)
    simp only [hs]
    exact .inl ⟨_, rfl, ⟨.inl rfl, hpos, hlt, V.rest_seek f hseek _ _ _ hs⟩, rfl, by simp [Overrun, hseek]⟩
  | none =>
    simp only
    rcases skipWithin_spec br.start.toNatClampNeg br.pos
      (Nat.lt_succ_self (V.source.work br.reader)) with ⟨s, hskips, hdrop, hnot⟩ | ⟨s, pos, hskips, hends⟩
    · simp only [hskips]
      refine .inl ⟨_, rfl, ⟨.inl (by simp), by simp [h.pos], hlt, ?_⟩, rfl, fun hover => hnot hover.2⟩
      rw [hdrop, h.rest]
    · simp only [hskips]
      exact .inr ⟨_, rfl, hseek, hends⟩

/-- Every read of a body that shows something is answered. -/
theorem Views.answer {b : Body ρ} {rest : List UInt8} {work : Nat} (h : Views V b rest work)
    (hp : V.value.length + p.len < 2 ^ 63) :
    ∃ out, b.read V p = some out ∧ Answer (Views V) rest work p out := by
  cases h with
  | plain => exact answer_plain _ p
  | @ranged br br' n hseek hpos hstop =>
    obtain ⟨out, hread, hanswer⟩ := answer_positioned hpos hstop hp
    -- The wrapper goes to its start, and from there on it is the one at the position.
    have hsame : br.read V p = br'.read V p := by
      simp only [ByteRangeReader.read, hseek, hpos.seekStart]
    exact ⟨_, by rw [Body.read, hsame, hread, Option.map_some], hanswer⟩
  | ended hseek => exact ⟨_, by rw [Body.read, ByteRangeReader.read, hseek, Option.map_some], .last⟩

lemma toNatClampNeg_of_nonpos (h : ¬0 < k) : k.toNatClampNeg = 0 := by
  have := Int64.le_iff_toInt_le.mp (Int64.not_lt.mp h)
  rw [Int64.toInt_zero] at this
  rw [Int64.toNatClampNeg]
  omega

/-- A start that is not positive is the first byte. -/
theorem positioned_zero (stop : Int64) (hs : V.source.rest s = V.value) (hstart : ¬0 < start) :
    Positioned V (applyByteRange s start stop) 0 :=
  ⟨.inr (Int64.not_lt.mp hstart), rfl, by decide, by rw [List.drop_zero]; exact hs⟩

/-- What `Get` returns shows the range, if the end is not the largest integer. -/
theorem views_getBody (hs : V.source.rest s = V.value)
    (hseek : 0 < start → ∀ f, V.seek = some f → (f s start).isSome = true)
    (hstop : stop = Int64.maxValue → 0 < start ∧ Overrun V s start) :
    ∃ work, Views V (getBody s start stop) (byteRange V.value start stop) work := by
  have hlt : ¬(0 < start ∧ Overrun V s start) → stop < Int64.maxValue := fun hnot =>
    (Int64.lt_or_eq_of_le (Int64.le_maxValue stop)).resolve_right fun heq => hnot (hstop heq)
  unfold getBody
  split
  · by_cases hstart : 0 < start
    · have hfresh : Fresh V (applyByteRange s start stop) := ⟨hstart, rfl, rfl, hs, hseek hstart⟩
      rcases hfresh.seekStart with ⟨br, hbr, hpos, heq, hnot⟩ | ⟨br, hbr, hover⟩
      · have hviews := Views.ranged hbr hpos (heq ▸ hlt fun h => hnot h.2)
        rw [heq] at hviews
        exact ⟨_, hviews⟩
      · have hnil : byteRange V.value start stop = [] :=
          List.drop_of_length_le ((List.length_take_le' _ _).trans (hs ▸ hover.2.length_le))
        exact ⟨0, hnil ▸ .ended hbr⟩
    · have hpos := positioned_zero stop hs hstart
      rw [byteRange, toNatClampNeg_of_nonpos hstart]
      exact ⟨_, .ranged hpos.seekStart hpos (hlt fun h => hstart h.1)⟩
  · rename_i hno
    rw [not_or] at hno
    have hall : byteRange V.value start stop = V.source.rest s := by
      rw [byteRange, upto, if_pos (Int64.not_lt.mp hno.2), toNatClampNeg_of_nonpos hno.1,
        List.take_length, List.drop_zero, hs]
    exact ⟨V.source.work s, by rw [hall]; exact .plain⟩

/-! ## The largest integer as the end -/

/-- A buffer of no bytes. -/
def emptyBuffer : Buffer := ⟨0, 0, le_rfl⟩

/-- Behind the largest integer the end wraps, and the cut is before or behind the buffer. -/
theorem read_panics (h : Positioned V br n) (hstop : br.stop = Int64.maxValue) :
    br.read V emptyBuffer = none := by
  have hpos := toInt_pos h
  have hlt := h.lt
  have hnot : ¬(0 < br.stop ∧ br.stop < br.pos) := by
    rw [hstop]
    exact fun hafter => Int64.not_lt.mpr (Int64.le_maxValue br.pos) hafter.2
  have hcut : 0 < br.stop ∧ br.stop + 1 < br.pos + Int64.ofNat emptyBuffer.len := by
    rw [hstop]
    refine ⟨by decide, ?_⟩
    rw [show Int64.ofNat emptyBuffer.len = 0 from rfl, Int64.add_zero, Int64.lt_iff_toInt_lt, hpos,
      show (Int64.maxValue + 1).toInt = -2 ^ 63 by decide]
    omega
  -- The cut is at `2 ^ 63 - n`, which wraps to a negative number if `n` is zero.
  have hk : (br.stop - br.pos + 1).toInt ≠ 0 := by
    have hmax : Int64.maxValue.toInt = 2 ^ 63 - 1 := Int64.toInt_maxValue
    have hdiff : (br.stop - br.pos).toInt = 2 ^ 63 - 1 - n := by
      rw [hstop, toInt_sub, hmax, hpos] <;> rw [hmax, hpos] <;> omega
    rw [Int64.toInt_add, hdiff, Int64.toInt_one, Int.bmod_def]
    omega
  have hout : ¬(0 ≤ br.stop - br.pos + 1 ∧ (br.stop - br.pos + 1).toNatClampNeg ≤ emptyBuffer.cap) := by
    rintro ⟨hnonneg, hcap⟩
    rw [Int64.le_iff_toInt_le, Int64.toInt_zero] at hnonneg
    have hcap : (br.stop - br.pos + 1).toInt.toNat ≤ 0 := hcap
    omega
  simp only [ByteRangeReader.read, h.seekStart, if_neg hnot, ByteRangeReader.cut, if_pos hcut, if_neg hout,
    Option.map_none]

end Positioned

/-- Every client gets the range: with buffers of any sizes that memory has room for, no `Read`
panics, what is read is a part of the range from its start, an error comes only after the whole
range and is `io.EOF`, and it comes if the buffers are not used up before. -/
def RangeExact (V : ValueReader ρ) (s : ρ) (start stop : Int64) : Prop :=
  ∃ calls, ∀ ps : List Buffer, (∀ p ∈ ps, V.value.length + p.len < 2 ^ 63) →
    (∃ bs err, (getBody s start stop).readAll V ps = some (bs, err) ∧
      bs <+: byteRange V.value start stop ∧
      ∀ e, err = some e → e = .eof ∧ bs = byteRange V.value start stop) ∧
    (calls < ps.countP (0 < ·.len) →
      (getBody s start stop).readAll V ps = some (byteRange V.value start stop, some .eof))

/-- A body that shows the range is read exactly. -/
theorem rangeExact_of_views
    (h : Views V (getBody s start stop) (byteRange V.value start stop) work) :
    RangeExact V s start stop := by
  refine ⟨work, fun ps hps => ?_⟩
  obtain ⟨bs, err, hread, hreceived⟩ :=
    readAll_of_answers (fun b rest work p hp (hb : Views V b rest work) => hb.answer (hps p hp)) h
  cases err with
  | none =>
    obtain ⟨hpart, hcount⟩ := hreceived.piece rfl
    exact ⟨⟨bs, none, hread, hpart, by simp⟩, fun hcalls => absurd hcount (by omega)⟩
  | some e =>
    obtain ⟨rfl, rfl⟩ := hreceived.last e rfl
    exact ⟨⟨_, _, hread, List.prefix_rfl, by simp⟩, fun _ => hread⟩

/-- A first read into no bytes does not panic, and reports nothing but `io.EOF`. -/
theorem RangeExact.first_read (h : RangeExact V s start stop) :
    ∃ out, (getBody s start stop).read V emptyBuffer = some out ∧
      ∀ e, out.1.err = some e → e = .eof := by
  obtain ⟨calls, hcalls⟩ := h
  have hfits : ∀ p ∈ [emptyBuffer], V.value.length + p.len < 2 ^ 63 := by
    intro p hp
    rw [List.mem_singleton.mp hp]
    exact V.length_lt
  obtain ⟨⟨bs, err, hread, -, herr⟩, -⟩ := hcalls [emptyBuffer] hfits
  rw [Body.readAll, Option.bind_eq_some_iff] at hread
  obtain ⟨out, hout, hrest⟩ := hread
  refine ⟨out, hout, fun e he => ?_⟩
  rw [he] at hrest
  obtain ⟨-, rfl⟩ := Prod.mk.inj (Option.some.inj hrest)
  exact (herr e rfl).1

/-- For every value, reader and pair of bounds: every client gets the range if and only if the
reader's `Seek` takes the start, and either the end is not the largest integer, or the reader has no
`Seek` and reports the end of the value before the start is reached. -/
theorem rangeExact_iff (V : ValueReader ρ) (s : ρ) (start stop : Int64)
    (hs : V.source.rest s = V.value) :
    RangeExact V s start stop ↔
      (0 < start → ∀ f, V.seek = some f → (f s start).isSome = true) ∧
        (stop = Int64.maxValue → 0 < start ∧ Overrun V s start) := by
  constructor
  · intro hexact
    obtain ⟨out, hread, herr⟩ := hexact.first_read
    have hranged : 0 < start ∨ 0 < stop →
        (applyByteRange s start stop).read V emptyBuffer = none → False := by
      intro hbounds hnone
      rw [getBody, if_pos hbounds, Body.read, hnone] at hread
      simp at hread
    have hseek : 0 < start → ∀ f, V.seek = some f → (f s start).isSome = true := by
      intro hstart f hf
      by_contra hnone
      -- The error of `Seek` is returned.
      rw [Option.not_isSome_iff_eq_none] at hnone
      have hrefused : (applyByteRange s start stop).seekStart V =
          (some (.other 0), applyByteRange s start stop) := by
        simp [ByteRangeReader.seekStart, applyByteRange, hstart, hf, hnone]
      rw [getBody, if_pos (.inl hstart), Body.read, ByteRangeReader.read, hrefused] at hread
      obtain rfl := Option.some.inj hread
      have := herr _ rfl
      simp at this
    refine ⟨hseek, fun hmax => ?_⟩
    have hbounds : 0 < start ∨ 0 < stop := .inr (by rw [hmax]; decide)
    by_cases hstart : 0 < start
    · have hfresh : Fresh V (applyByteRange s start stop) := ⟨hstart, rfl, rfl, hs, hseek hstart⟩
      rcases hfresh.seekStart with ⟨br, hbr, hpos, heq, -⟩ | ⟨br, -, hover⟩
      · -- The wrapper arrives and panics there.
        refine (hranged hbounds ?_).elim
        rw [← read_panics hpos (heq.trans hmax)]
        simp only [ByteRangeReader.read, hbr, hpos.seekStart]
      · exact ⟨hstart, hover⟩
    · exact (hranged hbounds (read_panics (positioned_zero stop hs hstart) hmax)).elim
  · rintro ⟨hseek, hstop⟩
    obtain ⟨work, hviews⟩ := views_getBody hs hseek hstop
    exact rangeExact_of_views hviews

/-! ## Section readers -/

/-- `SectionReader.Seek`, for a section that starts at `base`: the sum can wrap. -/
def sectionSeek (base : Int64) (s : Paced) (offset : Int64) : Option Paced :=
  if base + offset < base then none else some { s with pos := offset.toNatClampNeg }

/-- The reader of a value that starts at `base` in its file, at 0 if it has a file of its own. -/
def sectionReader (value : List UInt8) (base : Int64) (length_lt : value.length < 2 ^ 63 := by decide) :
    ValueReader Paced where
  source := Paced.source value .eof .eof
  value := value
  seek := some (sectionSeek base)
  ending_eq s := ite_self _
  length_lt := length_lt
  rest_seek f hf s k s' hs := by
    obtain rfl := Option.some.inj hf
    unfold sectionSeek at hs
    split at hs
    · simp at hs
    · obtain rfl := Option.some.inj hs
      rfl

/-- A reader of a value without `Seek`. -/
def streamReader (value : List UInt8) (length_lt : value.length < 2 ^ 63 := by decide) :
    ValueReader Paced where
  source := Paced.source value .eof .eof
  value := value
  seek := none
  ending_eq s := ite_self _
  length_lt := length_lt
  rest_seek f hf := by simp at hf

/-- A client that asks for the bytes 1 to 2 of a value in a segment; and one that asks a reader
without `Seek` for all bytes from a position behind the last on. -/
theorem rangeExact_iff_readers :
    RangeExact (sectionReader [10, 11, 12, 13, 14] 48) (Paced.mk 0 [⟨1, false⟩] false) 1 2 ∧
      RangeExact (streamReader [10, 11, 12]) (Paced.mk 0 [] false) 5 Int64.maxValue :=
  ⟨(rangeExact_iff _ (Paced.mk 0 [⟨1, false⟩] false) 1 2 rfl).mpr
      ⟨fun _ f hf => by obtain rfl := Option.some.inj hf; rfl, fun hmax => absurd hmax (by decide)⟩,
    (rangeExact_iff (streamReader [10, 11, 12]) (Paced.mk 0 [] false) 5 Int64.maxValue rfl).mpr
      ⟨fun _ f hf => absurd hf (by simp [streamReader]),
        fun _ => ⟨by decide, rfl, ByteSource.endsWithin_of_lt (by decide) (by decide)⟩⟩⟩

/-- The whole value asked for with the largest integer as the end: the first `Read` panics, since
the cut is at a negative position. The same end with a later start is cut beyond the buffer. And the
reader of a value in a segment refuses a start that is so large that the position in the file
wraps. -/
theorem byteRange_panics :
    (getBody (Paced.mk 0 [] false) 0 Int64.maxValue).readAll (sectionReader [10, 11, 12] 0)
        [⟨8, 8, le_rfl⟩] = none ∧
      (getBody (Paced.mk 0 [] false) 1 Int64.maxValue).readAll (sectionReader [10, 11, 12] 0)
        [⟨8, 8, le_rfl⟩] = none ∧
      (getBody (Paced.mk 0 [] false) Int64.maxValue 0).readAll (sectionReader [10, 11, 12] 48)
        [⟨8, 8, le_rfl⟩] = some ([], some (.other 0)) := by
  decide +kernel

end OCache.Values
