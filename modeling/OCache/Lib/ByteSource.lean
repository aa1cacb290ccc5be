import Mathlib.Data.List.Basic

/-!
# Readers of byte streams

A reader is asked for at most `n` bytes and returns some, maybe none, and maybe the error that ends
the stream. It may hand out its bytes in any pieces, and report the end with the last of them or in
a call of its own. What is certain is that the pieces make up the stream, and that a loop over
non-empty buffers comes to the end: there is no endless row of calls that return nothing. A reader
that is asked again after an error may return anything: the error, another one, or more bytes.
-/

/-- `io.EOF`, `io.ErrUnexpectedEOF` and all other errors. -/
inductive ReadError where
  | eof
  | unexpectedEOF
  | other (code : Nat)
deriving DecidableEq

/-- What one call returns. -/
structure Chunk (ε : Type*) where
  bytes : List UInt8
  err : Option ε
deriving DecidableEq

/-- A reader with states `ρ`. -/
structure ByteSource (ρ ε : Type*) where
  /-- One call with a buffer of the given length. -/
  read : ρ → Nat → Chunk ε × ρ
  /-- What is delivered until the next error. -/
  rest : ρ → List UInt8
  /-- The next error. -/
  ending : ρ → ε
  /-- A bound for the number of calls with non-empty buffers before the end. -/
  work : ρ → Nat
  length_le : ∀ s n, (read s n).1.bytes.length ≤ n
  rest_eq : ∀ s n, (read s n).1.err = none → rest s = (read s n).1.bytes ++ rest (read s n).2
  ending_eq : ∀ s n, (read s n).1.err = none → ending s = ending (read s n).2
  work_le : ∀ s n, (read s n).1.err = none → work (read s n).2 ≤ work s
  work_lt : ∀ s n, 0 < n → (read s n).1.err = none → work (read s n).2 < work s
  at_end : ∀ s n e, (read s n).1.err = some e → e = ending s ∧ rest s = (read s n).1.bytes

namespace ByteSource

variable {ρ ε : Type*} (S : ByteSource ρ ε)

/-- What a call can do: return a piece and go on, or return everything with the error. -/
inductive Reads (s : ρ) (n : Nat) : Chunk ε × ρ → Prop
  | piece {bytes : List UInt8} {s' : ρ} (rest_eq : S.rest s = bytes ++ S.rest s')
      (length_le : bytes.length ≤ n) (work_le : S.work s' ≤ S.work s)
      (work_lt : 0 < n → S.work s' < S.work s) : Reads s n (⟨bytes, none⟩, s')
  | last {s' : ρ} (length_le : (S.rest s).length ≤ n) : Reads s n (⟨S.rest s, some (S.ending s)⟩, s')

/-- Every call is one of the two. -/
theorem reads (s : ρ) (n : Nat) : S.Reads s n (S.read s n) := by
  have hlen := S.length_le s n
  have hpiece := S.rest_eq s n
  have hle := S.work_le s n
  have hlt := S.work_lt s n
  have hend := S.at_end s n
  rcases hread : S.read s n with ⟨⟨bytes, err⟩, s'⟩
  rw [hread] at hlen hpiece hle hlt hend
  cases err with
  | none => exact .piece (hpiece rfl) hlen (hle rfl) fun hn => hlt hn rfl
  | some e =>
    obtain ⟨rfl, hall⟩ := hend e rfl
    obtain rfl : S.rest s = bytes := hall
    exact .last hlen

/-! ## Loops -/

/-- The result of a loop. -/
structure Fill (ρ ε : Type*) where
  bytes : List UInt8
  err : Option ε
  state : ρ

/-- Read until `n` bytes are there or the stream ends, with a bound for the calls. -/
def fillWithin : Nat → Nat → ρ → Fill ρ ε
  | 0, _, s => ⟨[], none, s⟩
  | fuel + 1, n, s =>
    if n = 0 then ⟨[], none, s⟩
    else
      let out := S.read s n
      match out.1.err with
      | some e => ⟨out.1.bytes, some e, out.2⟩
      | none =>
        let more := fillWithin fuel (n - out.1.bytes.length) out.2
        ⟨out.1.bytes ++ more.bytes, more.err, more.state⟩

/-- Read until `n` bytes are there or the stream ends. -/
def fill (n : Nat) (s : ρ) : Fill ρ ε := S.fillWithin (S.work s + 1) n s

/-- Read to the end with a buffer of length `n`, with a bound for the calls. -/
def drainWithin (n : Nat) : Nat → ρ → Fill ρ ε
  | 0, s => ⟨[], none, s⟩
  | fuel + 1, s =>
    let out := S.read s n
    match out.1.err with
    | some e => ⟨out.1.bytes, some e, out.2⟩
    | none =>
      let more := drainWithin n fuel out.2
      ⟨out.1.bytes ++ more.bytes, more.err, more.state⟩

/-- Read to the end with a buffer of length `n`. -/
def drain (n : Nat) (s : ρ) : Fill ρ ε := S.drainWithin n (S.work s + 1) s

/-- What a loop for `n` bytes returns: the bytes, or all there is and the error. -/
structure Fills (S : ByteSource ρ ε) (n : Nat) (s : ρ) (r : Fill ρ ε) : Prop where
  bytes : r.bytes = (S.rest s).take n
  more : r.err = none → n ≤ (S.rest s).length ∧ S.rest r.state = (S.rest s).drop n ∧
    S.ending r.state = S.ending s
  ended : ∀ e, r.err = some e → e = S.ending s ∧ (S.rest s).length ≤ n

variable {S}

variable {fuel n most : Nat} {s : ρ}

/-- The loop for `n` bytes, by induction on the bound for its calls. -/
theorem fillWithin_spec (h : S.work s < fuel) : Fills S n s (S.fillWithin fuel n s) := by
  induction fuel generalizing n s with
  | zero => omega
  | succ fuel ih =>
    unfold fillWithin
    by_cases hn : n = 0
    · simp only [hn, if_true]
      exact ⟨by simp, by simp, by simp⟩
    · simp only [hn, if_false]
      have hlen := S.length_le s n
      cases herr : (S.read s n).1.err with
      | some e =>
        obtain ⟨he, hall⟩ := S.at_end s n e herr
        refine ⟨?_, by simp, fun e' he' => ?_⟩
        · rw [hall, List.take_of_length_le hlen]
        · exact ⟨(Option.some.inj he').symm.trans he, by rw [hall]; exact hlen⟩
      | none =>
        -- The loop goes on with what is missing.
        have hrest := S.rest_eq s n herr
        have hending := S.ending_eq s n herr
        have hwork := S.work_lt s n (by omega) herr
        have hmore := ih (n := n - (S.read s n).1.bytes.length) (s := (S.read s n).2) (by omega)
        refine ⟨?_, fun hnone => ?_, fun e he => ?_⟩
        · rw [hrest, List.take_append, hmore.bytes, List.take_of_length_le hlen]
        · obtain ⟨hle, hdrop, hsame⟩ := hmore.more hnone
          refine ⟨by rw [hrest, List.length_append]; omega, ?_, hsame.trans hending.symm⟩
          rw [hdrop, hrest, List.drop_append, List.drop_of_length_le hlen, List.nil_append]
        · obtain ⟨hsame, hle⟩ := hmore.ended e he
          exact ⟨hsame.trans hending.symm, by rw [hrest, List.length_append]; omega⟩

/-- `fill` returns the next `n` bytes, or all there is and the error. -/
theorem fill_spec (n : Nat) (s : ρ) : Fills S n s (S.fill n s) :=
  fillWithin_spec (Nat.lt_succ_self _)

/-- The loop to the end, by induction on the bound for its calls. -/
theorem drainWithin_eq (hn : 0 < n) (h : S.work s < fuel) :
    (S.drainWithin n fuel s).bytes = S.rest s ∧ (S.drainWithin n fuel s).err = some (S.ending s) := by
  induction fuel generalizing s with
  | zero => omega
  | succ fuel ih =>
    unfold drainWithin
    cases herr : (S.read s n).1.err with
    | some e =>
      obtain ⟨he, hall⟩ := S.at_end s n e herr
      simp only [herr]
      exact ⟨hall.symm, congrArg some he⟩
    | none =>
      have hwork := S.work_lt s n hn herr
      obtain ⟨hbytes, hended⟩ := ih (s := (S.read s n).2) (by omega)
      simp only [herr, hbytes]
      exact ⟨(S.rest_eq s n herr).symm, hended.trans (congrArg some (S.ending_eq s n herr).symm)⟩

/-- `drain` returns all there is and the error. -/
theorem drain_eq (hn : 0 < n) (s : ρ) :
    (S.drain n s).bytes = S.rest s ∧ (S.drain n s).err = some (S.ending s) :=
  drainWithin_eq hn (Nat.lt_succ_self _)

/-! ## Discarding bytes -/

/-- A loop that discards `n` bytes, in calls for at most `most` of them, meets the end. -/
inductive EndsWithin (S : ByteSource ρ ε) (most : Nat) : Nat → ρ → Prop
  | now {n : Nat} {s : ρ} {e : ε} (hn : 0 < n) (herr : (S.read s (min most n)).1.err = some e) :
      EndsWithin S most n s
  | later {n : Nat} {s : ρ} (hn : 0 < n) (herr : (S.read s (min most n)).1.err = none)
      (hmore : EndsWithin S most (n - (S.read s (min most n)).1.bytes.length)
        (S.read s (min most n)).2) : EndsWithin S most n s

/-- Nothing is read if nothing is to be discarded. -/
theorem not_endsWithin_zero (most : Nat) (s : ρ) : ¬S.EndsWithin most 0 s := by
  intro h
  cases h with
  | now hn _ | later hn _ _ => omega

/-- After a call without an error it depends on the rest of the loop. -/
theorem endsWithin_iff (hn : 0 < n) (herr : (S.read s (min most n)).1.err = none) :
    S.EndsWithin most n s ↔ S.EndsWithin most (n - (S.read s (min most n)).1.bytes.length)
      (S.read s (min most n)).2 := by
  refine ⟨fun h => ?_, .later hn herr⟩
  cases h with
  | now _ herr' => rw [herr] at herr'; cases herr'
  | later _ _ hmore => exact hmore

/-- The end is met only if there are not more bytes than are discarded. -/
theorem EndsWithin.length_le (h : S.EndsWithin most n s) : (S.rest s).length ≤ n := by
  induction h with
  | @now n s e hn herr =>
    have hlen := S.length_le s (min most n)
    rw [(S.at_end _ _ _ herr).2]
    omega
  | @later n s hn herr hmore ih =>
    have hlen := S.length_le s (min most n)
    rw [S.rest_eq _ _ herr, List.length_append]
    omega

/-- It is met if there are fewer. If there are as many, the reader may report it with the last of
them or afterwards. -/
theorem endsWithin_of_lt (hmost : 0 < most) (h : (S.rest s).length < n) :
    S.EndsWithin most n s := by
  -- A call without an error leaves less work.
  induction hwork : S.work s using Nat.strongRecOn generalizing n s with
  | _ work ih =>
    cases herr : (S.read s (min most n)).1.err with
    | some e => exact .now (by omega) herr
    | none =>
      have hless := S.work_lt s (min most n) (by omega) herr
      rw [S.rest_eq _ _ herr, List.length_append] at h
      exact .later (by omega) herr (ih _ (hwork ▸ hless) (by omega) rfl)

/-! ## Bytes in front of a stream -/

/-- Hand out the bytes in front first. -/
def readPrefixed (S : ByteSource ρ ε) (s : List UInt8 × ρ) (n : Nat) : Chunk ε × (List UInt8 × ρ) :=
  if s.1 = [] then ((S.read s.2 n).1, ([], (S.read s.2 n).2))
  else (⟨s.1.take n, none⟩, (s.1.drop n, s.2))

/-- Some bytes, and then a stream. -/
def prefixed (S : ByteSource ρ ε) : ByteSource (List UInt8 × ρ) ε where
  read := readPrefixed S
  rest s := s.1 ++ S.rest s.2
  ending s := S.ending s.2
  work s := s.1.length + S.work s.2
  length_le s n := by
    unfold readPrefixed
    split
    · exact S.length_le s.2 n
    · exact List.length_take_le n s.1
  rest_eq s n := by
    unfold readPrefixed
    split
    · rename_i hnil
      intro herr
      simpa [hnil] using S.rest_eq s.2 n herr
    · intro _
      simp [← List.append_assoc]
  ending_eq s n := by
    unfold readPrefixed
    split
    · exact S.ending_eq s.2 n
    · exact fun _ => rfl
  work_le s n := by
    unfold readPrefixed
    split
    · rename_i hnil
      intro herr
      simpa [hnil] using S.work_le s.2 n herr
    · intro _
      simp only [List.length_drop]
      omega
  work_lt s n hn := by
    unfold readPrefixed
    split
    · rename_i hnil
      intro herr
      simpa [hnil] using S.work_lt s.2 n hn herr
    · rename_i hne
      intro _
      have hpos := List.length_pos_iff.mpr hne
      simp only [List.length_drop]
      omega
  at_end s n e := by
    unfold readPrefixed
    split
    · rename_i hnil
      intro herr
      simpa [hnil] using S.at_end s.2 n e herr
    · simp

end ByteSource

/-! ## Readers given by a list -/

/-- How a call behaves: how many bytes it returns at most, and whether it reports the end if it has
come to it. -/
structure Pace where
  most : Nat
  reports : Bool
deriving DecidableEq

/-- A reader at a position of its content, that may have reported the end. Calls that are not in the
list return what fits and report the end. -/
structure Paced where
  pos : Nat
  pace : List Pace
  reported : Bool := false
deriving DecidableEq

namespace Paced

variable {ε : Type*} (content : List UInt8) (ending after : ε)

variable (s : Paced)

def rest : List UInt8 := content.drop s.pos

/-- The end is reported as `ending` first and as `after` from then on. -/
def error : ε := if s.reported then after else ending

def read (n : Nat) : Chunk ε × Paced :=
  let p := s.pace.headD ⟨n, true⟩
  let bytes := (rest content s).take (min n p.most)
  if bytes.length = (rest content s).length ∧ p.reports then
    (⟨bytes, some (error ending after s)⟩, ⟨s.pos + bytes.length, s.pace.tail, true⟩)
  else (⟨bytes, none⟩, ⟨s.pos + bytes.length, s.pace.tail, s.reported⟩)

/-- The call, with its branches joined where they agree. -/
theorem read_eq (n : Nat) :
    (read content ending after s n).1.bytes =
        (rest content s).take (min n (s.pace.headD ⟨n, true⟩).most) ∧
      (read content ending after s n).2.pos =
        s.pos + ((rest content s).take (min n (s.pace.headD ⟨n, true⟩).most)).length ∧
      (read content ending after s n).2.pace = s.pace.tail := by
  unfold read
  dsimp only
  split <;> exact ⟨rfl, rfl, rfl⟩

/-- The bytes of a call and the rest after it are the rest before. -/
theorem rest_read (n : Nat) :
    (read content ending after s n).1.bytes ++ rest content (read content ending after s n).2 =
      rest content s := by
  obtain ⟨hbytes, hpos, -⟩ := read_eq content ending after s n
  have hdrop : ∀ k, (rest content s).drop ((rest content s).take k).length = (rest content s).drop k := by
    intro k
    rcases Nat.le_total k (rest content s).length with hk | hk
    · rw [List.length_take_of_le hk]
    · rw [List.take_of_length_le hk, List.drop_length, List.drop_of_length_le hk]
  have hrest : rest content (read content ending after s n).2 =
      (rest content s).drop (min n (s.pace.headD ⟨n, true⟩).most) := by
    rw [← hdrop, rest, hpos, rest, List.drop_drop]
  rw [hbytes, hrest, List.take_append_drop]

/-- The reader as a source. -/
def source : ByteSource Paced ε where
  read := read content ending after
  rest := rest content
  ending := error ending after
  work s := s.pace.length + (rest content s).length
  length_le s n := by
    rw [(read_eq content ending after s n).1, List.length_take]
    omega
  rest_eq s n _ := (rest_read content ending after s n).symm
  ending_eq s n herr := by
    unfold read at herr ⊢
    dsimp only at herr ⊢
    split at herr
    · simp at herr
    · rw [if_neg (by assumption)]
      rfl
  work_le s n _ := by
    have hrest := congrArg List.length (rest_read content ending after s n)
    rw [(read_eq content ending after s n).2.2, List.length_tail]
    rw [List.length_append] at hrest
    omega
  work_lt s n hn herr := by
    have hrest := congrArg List.length (rest_read content ending after s n)
    obtain ⟨hbytes, -, htail⟩ := read_eq content ending after s n
    rw [List.length_append] at hrest
    rw [htail]
    cases hpace : s.pace with
    | cons p pace =>
      rw [List.tail_cons, List.length_cons]
      omega
    | nil =>
      -- Without a pace the call would have reported the end.
      have hlen : (read content ending after s n).1.bytes.length = min n (rest content s).length := by
        simp [hbytes, hpace]
      have hmore : (read content ending after s n).1.bytes.length ≠ (rest content s).length := by
        intro hall
        rw [hbytes] at hall
        unfold read at herr
        dsimp only at herr
        rw [if_pos ⟨hall, by simp [hpace]⟩] at herr
        simp at herr
      rw [List.tail_nil, List.length_nil]
      omega
  at_end s n e herr := by
    unfold read at herr ⊢
    dsimp only at herr ⊢
    split at herr
    · rename_i hall
      rw [if_pos hall]
      exact ⟨(Option.some.inj herr).symm, ((List.take_prefix _ _).eq_of_length hall.1).symm⟩
    · simp at herr

end Paced
