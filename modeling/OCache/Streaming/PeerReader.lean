import OCache.Lib.EventSystem

/-!
# Reading a value from a peer

`getRemote` returns a reader over the messages of a stream. `Read` copies from the chunk that was
received last and pulls the next message when that is used up; `WriteTo` hands the chunks to a
writer without a copy. A caller can use both, in any order: what one has left of a chunk the other
goes on with. The context of the stream is cancelled when a call reports the end, or by `Close`.
-/

namespace OCache.PeerReader

open EventSystem

variable {ε ω : Type}

/-! ## The reader -/

/-- What `Recv` returns: the data of messages, and at the end `io.EOF` or another error. -/
structure Stream (ε : Type) where
  messages : List (List UInt8)
  ending : Option ε

@[simp] def Stream.data (s : Stream ε) : List UInt8 := s.messages.flatten

/-- `grpcStreamReader`. -/
structure Reader (ε : Type) where
  /-- What is still to be received. -/
  stream : Stream ε
  pending : List UInt8
  done : Bool := false
  err : Option ε := none
  /-- `cancel` is not nil. -/
  cancel : Bool := true
  /-- How often `cancel` was called. -/
  released : Nat := 0

/-- `getRemote` once it has a stream: it waits for the first message. -/
def getRemote (s : Stream ε) : Option (Reader ε) :=
  match s.messages with
  | [] => none
  | first :: rest => some { stream := ⟨rest, s.ending⟩, pending := first }

def release (r : Reader ε) : Reader ε :=
  if r.cancel then { r with cancel := false, released := r.released + 1 } else r

/-- Receive until there is data or the end. -/
def receiveFrom (r : Reader ε) : List (List UInt8) → Reader ε
  | [] => { r with stream := ⟨[], r.stream.ending⟩, done := true, err := r.stream.ending }
  | m :: rest =>
    if m = [] then receiveFrom r rest
    else { r with stream := ⟨rest, r.stream.ending⟩, pending := m }

/-- The loop on `len(r.pending) == 0` in `Read` and `WriteTo`. -/
def receive (r : Reader ε) : Reader ε :=
  if r.pending = [] ∧ r.done = false then receiveFrom r r.stream.messages else r

inductive ReadError (ε : Type)
  | eof
  | stream (e : ε)
deriving DecidableEq

/-- What a call has delivered and returned, and the reader after it. -/
structure Returned (ε δ : Type) where
  bytes : List UInt8
  err : Option δ
  reader : Reader ε

/-- `Read`. -/
def read (r : Reader ε) (size : Nat) : Returned ε (ReadError ε) :=
  let r := receive r
  if r.pending = [] then ⟨[], some (r.err.elim .eof .stream), release r⟩
  else ⟨r.pending.take size, none, { r with pending := r.pending.drop size }⟩

inductive WriteError (ε ω : Type)
  | stream (e : ε)
  | writer (e : ω)
  | shortWrite
deriving DecidableEq

/-- What the `i`-th `Write` of a writer returns for a chunk. -/
abbrev Writer (ω : Type) := Nat → List UInt8 → Int × Option ω

/-- The count and the error that `WriteTo` goes by: an impossible count is taken for 0. -/
def checkWrite (chunk : List UInt8) (answer : Int × Option ω) : Nat × Option (WriteError ε ω) :=
  if answer.1 < 0 ∨ (chunk.length : Int) < answer.1 then (0, some (answer.2.elim .shortWrite .writer))
  else (answer.1.toNat, answer.2.map .writer)

def writeChunkSize : Nat := 32 * 1024

/-- The loop of `WriteTo`, with a bound for its turns. -/
def writeLoop (w : Writer ω) : Nat → Nat → Reader ε → Option (Returned ε (WriteError ε ω))
  | 0, _, _ => none
  | fuel + 1, i, r =>
    let r := receive r
    if r.pending = [] then some ⟨[], r.err.map .stream, release r⟩
    else
      let chunk := r.pending.take writeChunkSize
      let (n, err) := checkWrite chunk (w i chunk)
      let r := { r with pending := r.pending.drop n }
      match err with
      | some e => some ⟨chunk.take n, some e, r⟩
      | none =>
        if n ≠ chunk.length then some ⟨chunk.take n, some .shortWrite, r⟩
        else (writeLoop w fuel (i + 1) r).map fun out => { out with bytes := chunk ++ out.bytes }

/-- What the reader has still to deliver. -/
@[simp] def Reader.ahead (r : Reader ε) : List UInt8 := r.pending ++ r.stream.data

/-- `WriteTo`. Every turn but the last delivers a byte. -/
def writeTo (w : Writer ω) (r : Reader ε) : Option (Returned ε (WriteError ε ω)) :=
  writeLoop w (r.ahead.length + 1) 0 r

/-- `Close`. A stream that has not ended may fail from then on, after some more messages. -/
def close (r : Reader ε) (cut : Option (Nat × ε)) : Reader ε :=
  match cut, r.done with
  | some (n, e), false => release { r with stream := ⟨r.stream.messages.take n, some e⟩ }
  | _, _ => release r

/-! ## A reader in use -/

inductive Op (ε ω : Type)
  | read (size : Nat)
  | writeTo (w : Writer ω)
  | close (cut : Option (Nat × ε))

inductive Result (ε ω : Type)
  | read (n : Nat) (err : Option (ReadError ε))
  | writeTo (n : Nat) (err : Option (WriteError ε ω))
  | close
deriving DecidableEq

/-- The end that a call reports, if it does: a clean one or an error. `WriteTo` reports a clean end
without an error, as `io.Copy` does. -/
def Result.outcome : Result ε ω → Option (Option ε)
  | .read _ (some .eof) => some none
  | .read _ (some (.stream e)) => some (some e)
  | .writeTo _ none => some none
  | .writeTo _ (some (.stream e)) => some (some e)
  | _ => none

/-- The calls after which the stream has to be released. -/
def Result.releases : Result ε ω → Bool
  | .close => true
  | r => r.outcome.isSome

structure Session (ε ω : Type) where
  reader : Reader ε
  delivered : List UInt8 := []
  results : List (Result ε ω) := []

def step (s : Session ε ω) : Op ε ω → Session ε ω
  | .read size =>
    let out := read s.reader size
    ⟨out.reader, s.delivered ++ out.bytes, s.results ++ [.read out.bytes.length out.err]⟩
  | .writeTo w =>
    match writeTo w s.reader with
    | some out =>
      ⟨out.reader, s.delivered ++ out.bytes, s.results ++ [.writeTo out.bytes.length out.err]⟩
    | none => s
  | .close cut => ⟨close s.reader cut, s.delivered, s.results ++ [.close]⟩

/-! ## Calls -/

/-- The end of the stream was received. -/
@[simp] def Reader.Ended (r : Reader ε) : Prop :=
  r.done = true → r.stream.messages = [] ∧ r.err = r.stream.ending

/-- Nothing is left but to report the end. -/
@[simp]
def Reader.Exhausted (r : Reader ε) (o : Option ε) : Prop := r.done = true ∧ r.pending = [] ∧ r.err = o

section Receive

variable (r : Reader ε)

lemma receiveFrom_spec (messages : List (List UInt8)) (hpending : r.pending = []) :
    (receiveFrom r messages).ahead = messages.flatten ∧
      (receiveFrom r messages).stream.ending = r.stream.ending ∧
      (receiveFrom r messages).cancel = r.cancel ∧ (receiveFrom r messages).released = r.released ∧
      ((receiveFrom r messages).pending = [] →
        (receiveFrom r messages).done = true ∧ (receiveFrom r messages).Ended) ∧
      ((receiveFrom r messages).done = true → r.done = true ∨ (receiveFrom r messages).pending = []) := by
  induction messages with
  | nil => simp [receiveFrom, hpending]
  | cons m rest ih =>
    by_cases hm : m = []
    · simpa [receiveFrom, hm] using ih
    · simp [receiveFrom, hm]

/-- What the loop on an empty chunk leaves. -/
structure Receives (r r' : Reader ε) : Prop where
  ahead : r'.ahead = r.ahead
  ending : r'.stream.ending = r.stream.ending
  cancel : r'.cancel = r.cancel
  released : r'.released = r.released
  ended : r.Ended → r'.Ended
  exhausted : r.Ended → r'.pending = [] → r'.Exhausted r'.stream.ending
  keeps : ∀ o, r.Exhausted o → r' = r

lemma receives_receive : Receives r (receive r) := by
  unfold receive
  split
  · rename_i h
    obtain ⟨hpending, hdone⟩ := h
    obtain ⟨hahead, hending, hcancel, hreleased, hempty, hdone'⟩ :=
      receiveFrom_spec r r.stream.messages hpending
    have hended : (receiveFrom r r.stream.messages).Ended := fun hd =>
      (hempty ((hdone' hd).resolve_left (by simp [hdone]))).2 hd
    refine ⟨?_, hending, hcancel, hreleased, fun _ => hended, fun _ hnil => ?_, fun o ho => ?_⟩
    · rw [hahead, Reader.ahead, hpending]
      rfl
    · have hd := (hempty hnil).1
      exact ⟨hd, hnil, (hended hd).2⟩
    · simp [ho.1] at hdone
  · rename_i h
    refine ⟨rfl, rfl, rfl, rfl, id, fun hended hnil => ?_, fun _ _ => rfl⟩
    have hd : r.done = true := by simpa [hnil] using h
    exact ⟨hd, hnil, (hended hd).2⟩

end Receive

/-- What a call does: `bytes` are delivered, and the end is reported or not. -/
structure Call (r : Reader ε) (bytes : List UInt8) (outcome : Option (Option ε)) (r' : Reader ε) :
    Prop where
  ahead : r.ahead = bytes ++ r'.ahead
  ending : r'.stream.ending = r.stream.ending
  ended : r'.Ended
  keeps : ∀ o, r.Exhausted o → r'.Exhausted o
  reports : ∀ o, outcome = some o → r'.Exhausted o
  cancel : r'.cancel = (r.cancel && outcome.isNone)
  released : r'.released = r.released + if r.cancel && outcome.isSome then 1 else 0

section Calls

variable {r r' : Reader ε}

@[simp] lemma release_stream (r : Reader ε) : (release r).stream = r.stream := by
  unfold release
  split <;> rfl

@[simp] lemma release_pending (r : Reader ε) : (release r).pending = r.pending := by
  unfold release
  split <;> rfl

@[simp] lemma release_done (r : Reader ε) : (release r).done = r.done := by
  unfold release
  split <;> rfl

@[simp] lemma release_err (r : Reader ε) : (release r).err = r.err := by
  unfold release
  split <;> rfl

@[simp] lemma release_cancel (r : Reader ε) : (release r).cancel = false := by
  unfold release
  split <;> simp_all

lemma release_released (r : Reader ε) :
    (release r).released = r.released + if r.cancel then 1 else 0 := by
  unfold release
  split <;> rfl

/-- The end is reported, and the stream released. -/
theorem Receives.call_end (h : Receives r r') (hended : r.Ended) (hnil : r'.pending = []) :
    Call r [] (some r'.err) (release r') where
  ahead := by
    rw [← h.ahead]
    simp
  ending := by rw [release_stream, h.ending]
  ended := by simpa using h.ended hended
  keeps o ho := by
    rw [h.keeps o ho]
    simpa using ho
  reports o ho := by
    obtain ⟨hdone, -, herr⟩ := h.exhausted hended hnil
    simp only [Option.some.injEq] at ho
    simpa [hdone, hnil] using ho
  cancel := by simp
  released := by simp [release_released, h.cancel, h.released]

/-- Some bytes of the chunk are delivered. -/
theorem Receives.call_deliver (h : Receives r r') (hended : r.Ended) (hne : r'.pending ≠ [])
    (n : Nat) : Call r (r'.pending.take n) none { r' with pending := r'.pending.drop n } where
  ahead := by
    rw [← h.ahead, Reader.ahead, Reader.ahead, ← List.append_assoc, List.take_append_drop]
  ending := h.ending
  ended := h.ended hended
  keeps o ho := by
    have hsame := h.keeps o ho
    subst hsame
    exact absurd ho.2.1 hne
  reports := by simp
  cancel := by simp [h.cancel]
  released := by simp [h.released]

lemma call_read (hended : r.Ended) (size : Nat) (n : Nat) :
    Call r (read r size).bytes (Result.outcome (ω := ω) (.read n (read r size).err))
      (read r size).reader := by
  have hreceives := receives_receive r
  unfold read
  dsimp only
  split
  · rename_i hnil
    have hcall := hreceives.call_end hended hnil
    have houtcome : Result.outcome (ω := ω) (.read n (some ((receive r).err.elim .eof .stream))) =
        some (receive r).err := by
      cases (receive r).err <;> rfl
    rwa [houtcome]
  · rename_i hne
    exact hreceives.call_deliver hended hne size

/-- One call after another. -/
theorem Call.trans {r'' : Reader ε} {bytes bytes' : List UInt8} {o : Option (Option ε)}
    (h : Call r bytes none r') (h' : Call r' bytes' o r'') : Call r (bytes ++ bytes') o r'' where
  ahead := by rw [h.ahead, h'.ahead, List.append_assoc]
  ending := h'.ending.trans h.ending
  ended := h'.ended
  keeps o ho := h'.keeps o (h.keeps o ho)
  reports := h'.reports
  cancel := by rw [h'.cancel, h.cancel]; simp
  released := by rw [h'.released, h.released, h.cancel]; simp

lemma checkWrite_le (chunk : List UInt8) (answer : Int × Option ω) :
    (checkWrite (ε := ε) chunk answer).1 ≤ chunk.length := by
  unfold checkWrite
  split
  · exact Nat.zero_le _
  · dsimp only
    omega

lemma outcome_writeTo_end (n : Nat) (err : Option ε) :
    Result.outcome (ω := ω) (.writeTo n (err.map .stream)) = some err := by
  cases err <;> rfl

lemma checkWrite_err_ne_stream (chunk : List UInt8) (answer : Int × Option ω) (n : Nat)
    {e : WriteError ε ω} (h : (checkWrite chunk answer).2 = some e) :
    Result.outcome (.writeTo n (some e)) = none := by
  unfold checkWrite at h
  split at h
  · rcases answer with ⟨count, _ | err⟩ <;> cases h <;> rfl
  · obtain ⟨err, -, rfl⟩ := Option.map_eq_some_iff.mp h
    rfl

variable (w : Writer ω)

/-- The writer takes every chunk whole. -/
def Accepts : Prop := ∀ i chunk, w i chunk = ((chunk.length : Int), none)

lemma checkWrite_of_accepts {w : Writer ω} (h : Accepts w) (i : Nat) (chunk : List UInt8) :
    checkWrite (ε := ε) chunk (w i chunk) = (chunk.length, none) := by
  rw [h i chunk, checkWrite, if_neg (by simp)]
  simp

/-- The loop of `WriteTo` comes to an end, and delivers what the writer has taken. It reports the
end of the stream if the writer takes everything. -/
theorem call_writeLoop (hended : r.Ended) {fuel : Nat} (hfuel : r.ahead.length < fuel)
    (i : Nat) : ∃ out, writeLoop w fuel i r = some out ∧
      (∀ n, Call r out.bytes (Result.outcome (.writeTo n out.err)) out.reader) ∧
      (Accepts w → out.err = out.reader.err.map .stream) := by
  induction fuel generalizing r i with
  | zero => omega
  | succ fuel ih =>
    have hreceives := receives_receive r
    unfold writeLoop
    dsimp only
    by_cases hnil : (receive r).pending = []
    · refine ⟨_, if_pos hnil, fun n => ?_, fun _ => by simp⟩
      rw [outcome_writeTo_end]
      exact hreceives.call_end hended hnil
    · rw [if_neg hnil]
      generalize hchunk : (receive r).pending.take writeChunkSize = chunk
      generalize hanswer : checkWrite chunk (w i chunk) = answer
      obtain ⟨n, err⟩ := answer
      have hn : n ≤ chunk.length := by
        have hle := checkWrite_le (ε := ε) chunk (w i chunk)
        rwa [hanswer] at hle
      -- What the writer has taken of the chunk is a beginning of the pending bytes.
      have htake : chunk.take n = (receive r).pending.take n := by
        rw [← hchunk, List.take_take, min_eq_left]
        exact hn.trans (by rw [← hchunk]; exact List.length_take_le _ _)
      have hdeliver := hreceives.call_deliver hended hnil n
      rw [← htake] at hdeliver
      dsimp only
      cases err with
      | some e =>
        refine ⟨_, rfl, fun k => ?_, fun haccepts => ?_⟩
        · rw [checkWrite_err_ne_stream chunk (w i chunk) k (by rw [hanswer])]
          exact hdeliver
        · rw [checkWrite_of_accepts haccepts] at hanswer
          cases hanswer
      | none =>
        by_cases hshort : n = chunk.length
        · subst hshort
          rw [List.take_length] at hdeliver
          have hne : chunk ≠ [] := by
            rw [← hchunk, ne_eq, List.take_eq_nil_iff]
            simp [hnil, writeChunkSize]
          have hlen := congrArg List.length hdeliver.ahead
          have hpos := List.length_pos_iff.mpr hne
          rw [List.length_append] at hlen
          obtain ⟨out, hout, hcall, hend⟩ := ih hdeliver.ended (by omega) (i + 1)
          exact ⟨{ out with bytes := chunk ++ out.bytes }, by simp [hout],
            fun k => hdeliver.trans (hcall k), hend⟩
        · refine ⟨_, if_pos hshort, fun k => hdeliver, fun haccepts => ?_⟩
          rw [checkWrite_of_accepts haccepts] at hanswer
          cases hanswer
          exact absurd rfl hshort

lemma call_writeTo (hended : r.Ended) : ∃ out, writeTo w r = some out ∧
    (∀ n, Call r out.bytes (Result.outcome (.writeTo n out.err)) out.reader) ∧
      (Accepts w → out.err = out.reader.err.map .stream) :=
  call_writeLoop w hended (Nat.lt_succ_self _) 0

end Calls

/-! ## Sessions -/

/-- What holds of a reader in use over a stream `s`. `cut` says that a `Close` has cut it off. -/
structure Inv (s : Stream ε) (cut : Bool) (t : Session ε ω) : Prop where
  ended : t.reader.Ended
  ahead : t.delivered ++ t.reader.ahead <+: s.data
  whole : cut = false → t.delivered ++ t.reader.ahead = s.data ∧ t.reader.stream.ending = s.ending
  reports : ∀ r ∈ t.results, ∀ o, r.outcome = some o → t.reader.Exhausted o
  cancel : t.reader.cancel = !t.results.any Result.releases
  released : t.reader.released = if t.results.any Result.releases then 1 else 0

/-- The operation may cut the stream off. -/
def Op.cuts : Op ε ω → Bool
  | .close (some _) => true
  | _ => false

section Session

variable {s : Stream ε} {t : Session ε ω} {cut : Bool}

lemma inv_getRemote {r : Reader ε} (h : getRemote s = some r) :
    Inv (ω := ω) s false { reader := r } := by
  unfold getRemote at h
  split at h
  · cases h
  · rename_i first rest hmessages
    cases h
    exact
      { ended := by simp
        ahead := by simp [hmessages]
        whole := fun _ => ⟨by simp [hmessages], rfl⟩
        reports := by simp
        cancel := rfl
        released := rfl }

variable (h : Inv s cut t)

include h

/-- A call of `Read` or `WriteTo`. -/
theorem Inv.call {bytes : List UInt8} {result : Result ε ω} {r : Reader ε}
    (hresult : result ≠ .close) (hcall : Call t.reader bytes result.outcome r) :
    Inv s cut ⟨r, t.delivered ++ bytes, t.results ++ [result]⟩ := by
  have hreleases : result.releases = result.outcome.isSome := by
    cases result
    case close => exact absurd rfl hresult
    all_goals rfl
  have hany : (t.results ++ [result]).any Result.releases =
      (t.results.any Result.releases || result.outcome.isSome) := by
    simp [List.any_append, hreleases]
  have hahead : (t.delivered ++ bytes) ++ r.ahead = t.delivered ++ t.reader.ahead := by
    rw [List.append_assoc, ← hcall.ahead]
  exact
    { ended := hcall.ended
      ahead := by
        rw [hahead]
        exact h.ahead
      whole := fun hcut => by
        rw [hahead, hcall.ending]
        exact h.whole hcut
      reports := by
        intro x hx o ho
        rcases List.mem_append.mp hx with hold | hnew
        · exact hcall.keeps o (h.reports x hold o ho)
        · rw [List.mem_singleton.mp hnew] at ho
          exact hcall.reports o ho
      cancel := by
        rw [hany, hcall.cancel, h.cancel]
        cases result.outcome <;> simp
      released := by
        rw [hany, hcall.released, h.released, h.cancel]
        cases t.results.any Result.releases <;> cases result.outcome <;> rfl }

lemma Inv.read (size : Nat) : Inv s cut (step t (.read size)) :=
  h.call (by simp) (call_read h.ended size _)

lemma Inv.writeTo (w : Writer ω) : Inv s cut (step t (.writeTo w)) := by
  obtain ⟨out, hout, hcall, -⟩ := call_writeTo w h.ended
  simp only [step, hout]
  exact h.call (by simp) (hcall _)

/-- `Close` releases the stream unless that was done. -/
theorem Inv.release_close :
    (release t.reader).cancel = !(t.results ++ [Result.close]).any Result.releases ∧
      (release t.reader).released = if (t.results ++ [Result.close]).any Result.releases then 1 else 0 := by
  have hany : (t.results ++ [Result.close]).any Result.releases = true := by
    simp [List.any_append, Result.releases]
  rw [hany, release_cancel, release_released, h.cancel, h.released]
  cases t.results.any Result.releases <;> exact ⟨rfl, rfl⟩

lemma Inv.close (op : Option (Nat × ε)) :
    Inv s (cut || (Op.cuts (ω := ω) (.close op))) (step t (.close op)) := by
  have hreports : ∀ x ∈ t.results ++ [Result.close], ∀ o, x.outcome = some o →
      t.reader.Exhausted o := by
    intro x hx o ho
    rcases List.mem_append.mp hx with hold | hnew
    · exact h.reports x hold o ho
    · rw [List.mem_singleton.mp hnew] at ho
      cases ho
  obtain ⟨hcancel, hreleased⟩ := h.release_close
  simp only [step, PeerReader.close]
  split
  · rename_i _ _ n e hdone
    -- Messages that have not been received may be lost, and an error takes the place of the end.
    have hlost : (t.reader.stream.messages.take n).flatten <+: t.reader.stream.messages.flatten := by
      nth_rewrite 2 [← List.take_append_drop n t.reader.stream.messages]
      rw [List.flatten_append]
      exact List.prefix_append _ _
    exact
      { ended := by simp [hdone]
        ahead := by
          refine List.IsPrefix.trans ?_ h.ahead
          simpa using hlost
        whole := by simp [Op.cuts]
        reports := fun x hx o ho => by
          have hdone' := (hreports x hx o ho).1
          simp [hdone] at hdone'
        cancel := by rw [release_cancel] at hcancel ⊢; exact hcancel
        released := by rw [release_released] at hreleased ⊢; exact hreleased }
  · exact
      { ended := by simpa using h.ended
        ahead := by simpa using h.ahead
        whole := fun hcut => by
          have hwhole := h.whole (by simp_all)
          simpa using hwhole
        reports := fun x hx o ho => by simpa using hreports x hx o ho
        cancel := hcancel
        released := hreleased }

lemma Inv.step (op : Op ε ω) : Inv s (cut || op.cuts) (step t op) := by
  cases op with
  | read size => simpa [Op.cuts] using h.read size
  | writeTo w => simpa [Op.cuts] using h.writeTo w
  | close op => exact h.close op

lemma Inv.run (ops : List (Op ε ω)) :
    Inv s (cut || ops.any Op.cuts) (EventSystem.run PeerReader.step t ops) := by
  induction ops generalizing t cut with
  | nil => simpa using h
  | cons op ops ih => simpa [Bool.or_assoc] using ih (h.step op)

end Session

/-- A new reader after some calls. -/
def use (r : Reader ε) (ops : List (Op ε ω)) : Session ε ω := run step { reader := r } ops

/-- Every call returns. -/
theorem Inv.length_results {s : Stream ε} {cut : Bool} {t : Session ε ω} (h : Inv s cut t)
    (ops : List (Op ε ω)) :
    (EventSystem.run PeerReader.step t ops).results.length = t.results.length + ops.length := by
  induction ops generalizing t cut with
  | nil => rfl
  | cons op ops ih =>
    have hone : (PeerReader.step t op).results.length = t.results.length + 1 := by
      cases op with
      | read size => simp [PeerReader.step]
      | writeTo w =>
        obtain ⟨out, hout, -⟩ := call_writeTo w h.ended
        simp [PeerReader.step, hout]
      | close op => simp [PeerReader.step]
    rw [run_cons, ih (h.step op), hone, List.length_cons]
    omega

/-- For every stream and every sequence of calls, each of which returns: what was delivered is a
beginning of the value. If a call has reported the end then, unless `Close` has cut the stream off,
everything was delivered and the end is that of the stream; any two reports agree. `WriteTo` to a
writer that takes everything reports the end. The stream is released at most once, and it is exactly
if a call has reported the end or was a `Close`. -/
theorem delivers (s : Stream ε) {r : Reader ε} (hopen : getRemote s = some r) (ops : List (Op ε ω)) :
    (use r ops).results.length = ops.length ∧
      (use r ops).delivered <+: s.data ∧
      (∀ x ∈ (use r ops).results, ∀ o, x.outcome = some o →
        (ops.any Op.cuts = false → (use r ops).delivered = s.data ∧ o = s.ending) ∧
          ∀ y ∈ (use r ops).results, ∀ o', y.outcome = some o' → o' = o) ∧
      (∀ w, Accepts w → ∃ n, ∃ o : Option ε, (use r (ops ++ [.writeTo w])).results =
        (use r ops).results ++ [.writeTo n (o.map .stream)]) ∧
      (use r ops).reader.released = if (use r ops).results.any Result.releases then 1 else 0 := by
  have hstart := inv_getRemote (ω := ω) hopen
  have hinv := hstart.run ops
  rw [Bool.false_or] at hinv
  refine ⟨?_, (List.prefix_append _ _).trans hinv.ahead, fun x hx o ho => ⟨fun huncut => ?_, ?_⟩,
    fun w hw => ?_, hinv.released⟩
  · simpa [use] using hstart.length_results ops
  · obtain ⟨hdone, hnil, herr⟩ := hinv.reports x hx o ho
    obtain ⟨hmessages, hending⟩ := hinv.ended hdone
    obtain ⟨hwhole, hsame⟩ := hinv.whole huncut
    have hahead : (use r ops).reader.ahead = [] := by
      simp [use, hnil, hmessages]
    rw [← use, hahead, List.append_nil] at hwhole
    exact ⟨hwhole, by rw [← herr, hending, hsame]⟩
  · intro y hy o' ho'
    exact (hinv.reports y hy o' ho').2.2.symm.trans (hinv.reports x hx o ho).2.2
  · obtain ⟨out, hout, -, hend⟩ := call_writeTo w hinv.ended
    refine ⟨out.bytes.length, out.reader.err, ?_⟩
    simp [use, run_append, step, hout, hend hw]

/-! ## Uses of a reader -/

/-- Three messages, one of them empty, and a clean end. -/
def threeMessages : Stream Nat := ⟨[[1, 2], [], [3]], none⟩

/-- The reader over them. -/
def threeReader : Reader Nat := { stream := ⟨[[], [3]], none⟩, pending := [1, 2] }

def takeAll : Writer Nat := fun _ chunk => (chunk.length, none)

/-- A part of the first chunk is read and the rest is written. -/
theorem delivers_threeMessages :
    (use threeReader [.read 1, .writeTo takeAll, .read 4, .close none]).delivered = [1, 2, 3] ∧
      (use threeReader [.read 1, .writeTo takeAll, .read 4, .close none]).reader.released = 1 := by
  obtain ⟨-, -, hreports, -, hreleased⟩ :=
    delivers threeMessages (r := threeReader) rfl [.read 1, .writeTo takeAll, .read 4, .close none]
  exact ⟨((hreports (.read 0 (some .eof)) (by decide +kernel) none rfl).1 rfl).1,
    hreleased.trans (by decide +kernel)⟩

/-- A caller that stops early, or whose writer fails, releases nothing and has not got everything;
and at the clean end `Read` returns `io.EOF` where `WriteTo` returns no error. -/
theorem reader_not_released :
    (use threeReader ([.read 2] : List (Op Nat Nat))).delivered = [1, 2] ∧
      (use threeReader ([.read 2] : List (Op Nat Nat))).reader.released = 0 ∧
      (use threeReader [.writeTo fun _ _ => ((1 : Int), some 5)]).results =
        [.writeTo 1 (some (.writer 5))] ∧
      (use threeReader [.writeTo fun _ _ => ((1 : Int), some 5)]).reader.released = 0 ∧
      (use threeReader [.writeTo takeAll, .read 1]).results =
        [.writeTo 3 none, .read 0 (some .eof)] := by
  decide +kernel

end OCache.PeerReader
