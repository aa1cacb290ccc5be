import Mathlib.Data.List.Basic

/-!
# Message streams and pipes

What a receiver can rely on when data reaches it through other parties. A half stream is one
direction of a streaming call: messages arrive in the order they were sent, and the end of the
stream shows only after the last of them and only if the sender closed it. A pipe hands bytes from a
writer to a reader of the same process without a buffer: a write is over when its bytes were read,
and either side can close it with an error that the other one then sees.
-/

/-- One direction of a streaming call. -/
structure HalfStream (M : Type*) where
  /-- The messages that the receiver has taken. -/
  received : List M := []
  /-- The messages that are under way. -/
  queue : List M := []
  /-- The sender has closed its side. -/
  closed : Bool := false
  /-- The call was cancelled or its connection is lost: nothing can be sent any more. -/
  broken : Bool := false
deriving DecidableEq

namespace HalfStream

variable {M : Type*} (s : HalfStream M)

/-- All messages sent so far, in order. -/
def sent : List M := s.received ++ s.queue

/-- The sender sends a message. -/
def send (m : M) : HalfStream M :=
  if s.closed || s.broken then s else { s with queue := s.queue ++ [m] }

/-- The sender says that there will be no more messages. -/
def closeSend : HalfStream M := if s.broken then s else { s with closed := true }

/-- The stream breaks. What was sent may still arrive. -/
def cut : HalfStream M := { s with broken := true }

/-- The receiver takes the next message. -/
def recv : HalfStream M :=
  match s.queue with
  | [] => s
  | m :: queue => { s with received := s.received ++ [m], queue := queue }

/-- The stream is closed, and the receiver has everything. -/
structure Complete : Prop where
  closed : s.closed = true
  queue : s.queue = []

variable {s}

lemma Complete.sent_eq (h : s.Complete) : s.sent = s.received := by
  unfold sent
  rw [h.queue, List.append_nil]

/-- `t` is `s` after its sender has moved, or after it broke. -/
structure Sends (s t : HalfStream M) : Prop where
  received : t.received = s.received
  complete : s.Complete → t.Complete

@[simp] lemma received_send (m : M) : (s.send m).received = s.received := by
  unfold send
  split <;> rfl

@[simp] lemma closed_send (m : M) : (s.send m).closed = s.closed := by
  unfold send
  split <;> rfl

@[simp] lemma received_closeSend : s.closeSend.received = s.received := by
  unfold closeSend
  split <;> rfl

lemma sent_send (hopen : s.closed = false) (hlive : s.broken = false) (m : M) :
    (s.send m).sent = s.sent ++ [m] := by
  simp [send, sent, hopen, hlive]

@[simp] lemma sent_closeSend : s.closeSend.sent = s.sent := by
  unfold closeSend
  split <;> rfl

@[simp] lemma sent_recv : s.recv.sent = s.sent := by
  unfold recv sent
  split
  · rfl
  · rename_i m queue hqueue
    simp [hqueue]

@[simp] lemma closed_recv : s.recv.closed = s.closed := by
  unfold recv
  split <;> rfl

lemma recv_of_queue {m : M} {queue : List M} (h : s.queue = m :: queue) :
    s.recv = { s with received := s.received ++ [m], queue := queue } := by
  unfold recv
  rw [h]

lemma Sends.refl (s : HalfStream M) : Sends s s := ⟨rfl, id⟩

lemma sends_send (m : M) : Sends s (s.send m) := by
  refine ⟨received_send m, fun hc => ?_⟩
  -- a closed stream takes no message
  have hsame : s.send m = s := by simp [send, hc.closed]
  rw [hsame]
  exact hc

lemma sends_closeSend : Sends s s.closeSend := by
  refine ⟨received_closeSend, fun hc => ?_⟩
  unfold closeSend
  split
  · exact hc
  · exact ⟨rfl, hc.queue⟩

lemma sends_cut : Sends s s.cut := ⟨rfl, fun hc => ⟨hc.closed, hc.queue⟩⟩

end HalfStream

/-- Why a pipe's other side cannot go on. -/
inductive PipeEnd (ε : Type*)
  /-- The writer has closed the pipe cleanly. -/
  | eof
  /-- The pipe was closed without an error to report. -/
  | closedPipe
  | err (e : ε)
deriving DecidableEq

/-- A pipe within a process. -/
structure Pipe (α ε : Type*) where
  /-- What the reader has not yet taken of the write in progress. -/
  pending : Option (List α) := none
  /-- How the writer closed it. -/
  werr : Option (PipeEnd ε) := none
  /-- How the reader closed it. -/
  rerr : Option (PipeEnd ε) := none
deriving DecidableEq

namespace Pipe

variable {α ε : Type*} (p : Pipe α ε)

/-- One of the sides has closed the pipe. -/
def done : Bool := p.werr.isSome || p.rerr.isSome

/-- The bytes of the write in progress. -/
@[simp] def inFlight : List α := p.pending.getD []

/-- The writer starts to write. -/
def write (b : List α) : Pipe α ε := if p.done then p else { p with pending := some b }

/-- The reader takes up to `n` bytes. -/
def read (n : Nat) : List α × Pipe α ε :=
  if p.done then ([], p)
  else (p.inFlight.take n, { p with pending := p.pending.map (List.drop n) })

/-- The write in progress is over. -/
def endWrite : Pipe α ε := { p with pending := none }

/-- The writer closes the pipe, with an error or cleanly; the first close counts. -/
def closeWriter (e : Option ε) : Pipe α ε :=
  { p with werr := p.werr.or (some (match e with | none => .eof | some e => .err e)) }

/-- The reader closes the pipe, with an error or cleanly; the first close counts. -/
def closeReader (e : Option ε) : Pipe α ε :=
  { p with rerr := p.rerr.or (some (match e with | none => .closedPipe | some e => .err e)) }

/-- What a read of a closed pipe returns. -/
def readCloseError : PipeEnd ε :=
  match p.rerr, p.werr with
  | none, some e => e
  | _, _ => .closedPipe

/-- What a write to a closed pipe returns. -/
def writeCloseError : PipeEnd ε :=
  match p.werr, p.rerr with
  | none, some e => e
  | _, _ => .closedPipe

variable {p}

/-- A reader sees the end only if the writer closed the pipe cleanly. -/
theorem werr_of_readCloseError (h : p.readCloseError = .eof) : p.werr = some .eof := by
  unfold readCloseError at h
  split at h
  · rename_i e _ hw
    rw [hw, h]
  · cases h

lemma closeWriter_of_open (h : p.werr = none) (e : Option ε) :
    (p.closeWriter e).werr = some (match e with | none => .eof | some e => .err e) := by
  simp [closeWriter, h]

/-- A read takes from the front of what is in flight. -/
theorem read_append (n : Nat) : (p.read n).1 ++ (p.read n).2.inFlight = p.inFlight := by
  unfold read
  split
  · rfl
  · cases hp : p.pending with
    | none | some b => simp [inFlight, hp]

@[simp] lemma werr_read (n : Nat) : (p.read n).2.werr = p.werr := by
  unfold read
  split <;> rfl

end Pipe
