import OCache.Lib.EventSystem
import OCache.Lib.Streams

/-!
# Streaming puts

A value too large for one message is put as a stream of chunks. A node that does not own the key
relays the chunks to the owner, and the owner writes them into a pipe that its storage reads until
the end. `Put` and `PutStreamIfVersion` share the definitions here and differ where `Method` is
inspected.

Every party has its own program counter, and the goroutines of a party are separate: the relay of a
plain put receives chunks in one, waits for the owner's reply in another and sends in a third; the
owner's storage runs beside the handler that feeds it. Receives, sends and storage may fail at any
time.
-/

namespace OCache.Streaming

/-- A chunk: `pb.PutRequest`, or `pb.PutIfVersionRequest`. The first one names the key. -/
structure Request where
  key : String
  data : List UInt8
  ttlSeconds : Int
  /-- Only plain puts. -/
  shedOverBudget : Bool
  /-- Only conditional puts. -/
  expectedVersion : UInt64
deriving DecidableEq

/-- The bytes of a list of chunks. -/
def body (chunks : List Request) : List UInt8 := chunks.flatMap Request.data

@[simp] lemma body_nil : body [] = [] := rfl

@[simp] lemma body_append (xs ys : List Request) : body (xs ++ ys) = body xs ++ body ys :=
  List.flatMap_append

@[simp] lemma body_singleton (m : Request) : body [m] = m.data := by simp [body]

/-- The two streaming calls. -/
inductive Method
  | put
  | putIfVersion
deriving DecidableEq

/-- The errors that the handlers tell apart. -/
inductive GoErr
  /-- `io.EOF`. -/
  | eof
  /-- `io.ErrClosedPipe`. -/
  | closedPipe
  /-- A failed receive: the client's error, a cancellation, a lost connection. -/
  | stream (text : String)
  | overBudget
  | mismatch (current : UInt64)
  | storage (text : String)
deriving DecidableEq

/-- The text of an error as a caller sees it, after `mapStorageErrorToGRPC`. -/
def GoErr.text : GoErr → String
  | .eof => "EOF"
  | .closedPipe => "io: read/write on closed pipe"
  | .stream text => text
  | .overBudget => "rpc error: code = ResourceExhausted desc = storage capacity exceeded"
  | .mismatch current => "version mismatch (current version " ++ toString current ++ ")"
  | .storage text => text

/-- `NewIOError`, which is what storage makes of a body that it cannot read. -/
def GoErr.io : GoErr := .storage "rpc error: code = Internal desc = storage I/O error"

/-- The error that a closed pipe shows. -/
def GoErr.ofPipe : PipeEnd GoErr → GoErr
  | .eof => .eof
  | .closedPipe => .closedPipe
  | .err e => e

/-- `pb.PutResponse`, or `pb.PutIfVersionResponse`. -/
structure Response where
  success : Bool := false
  error : String := ""
  shed : Bool := false
  newVersion : UInt64 := 0
  currentVersion : UInt64 := 0
deriving DecidableEq

/-- How a call ends: with a response, or with a status error. -/
inductive Reply
  | response (r : Response)
  | status (text : String)
deriving DecidableEq

/-- A failure with a text: in the response of a plain put, as a status of a conditional one. -/
def failure (method : Method) (text : String) : Reply :=
  match method with
  | .put => .response { error := text }
  | .putIfVersion => .status text

/-- `putFailure`. -/
def putFailure (e : GoErr) : Reply := .response { error := e.text, shed := e == .overBudget }

/-- What `Recv` returns: the next chunk, the end of the stream or an error; nothing if it blocks. -/
def recvChunk (i : HalfStream Request) (fails : Option String) : Option (Except GoErr Request) :=
  match fails with
  | some text => some (.error (.stream text))
  | none =>
    match i.queue with
    | m :: _ => some (.ok m)
    | [] => if i.closed then some (.error .eof) else none

variable {fails : Option String} {i : HalfStream Request}

lemma queue_of_recvChunk {m : Request} (h : recvChunk i fails = some (.ok m)) :
    ∃ queue, i.queue = m :: queue := by
  unfold recvChunk at h
  split at h
  · simp at h
  · split at h
    · rename_i m' queue hqueue
      simp only [Option.some.injEq, Except.ok.injEq] at h
      exact ⟨queue, h ▸ hqueue⟩
    · split at h <;> simp at h

lemma complete_of_recvChunk (h : recvChunk i fails = some (.error .eof)) : i.Complete := by
  unfold recvChunk at h
  split at h
  · simp at h
  · split at h
    · simp at h
    · rename_i hqueue
      split at h
      · rename_i hclosed
        exact ⟨hclosed, hqueue⟩
      · simp at h

/-! ## The owner -/

/-- Where the owner's handler stands. -/
inductive OwnerPc
  /-- Before the first `Recv`. -/
  | recvFirst
  /-- About to write a chunk into the pipe. -/
  | write (data : List UInt8)
  /-- In `pw.Write`. -/
  | writing
  /-- Before the next `Recv`. -/
  | recv
  /-- The pipe is closed; waiting for storage. -/
  | wait (pumpErr : Option GoErr) (fromClient : Bool)
  | done (reply : Reply)

/-- The two forms in which storage keeps a value. -/
inductive Stored
  | inline (data : List UInt8)
  | rawFile (payload : List UInt8)
deriving DecidableEq

def Stored.value : Stored → List UInt8
  | .inline data => data
  | .rawFile payload => payload

/-- Where `Storage.Put` or `Storage.PutIfVersion` stands. -/
inductive StoragePc
  | idle
  /-- In `io.ReadFull` of the first `inlineThreshold + 1` bytes. -/
  | head (acc : List UInt8)
  /-- `FileManager.Write` copies the rest into a raw file. -/
  | copy (acc : List UInt8)
  /-- The body is complete; the row is next. -/
  | commit (stored : Stored)
  | returned (result : Except GoErr UInt64)
  /-- The read end of the pipe has been dealt with. -/
  | closed (result : Except GoErr UInt64)
  | finished

/-- A row that was written. -/
structure Commit where
  key : String
  ttl : Int
  stored : Stored
deriving DecidableEq

/-- The owner's side of a call. -/
structure Owner where
  inbound : HalfStream Request := {}
  pc : OwnerPc := .recvFirst
  first : Option Request := none
  pipe : Pipe UInt8 GoErr := {}
  storage : StoragePc := .idle
  errCh : Option (Except GoErr UInt64) := none
  committed : Option Commit := none

inductive OwnerEvent
  /-- The first `Recv`; `overBudget` is what `OverBudget` says. -/
  | recvFirst (fails : Option String) (overBudget : Bool)
  | write
  | writeReturn
  | recv (fails : Option String)
  | result
  /-- Storage reads up to `n` bytes. -/
  | read (n : Nat)
  /-- Storage reads from a closed pipe. -/
  | readEnd
  /-- Storage fails on its own: a mismatch, a full disk. -/
  | fail (e : GoErr)
  | commit (outcome : Except GoErr UInt64)
  | close
  | finish

namespace Owner

/-- Go on with a chunk: empty ones are skipped. -/
def next (m : Request) : OwnerPc := if m.data.isEmpty then .recv else .write m.data

variable (method : Method)

/-- The first chunk: no key and refused writes end the call, else storage starts to read. -/
def recvFirst (o : Owner) (fails : Option String) (overBudget : Bool) : Owner :=
  match o.pc, recvChunk o.inbound fails with
  | .recvFirst, some (.error e) => { o with pc := .done (failure method e.text) }
  | .recvFirst, some (.ok m) =>
    let o := { o with inbound := o.inbound.recv, first := some m }
    if m.key = "" then { o with pc := .done (failure method "missing key") }
    else if method = .put ∧ m.shedOverBudget ∧ overBudget then
      { o with pc := .done (putFailure .overBudget) }
    else { o with storage := .head [], pc := next m }
  | _, _ => o

variable (o : Owner)

/-- The handler stops feeding the pipe and closes it: cleanly, or with the error that stopped it. -/
@[simp] def closeWith (pumpErr : Option GoErr) (fromClient : Bool) : Owner :=
  { o with
    pipe := o.pipe.endWrite.closeWriter pumpErr
    pc := .wait pumpErr fromClient }

/-- `pw.Write` is called. -/
def write : Owner :=
  match o.pc with
  | .write data =>
    if o.pipe.done then o.closeWith (some (.ofPipe o.pipe.writeCloseError)) false
    else { o with pipe := o.pipe.write data, pc := .writing }
  | _ => o

/-- `pw.Write` returns: everything was read, or the reader closed the pipe. -/
def writeReturn : Owner :=
  match o.pc with
  | .writing =>
    if o.pipe.pending = some [] then { o with pipe := o.pipe.endWrite, pc := .recv }
    else if o.pipe.done then o.closeWith (some (.ofPipe o.pipe.writeCloseError)) false
    else o
  | _ => o

/-- The loop's `Recv`. -/
def recv (fails : Option String) : Owner :=
  match o.pc, recvChunk o.inbound fails with
  | .recv, some (.ok m) => { o with inbound := o.inbound.recv, pc := next m }
  | .recv, some (.error .eof) => o.closeWith none false
  | .recv, some (.error e) => o.closeWith (some e) true
  | _, _ => o

/-- The reply once storage has returned. A plain put that could not feed the pipe fails with
`firstErr(putErr, err)`, whatever storage says; a conditional one asks storage. -/
def reply (pumpErr : Option GoErr) (fromClient : Bool) :
    Except GoErr UInt64 → Reply
  | .ok version =>
    match method, pumpErr with
    | .put, some e => putFailure e
    | .put, none => .response { success := true }
    | .putIfVersion, _ => .response { success := true, newVersion := version }
  | .error e =>
    match method, e with
    | .put, e => putFailure e
    | .putIfVersion, .mismatch current => .response { currentVersion := current }
    | .putIfVersion, e => .status (if fromClient then (pumpErr.getD e).text else e.text)

def result (o : Owner) : Owner :=
  match o.pc, o.errCh with
  | .wait pumpErr fromClient, some r => { o with pc := .done (reply method pumpErr fromClient r) }
  | _, _ => o

/-- Storage reads. `io.ReadFull` asks for what is missing of the first chunk; a value that fills it
goes to a raw file. -/
def read (inlineThreshold : Nat) (o : Owner) (n : Nat) : Owner :=
  match o.storage with
  | .head acc =>
    let got := o.pipe.read (min n (inlineThreshold + 1 - acc.length))
    let acc := acc ++ got.1
    { o with
      pipe := got.2
      storage := if inlineThreshold < acc.length then .copy acc else .head acc }
  | .copy acc =>
    let got := o.pipe.read n
    { o with
      pipe := got.2
      storage := .copy (acc ++ got.1) }
  | _ => o

/-- Storage sees that the pipe is closed: the end of the body, or an error that fails the put. -/
def readEnd : Owner :=
  if o.pipe.done then
    match o.storage, o.pipe.readCloseError with
    | .head acc, .eof => { o with storage := .commit (.inline acc) }
    | .copy acc, .eof => { o with storage := .commit (.rawFile acc) }
    | .head _, _ => { o with storage := .returned (.error .io) }
    | .copy _, _ => { o with storage := .returned (.error .io) }
    | _, _ => o
  else o

/-- Storage fails before its row is written. -/
def fail (e : GoErr) : Owner :=
  match o.storage with
  | .head _ => { o with storage := .returned (.error e) }
  | .copy _ => { o with storage := .returned (.error e) }
  | .commit _ => { o with storage := .returned (.error e) }
  | _ => o

/-- The row is written. -/
def commit (outcome : Except GoErr UInt64) : Owner :=
  match o.storage, o.first, outcome with
  | .commit stored, some m, .ok version =>
    { o with
      storage := .returned (.ok version)
      committed := some ⟨m.key, m.ttlSeconds, stored⟩ }
  | .commit _, some _, .error e => { o with storage := .returned (.error e) }
  | _, _, _ => o

/-- `pr.CloseWithError`: a plain put closes the read end if it failed, a conditional one always. -/
def close (o : Owner) : Owner :=
  match o.storage with
  | .returned (.ok version) =>
    { o with
      pipe := if method = .put then o.pipe else o.pipe.closeReader none
      storage := .closed (.ok version) }
  | .returned (.error e) =>
    { o with
      pipe := o.pipe.closeReader (some e)
      storage := .closed (.error e) }
  | _ => o

def finish : Owner :=
  match o.storage with
  | .closed r =>
    { o with
      errCh := some r
      storage := .finished }
  | _ => o

def step (inlineThreshold : Nat) (o : Owner) : OwnerEvent → Owner
  | .recvFirst fails overBudget => o.recvFirst method fails overBudget
  | .write => o.write
  | .writeReturn => o.writeReturn
  | .recv fails => o.recv fails
  | .result => o.result method
  | .read n => o.read inlineThreshold n
  | .readEnd => o.readEnd
  | .fail e => o.fail e
  | .commit outcome => o.commit outcome
  | .close => o.close method
  | .finish => o.finish

/-- The handler has returned, so the call is over. -/
def ended : Bool :=
  match o.pc with
  | .done _ => true
  | _ => false

end Owner

/-! ## The relay -/

/-- Where the relay's handler stands. -/
inductive RelayPc
  | recvFirst
  | sendFirst (m : Request)
  /-- The `select` of `relayPut`, or the `Recv` of `forwardStreamingPutIfVersion`. -/
  | loop
  | send (m : Request)
  /-- Waiting for the owner's reply. -/
  | await
  | done (reply : Reply)
deriving DecidableEq

/-- The goroutine of `relayPut` that receives the client's chunks. -/
inductive Pump
  | off
  | recv
  /-- At `chunkCh <- c`. -/
  | offer (c : Except GoErr Request)
  | stopped

/-- The relay's side of a call. -/
structure Relay where
  inbound : HalfStream Request := {}
  pc : RelayPc := .recvFirst
  pump : Pump := .off
  replyCh : Option (Except String Reply) := none

/-- How finding the owner and calling it ends. -/
inductive Route
  | ok
  | routing (e : String)
  | hopLimit (e : String)
  | connect (e : String)

/-- What `Send` returns. -/
inductive SendOutcome
  | ok
  /-- `io.EOF`: the call is already over. -/
  | eof
  | err (e : String)

inductive RelayEvent
  | recvFirst (fails : Option String) (route : Route)
  | send (outcome : SendOutcome)
  /-- The goroutine's `Recv`. -/
  | pumpRecv (fails : Option String)
  /-- The `select` takes a chunk. -/
  | takeChunk
  /-- The reply, or the error in its place, arrives. -/
  | listen (fails : Option String)
  /-- The `select` takes the reply, or the wait for it is over. -/
  | takeReply
  /-- The `Recv` of `forwardStreamingPutIfVersion`. -/
  | recv (fails : Option String)

namespace Relay

variable (method : Method)

/-- The failure of a put that could not be routed. -/
def routeFailure : Route → Option Reply
  | .ok => none
  | .routing e => some (failure method ("routing error: " ++ e))
  | .hopLimit e => some (failure method e)
  | .connect e =>
    some (failure method
      (match method with
        | .put => "failed to connect to remote node: " ++ e
        | .putIfVersion => "failed to connect to owner: " ++ e))

def recvFirst (r : Relay) (fails : Option String) (route : Route) : Relay :=
  match r.pc, recvChunk r.inbound fails with
  | .recvFirst, some (.error e) => { r with pc := .done (failure method e.text) }
  | .recvFirst, some (.ok m) =>
    let r := { r with inbound := r.inbound.recv }
    if m.key = "" then { r with pc := .done (failure method "missing key") }
    else
      match routeFailure method route with
      | some reply => { r with pc := .done reply }
      | none => { r with pc := .sendFirst m }
  | _, _ => r

/-- `CloseSend`: no effect once the call is over. -/
def closeSend (out : HalfStream Request) (ended : Bool) : HalfStream Request :=
  if ended then out else out.closeSend

/-- A `Send` says that the call is over. `relayPut` waits for the reply; the other relay calls
`CloseAndRecv`. -/
def sendEof (r : Relay) (out : HalfStream Request) (ended : Bool) :
    Relay × HalfStream Request :=
  ({ r with pc := .await },
    match method with
    | .put => out
    | .putIfVersion => closeSend out ended)

/-- A `Send` to the owner. `io.EOF` is returned only for a call that is over. -/
def send (r : Relay) (out : HalfStream Request) (ended : Bool)
    (outcome : SendOutcome) : Relay × HalfStream Request :=
  match r.pc, outcome with
  | .sendFirst m, .ok =>
    if out.broken then (r, out)
    else
      -- the goroutine of `relayPut` starts after the first `Send`
      ({ r with
          pc := .loop
          pump := if method = .put then .recv else r.pump }, out.send m)
  | .send m, .ok => if out.broken then (r, out) else ({ r with pc := .loop }, out.send m)
  | .sendFirst _, .eof => if out.broken || ended then sendEof method r out ended else (r, out)
  | .send _, .eof => if out.broken || ended then sendEof method r out ended else (r, out)
  | .sendFirst _, .err e =>
    ({ r with
        pc := .done (failure method
          (match method with
            | .put => "failed to forward to remote node: " ++ e
            | .putIfVersion => e)) }, out)
  | .send _, .err e =>
    ({ r with
        pc := .done (failure method
          (match method with
            | .put => "failed to forward chunk to remote node: " ++ e
            | .putIfVersion => e)) }, out)
  | _, _ => (r, out)

/-- The goroutine of `relayPut` receives. -/
def pumpRecv (r : Relay) (fails : Option String) : Relay :=
  match r.pump, recvChunk r.inbound fails with
  | .recv, some (.ok m) => { r with inbound := r.inbound.recv, pump := .offer (.ok m) }
  | .recv, some (.error e) => { r with pump := .offer (.error e) }
  | _, _ => r

/-- The `select` of `relayPut` takes what the goroutine received. -/
def takeChunk (r : Relay) (out : HalfStream Request) (ended : Bool) : Relay × HalfStream Request :=
  match r.pc, r.pump with
  | .loop, .offer (.ok m) => ({ r with pc := .send m, pump := .recv }, out)
  | .loop, .offer (.error .eof) =>
    ({ r with pc := .await, pump := .stopped }, closeSend out ended)
  | .loop, .offer (.error e) =>
    -- the client's upload failed, and yet the owner is told that the stream is at its end
    ({ r with
        pc := .done (failure .put ("error receiving chunk: " ++ e.text))
        pump := .stopped }, closeSend out ended)
  | _, _ => (r, out)

/-- The owner's reply arrives: at a goroutine of `relayPut`, or in `CloseAndRecv`. -/
def listen (r : Relay) (owner : OwnerPc) (fails : Option String) : Relay :=
  if r.replyCh.isSome || (method == .putIfVersion && r.pc != .await) then r
  else
    match fails, owner with
    | some e, _ => { r with replyCh := some (.error e) }
    | none, .done reply => { r with replyCh := some (.ok reply) }
    | none, _ => r

/-- `relay`, or the end of `forwardStreamingPutIfVersion`. -/
def relayReply : Except String Reply → Reply
  | .ok reply => reply
  | .error e =>
    failure method
      (match method with
        | .put => "error from remote node: " ++ e
        | .putIfVersion => e)

def takeReply (r : Relay) : Relay :=
  match r.pc, r.replyCh with
  | .await, some reply => { r with pc := .done (relayReply method reply) }
  | .loop, some reply =>
    if method = .put then { r with pc := .done (relayReply method reply) } else r
  | _, _ => r

/-- The loop of `forwardStreamingPutIfVersion`. -/
def recv (r : Relay) (out : HalfStream Request) (ended : Bool)
    (fails : Option String) : Relay × HalfStream Request :=
  match method, r.pc, recvChunk r.inbound fails with
  | .putIfVersion, .loop, some (.ok m) => ({ r with inbound := r.inbound.recv, pc := .send m }, out)
  | .putIfVersion, .loop, some (.error .eof) => ({ r with pc := .await }, closeSend out ended)
  | .putIfVersion, .loop, some (.error e) => ({ r with pc := .done (.status e.text) }, out)
  | _, _, _ => (r, out)

def step (r : Relay) (o : Owner) : RelayEvent → Relay × HalfStream Request
  | .recvFirst fails route => (r.recvFirst method fails route, o.inbound)
  | .send outcome => r.send method o.inbound o.ended outcome
  | .pumpRecv fails => (r.pumpRecv fails, o.inbound)
  | .takeChunk => r.takeChunk o.inbound o.ended
  | .listen fails => (r.listen method o.pc fails, o.inbound)
  | .takeReply => (r.takeReply method, o.inbound)
  | .recv fails => r.recv method o.inbound o.ended fails

end Relay

/-! ## The system -/

/-- One streaming call. Without a relay the client talks to the owner. -/
structure State where
  relay : Option Relay
  owner : Owner := {}

/-- A call that has not started. -/
def init (forwarded : Bool) : State := { relay := if forwarded then some {} else none }

/-- The client's stream. -/
def State.client (s : State) : HalfStream Request :=
  match s.relay with
  | some r => r.inbound
  | none => s.owner.inbound

/-- The client's stream changes. -/
def State.mapClient (s : State) (f : HalfStream Request → HalfStream Request) : State :=
  match s.relay with
  | some r => { s with relay := some { r with inbound := f r.inbound } }
  | none => { s with owner := { s.owner with inbound := f s.owner.inbound } }

inductive Event
  | clientSend (m : Request)
  | clientClose
  /-- The client fails, cancels or is gone. -/
  | clientFail
  /-- The relay's call breaks: its context was cancelled, or its connection is lost. -/
  | cut
  | relay (e : RelayEvent)
  | owner (e : OwnerEvent)

structure Config where
  method : Method
  inlineThreshold : Nat

def step (cfg : Config) (s : State) : Event → State
  | .clientSend m => s.mapClient (·.send m)
  | .clientClose => s.mapClient HalfStream.closeSend
  | .clientFail => s.mapClient HalfStream.cut
  | .cut =>
    match s.relay with
    | some _ => { s with owner := { s.owner with inbound := s.owner.inbound.cut } }
    | none => s
  | .relay e =>
    match s.relay with
    | some r =>
      let moved := r.step cfg.method s.owner e
      { s with
        relay := some moved.1
        owner := { s.owner with inbound := moved.2 } }
    | none => s
  | .owner e => { s with owner := s.owner.step cfg.method cfg.inlineThreshold e }

end OCache.Streaming
