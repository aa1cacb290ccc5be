import OCache.Streaming.Relay

/-!
# Streaming puts are all or nothing

A put of which the client sent only a part must not become a value. The owner keeps that promise for
the stream it receives: its storage sees the end of the body only if the handler closed the pipe
cleanly, and the handler does so only at the end of the stream. The relay of conditional puts keeps
it as well: when the client's upload fails it returns, and the owner's call is cancelled. The relay
of plain puts does not: it closes its stream to the owner, who takes the chunks so far for the
value.
-/

namespace OCache.Streaming

open EventSystem

/-! ## The owner -/

/-- The handler may still write to the pipe. -/
@[simp] def OwnerPc.Feeding : OwnerPc → Prop
  | .wait _ _ => False
  | .done _ => False
  | _ => True

/-- What the handler has received and not yet begun to write. -/
@[simp] def OwnerPc.held : OwnerPc → List UInt8
  | .write data => data
  | _ => []

@[simp] lemma held_next (m : Request) : (Owner.next m).held = m.data := by
  unfold Owner.next
  split
  · rename_i h
    simp only [List.isEmpty_iff] at h
    simp [h]
  · rfl

lemma next_ne_recvFirst (m : Request) : Owner.next m ≠ .recvFirst := by
  unfold Owner.next
  split <;> simp

/-- What storage has read of a body that is not complete. -/
def StoragePc.reading : StoragePc → Option (List UInt8)
  | .head acc => some acc
  | .copy acc => some acc
  | _ => none

/-- The owner has lost none of the bytes it received, and it completes a body only at the end of its
stream. -/
structure Owner.Fed (o : Owner) : Prop where
  first : ∀ m, o.first = some m → o.inbound.received.head? = some m
  start : o.pc = .recvFirst → o.inbound.received = [] ∧ o.storage.reading = none
  /-- The bytes received are those read, those in the pipe and those about to be written. -/
  bytes : ∀ acc, o.storage.reading = some acc → o.pc.Feeding →
    acc ++ o.pipe.inFlight ++ o.pc.held = body o.inbound.received
  writer : o.pc.Feeding → o.pipe.werr = none
  idle : o.pc ≠ .writing → o.pipe.pending = none
  eof : o.pipe.werr = some .eof → o.inbound.Complete ∧
    ∀ acc, o.storage.reading = some acc → acc = body o.inbound.received
  ready : ∀ stored, o.storage = .commit stored →
    o.inbound.Complete ∧ stored.value = body o.inbound.received
  committed : ∀ c, o.committed = some c → o.inbound.Complete ∧
    some c.key = o.inbound.received.head?.map Request.key ∧
      c.stored.value = body o.inbound.received

namespace Owner.Fed

variable {o : Owner} {method : Method}

lemma init : Fed {} where
  first := by simp
  start := by simp [StoragePc.reading]
  bytes := by simp [StoragePc.reading]
  writer _ := rfl
  idle _ := rfl
  eof := by simp
  ready := by simp
  committed := by simp

variable {i : HalfStream Request} {m : Request} {queue : List Request} {storage : StoragePc}
  {fails : Option String} {n inlineThreshold : Nat}

/-- The sender moves. -/
theorem of_sends (h : Fed o) (hs : HalfStream.Sends o.inbound i) : Fed { o with inbound := i } where
  first m hm := by rw [hs.received]; exact h.first m hm
  start hpc := by rw [hs.received]; exact h.start hpc
  bytes acc hacc hpc := by rw [hs.received]; exact h.bytes acc hacc hpc
  writer := h.writer
  idle := h.idle
  eof he := by rw [hs.received]; exact ⟨hs.complete (h.eof he).1, (h.eof he).2⟩
  ready stored hr := by
    rw [hs.received]; exact ⟨hs.complete (h.ready stored hr).1, (h.ready stored hr).2⟩
  committed c hc := by
    rw [hs.received]; exact ⟨hs.complete (h.committed c hc).1, (h.committed c hc).2⟩

/-- The handler returns. -/
theorem done (h : Fed o) (hidle : o.pc ≠ .writing) (reply : Reply) :
    Fed { o with pc := .done reply } :=
  { h with
    start := by simp
    bytes := by simp
    writer := by simp
    idle := fun _ => h.idle hidle }

/-- Nothing is complete as long as the stream has messages. -/
theorem not_complete (hqueue : i.queue = m :: queue) : ¬i.Complete := fun hc => by
  rw [hc.queue] at hqueue
  cases hqueue

variable (h : Fed o)

include h

/-- The handler receives a chunk. What it does with it is `pc` and `storage`. -/
theorem receive {pc : OwnerPc} {first : Option Request} (hqueue : o.inbound.queue = m :: queue)
    (hidle : o.pc ≠ .writing)
    (hfirst : ∀ m', first = some m' → (o.inbound.received ++ [m]).head? = some m')
    (hrecv : pc ≠ .recvFirst)
    (hready : ∀ stored, storage = .commit stored → o.storage = .commit stored)
    (hbytes : ∀ acc, storage.reading = some acc → pc.Feeding →
      acc ++ pc.held = body o.inbound.received ++ m.data) (hwriter : pc.Feeding → o.pc.Feeding) :
    Fed { o with
      inbound := o.inbound.recv
      first := first
      pc := pc
      storage := storage } := by
  have hopen : ¬o.inbound.Complete := not_complete hqueue
  have hpending := h.idle hidle
  rw [HalfStream.recv_of_queue hqueue]
  exact
    { first := hfirst
      start := fun hpc => absurd hpc hrecv
      bytes := by
        intro acc hacc hpc
        rw [body_append, body_singleton, ← hbytes acc hacc hpc]
        simp [hpending]
      writer := fun hpc => h.writer (hwriter hpc)
      idle := fun _ => hpending
      -- the stream was not at its end before, so nothing had been completed
      eof := fun he => absurd (h.eof he).1 hopen
      ready := fun stored hr => absurd (h.ready stored (hready stored hr)).1 hopen
      committed := fun c hc => absurd (h.committed c hc).1 hopen }

lemma recvFirst {overBudget : Bool} : Fed (o.recvFirst method fails overBudget) := by
  unfold Owner.recvFirst
  split
  · rename_i hpc _
    exact h.done (by simp [hpc]) _
  · rename_i m hpc hrecv
    obtain ⟨queue, hqueue⟩ := queue_of_recvChunk hrecv
    obtain ⟨hnone, hreading⟩ := h.start hpc
    have hidle : o.pc ≠ .writing := by simp [hpc]
    have hfirst : ∀ m', some m = some m' → (o.inbound.received ++ [m]).head? = some m' := by
      simp [hnone]
    -- the call ends with the first chunk
    have hends : ∀ reply : Reply, Fed { o with
        inbound := o.inbound.recv
        first := some m
        pc := .done reply } := fun reply =>
      h.receive hqueue hidle hfirst (by simp) (fun _ hr => hr) (by simp)
        (by simp)
    dsimp only
    split
    · exact hends _
    · split
      · exact hends _
      · refine h.receive hqueue hidle hfirst (next_ne_recvFirst m) (by simp) ?_
          (fun _ => by simp [hpc])
        intro acc hacc _
        simp only [StoragePc.reading, Option.some.injEq] at hacc
        simp [← hacc, hnone, -OwnerPc.held]
  · exact h

/-- The handler closes the pipe. It does so cleanly only at the end of the stream. -/
theorem closeWith {pumpErr : Option GoErr} {fromClient : Bool} (hfeeding : o.pc.Feeding)
    (hclean : pumpErr = none → o.inbound.Complete ∧
      ∀ acc, o.storage.reading = some acc → acc = body o.inbound.received) :
    Fed (o.closeWith pumpErr fromClient) where
  first := h.first
  start := by simp
  bytes := by simp
  writer := by simp
  idle _ := rfl
  eof := by
    intro he
    have hw : o.pipe.endWrite.werr = none := h.writer hfeeding
    have hclosed := Pipe.closeWriter_of_open hw pumpErr
    -- an error is not the end of the stream
    have hnone : pumpErr = none := by
      cases pumpErr with
      | none => rfl
      | some e =>
        have : (o.pipe.endWrite.closeWriter (some e)).werr = some .eof := he
        rw [hclosed] at this
        cases this
    exact hclean hnone
  ready := h.ready
  committed := h.committed

lemma write : Fed o.write := by
  unfold Owner.write
  split
  · rename_i data hpc
    have hfeeding : o.pc.Feeding := by simp [hpc]
    split
    · exact h.closeWith hfeeding (by simp)
    · rename_i hopen
      have hpending := h.idle (by simp [hpc])
      simp only [Bool.not_eq_true] at hopen
      exact
        { first := h.first
          start := by simp
          bytes := by
            intro acc hacc _
            have hold := h.bytes acc hacc hfeeding
            rw [hpc] at hold
            -- what was about to be written is now in flight
            simpa [Pipe.write, hopen, hpending] using hold
          writer := fun _ => by
            have hw := h.writer hfeeding
            simpa [Pipe.write, hopen] using hw
          idle := by simp
          eof := by
            have hw := h.writer hfeeding
            simp [Pipe.write, hopen, hw]
          ready := h.ready
          committed := h.committed }
  · exact h

lemma writeReturn : Fed o.writeReturn := by
  unfold Owner.writeReturn
  split
  · rename_i hpc
    have hfeeding : o.pc.Feeding := by simp [hpc]
    split
    · rename_i hpending
      exact
        { first := h.first
          start := by simp
          bytes := by
            intro acc hacc _
            have hold := h.bytes acc hacc hfeeding
            simpa [hpc, Pipe.endWrite, hpending] using hold
          writer := fun _ => h.writer hfeeding
          idle := fun _ => rfl
          eof := h.eof
          ready := h.ready
          committed := h.committed }
    · split
      · exact h.closeWith hfeeding (by simp)
      · exact h
  · exact h

lemma recv : Fed (o.recv fails) := by
  unfold Owner.recv
  split
  · rename_i m hpc hrecv
    obtain ⟨queue, hqueue⟩ := queue_of_recvChunk hrecv
    have hidle : o.pc ≠ .writing := by simp [hpc]
    have hfeeding : o.pc.Feeding := by simp [hpc]
    refine h.receive hqueue hidle ?_ (next_ne_recvFirst m) (fun _ hr => hr) ?_ (fun _ => hfeeding)
    · intro m' hm'
      rw [List.head?_append, h.first m' hm']
      rfl
    · intro acc hacc _
      have hold := h.bytes acc hacc hfeeding
      rw [← hold, held_next]
      simp [hpc, h.idle hidle]
  · rename_i hpc hrecv
    have hfeeding : o.pc.Feeding := by simp [hpc]
    refine h.closeWith hfeeding fun _ => ⟨complete_of_recvChunk hrecv, fun acc hacc => ?_⟩
    have hold := h.bytes acc hacc hfeeding
    simpa [hpc, OwnerPc.held, Pipe.inFlight, h.idle (by simp [hpc])] using hold
  · rename_i hpc _
    exact h.closeWith (by simp [hpc]) (by simp)
  · exact h

lemma result : Fed (o.result method) := by
  unfold Owner.result
  split
  · rename_i hpc _
    exact h.done (by simp [hpc]) _
  · exact h

/-- Storage moves on without reading. -/
theorem setStorage (storage : StoragePc) (hreading : storage.reading = none)
    (hready : ∀ stored, storage = .commit stored →
      o.inbound.Complete ∧ stored.value = body o.inbound.received) :
    Fed { o with storage := storage } :=
  { h with
    start := fun hpc => ⟨(h.start hpc).1, hreading⟩
    bytes := fun acc hacc => by rw [hreading] at hacc; cases hacc
    eof := fun he => ⟨(h.eof he).1, fun acc hacc => by rw [hreading] at hacc; cases hacc⟩
    ready := hready }

/-- Storage takes bytes out of the pipe. -/
theorem takes {acc : List UInt8} (hacc : o.storage.reading = some acc)
    (hnew : storage.reading = some (acc ++ (o.pipe.read n).1)) :
    Fed { o with pipe := (o.pipe.read n).2, storage := storage } where
  first := h.first
  start hpc := by rw [(h.start hpc).2] at hacc; cases hacc
  bytes := by
    intro acc' hacc' hpc
    rw [hnew, Option.some.injEq] at hacc'
    have hold := h.bytes acc hacc hpc
    rw [← Pipe.read_append n] at hold
    rw [← hacc', ← hold, List.append_assoc acc]
  writer hpc := by rw [Pipe.werr_read]; exact h.writer hpc
  idle hpc := by
    have hpending := h.idle hpc
    unfold Pipe.read
    split
    · exact hpending
    · simp [hpending]
  eof := by
    intro he
    rw [Pipe.werr_read] at he
    obtain ⟨hcomplete, hall⟩ := h.eof he
    refine ⟨hcomplete, fun acc' hacc' => ?_⟩
    -- nothing can be read any more
    have hdone : o.pipe.done = true := by simp [Pipe.done, he]
    rw [hnew, Option.some.injEq] at hacc'
    simpa [← hacc', Pipe.read, hdone] using hall acc hacc
  ready := by
    rintro stored rfl
    cases hnew
  committed := h.committed

lemma read : Fed (o.read inlineThreshold n) := by
  unfold Owner.read
  split
  · rename_i acc hstorage
    refine h.takes (by rw [hstorage]; rfl) ?_
    split <;> rfl
  · rename_i acc hstorage
    exact h.takes (by rw [hstorage]; rfl) rfl
  · exact h

lemma readEnd : Fed o.readEnd := by
  -- storage takes the body for complete only if the handler closed the pipe cleanly
  have hcomplete : ∀ acc, o.storage.reading = some acc → o.pipe.readCloseError = .eof →
      o.inbound.Complete ∧ acc = body o.inbound.received := fun acc hacc he =>
    have heof := h.eof (Pipe.werr_of_readCloseError he)
    ⟨heof.1, heof.2 acc hacc⟩
  unfold Owner.readEnd
  split
  · split
    · rename_i acc hstorage he
      refine h.setStorage _ rfl fun stored hr => ?_
      cases hr
      exact hcomplete acc (by rw [hstorage]; rfl) he
    · rename_i acc hstorage he
      refine h.setStorage _ rfl fun stored hr => ?_
      cases hr
      exact hcomplete acc (by rw [hstorage]; rfl) he
    · exact h.setStorage _ rfl (by simp)
    · exact h.setStorage _ rfl (by simp)
    · exact h
  · exact h

lemma fail {e : GoErr} : Fed (o.fail e) := by
  unfold Owner.fail
  split
  · exact h.setStorage _ rfl (by simp)
  · exact h.setStorage _ rfl (by simp)
  · exact h.setStorage _ rfl (by simp)
  · exact h

lemma commit {outcome : Except GoErr UInt64} : Fed (o.commit outcome) := by
  unfold Owner.commit
  split
  · rename_i stored m version hstorage hfirst
    have hready := h.ready stored hstorage
    have hreturned := h.setStorage (.returned (.ok version)) rfl (by simp)
    exact
      { hreturned with
        committed := by
          intro c hc
          simp only [Option.some.injEq] at hc
          rw [← hc, h.first m hfirst]
          exact ⟨hready.1, rfl, hready.2⟩ }
  · exact h.setStorage _ rfl (by simp)
  · exact h

/-- The reader closes the pipe. -/
theorem closeReader (e : Option GoErr) : Fed { o with pipe := o.pipe.closeReader e } := { h with }

lemma close : Fed (o.close method) := by
  unfold Owner.close
  split
  · have hclosed : ∀ pipe, Fed { o with pipe := pipe } → ∀ version,
        Fed { o with pipe := pipe, storage := .closed (.ok version) } := fun _ hp version =>
      hp.setStorage (.closed (.ok version)) rfl (by simp)
    split
    · exact hclosed _ h _
    · exact hclosed _ (h.closeReader none) _
  · rename_i e _
    exact (h.closeReader (some e)).setStorage (.closed (.error e)) rfl (by simp)
  · exact h

lemma finish : Fed o.finish := by
  unfold Owner.finish
  split
  · have hfinished := h.setStorage .finished rfl (by simp)
    exact { hfinished with }
  · exact h

lemma step (e : OwnerEvent) : Fed (o.step method inlineThreshold e) := by
  cases e with
  | recvFirst fails overBudget => exact h.recvFirst
  | write => exact h.write
  | writeReturn => exact h.writeReturn
  | recv fails => exact h.recv
  | result => exact h.result
  | read n => exact h.read
  | readEnd => exact h.readEnd
  | fail e => exact h.fail
  | commit outcome => exact h.commit
  | close => exact h.close
  | finish => exact h.finish

end Owner.Fed

/-! ## The relay -/

/-- The relay still passes chunks on. -/
@[simp] def RelayPc.Passing : RelayPc → Prop
  | .await => False
  | .done _ => False
  | _ => True

/-- The chunk that the handler is about to send. -/
@[simp] def RelayPc.held : RelayPc → List Request
  | .sendFirst m => [m]
  | .send m => [m]
  | _ => []

/-- The chunk that the goroutine offers. -/
@[simp] def Pump.held : Pump → List Request
  | .offer (.ok m) => [m]
  | _ => []

/-- The relay has sent what it received, and it closes its stream only at the end of the
client's. -/
structure Relay.Forwards (method : Method) (r : Relay) (out : HalfStream Request) : Prop where
  chunks : r.pc.Passing → out.sent ++ r.pc.held ++ r.pump.held = r.inbound.received
  opened : r.pc.Passing → out.closed = false
  /-- The goroutine starts after the first `Send`. -/
  off : (r.pc = .recvFirst ∨ ∃ m, r.pc = .sendFirst m) → r.pump = .off
  /-- Only `relayPut` has the goroutine. -/
  single : method = .putIfVersion → r.pump = .off
  eof : r.pump = .offer (.error .eof) → r.inbound.Complete
  closed : out.closed = true → r.inbound.Complete ∧ out.sent = r.inbound.received

namespace Relay.Forwards

variable {method : Method} {r : Relay} {out : HalfStream Request} {ended : Bool}

lemma init : Forwards method {} {} where
  chunks _ := rfl
  opened _ := rfl
  off _ := rfl
  single _ := rfl
  eof := by simp
  closed := by simp

variable (h : Forwards method r out)

include h

/-- The client moves. -/
theorem of_sends {i : HalfStream Request} (hs : HalfStream.Sends r.inbound i) :
    Forwards method { r with inbound := i } out :=
  { h with
    chunks := fun hpc => by rw [hs.received]; exact h.chunks hpc
    eof := fun he => hs.complete (h.eof he)
    closed := fun hc => by rw [hs.received]; exact ⟨hs.complete (h.closed hc).1, (h.closed hc).2⟩ }

/-- The owner receives, or the stream breaks. -/
theorem of_eq {out' : HalfStream Request} (hsent : out'.sent = out.sent)
    (hclosed : out'.closed = out.closed) : Forwards method r out' :=
  { h with
    chunks := by rw [hsent]; exact h.chunks
    opened := by rw [hclosed]; exact h.opened
    closed := by rw [hsent, hclosed]; exact h.closed }

/-- The relay stops passing chunks on. -/
theorem stop (pc : RelayPc) (hpc : ¬pc.Passing) : Forwards method { r with pc := pc } out :=
  { h with
    chunks := fun hp => absurd hp hpc
    opened := fun hp => absurd hp hpc
    off := fun hp => by
      exfalso
      rcases hp with hp | ⟨m, hp⟩ <;> exact hpc (by rw [show pc = _ from hp]; trivial) }

/-- `CloseSend` once everything has been passed on. -/
theorem closeSend (hpc : ¬r.pc.Passing)
    (hall : r.inbound.Complete ∧ out.sent = r.inbound.received) :
    Forwards method r (Relay.closeSend out ended) := by
  have hsent : (Relay.closeSend out ended).sent = out.sent := by
    unfold Relay.closeSend
    split <;> simp
  exact
    { h with
      chunks := fun hp => absurd hp hpc
      opened := fun hp => absurd hp hpc
      closed := fun _ => by rw [hsent]; exact hall }

/-- `CloseSend` on a call that is over has no effect. -/
theorem closeSend_of_over (hover : (out.broken || ended) = true) :
    Forwards method r (Relay.closeSend out ended) := by
  have hsame : Relay.closeSend out ended = out := by
    unfold Relay.closeSend HalfStream.closeSend
    simp only [Bool.or_eq_true] at hover
    rcases hover with hbroken | hended
    · simp [hbroken]
    · simp [hended]
  rw [hsame]
  exact h

variable {m : Request} {pump : Pump} {fails : Option String}

/-- A chunk is received: the handler or the goroutine now has it. -/
theorem receive {queue : List Request} {pc : RelayPc} (hqueue : r.inbound.queue = m :: queue)
    (hpassing : pc.Passing → r.pc.Passing)
    (hheld : pc.Passing → pc.held ++ pump.held = r.pc.held ++ r.pump.held ++ [m])
    (hoff : (pc = .recvFirst ∨ ∃ m, pc = .sendFirst m) → pump = .off)
    (hsingle : method = .putIfVersion → pump = .off) (hpump : pump ≠ .offer (.error .eof)) :
    Forwards method { r with inbound := r.inbound.recv, pc := pc, pump := pump } out := by
  have hopen : ¬r.inbound.Complete := Owner.Fed.not_complete hqueue
  rw [HalfStream.recv_of_queue hqueue]
  exact
    { chunks := by
        intro hp
        have hold := h.chunks (hpassing hp)
        rw [List.append_assoc, hheld hp, ← hold]
        simp
      opened := fun hp => h.opened (hpassing hp)
      off := hoff
      single := hsingle
      eof := fun he => absurd he hpump
      closed := fun hc => absurd (h.closed hc).1 hopen }

lemma recvFirst {route : Route} : Forwards method (r.recvFirst method fails route) out := by
  unfold Relay.recvFirst
  split
  · exact h.stop _ (by simp)
  · rename_i m hpc hrecv
    obtain ⟨queue, hqueue⟩ := queue_of_recvChunk hrecv
    have hpump := h.off (.inl hpc)
    have hends : ∀ reply : Reply, Forwards method
        { r with inbound := r.inbound.recv, pc := .done reply } out := fun reply =>
      h.receive hqueue (by simp) (by simp) (by simp)
        (fun _ => hpump) (by simp [hpump])
    dsimp only
    split
    · exact hends _
    · split
      · exact hends _
      · exact h.receive hqueue (fun _ => by simp [hpc])
          (fun _ => by simp [hpc, hpump]) (fun _ => hpump) (fun _ => hpump)
          (by simp [hpump])
  · exact h

/-- A chunk is sent, and the goroutine may start. -/
theorem sends (hpassing : r.pc.Passing) (hheld : r.pc.held = [m]) (hlive : out.broken = false)
    (hpump : pump.held = r.pump.held) (hsingle : method = .putIfVersion → pump = .off)
    (heof : pump = .offer (.error .eof) → r.pump = .offer (.error .eof)) :
    Forwards method { r with pc := .loop, pump := pump } (out.send m) where
  chunks _ := by
    have hold := h.chunks hpassing
    rw [hheld] at hold
    rw [HalfStream.sent_send (h.opened hpassing) hlive, ← hold, hpump]
    simp
  opened _ := by rw [HalfStream.closed_send]; exact h.opened hpassing
  off := by simp
  single := hsingle
  eof he := h.eof (heof he)
  closed hc := by
    rw [HalfStream.closed_send, h.opened hpassing] at hc
    cases hc

lemma sendEof (hover : (out.broken || ended) = true) :
    Forwards method (r.sendEof method out ended).1 (r.sendEof method out ended).2 := by
  have hstop := h.stop .await (by simp)
  cases method with
  | put => exact hstop
  | putIfVersion => exact hstop.closeSend_of_over hover

lemma send {outcome : SendOutcome} :
    Forwards method (r.send method out ended outcome).1 (r.send method out ended outcome).2 := by
  unfold Relay.send
  split
  · rename_i m hpc
    split
    · exact h
    · rename_i hlive
      have hoff := h.off (.inr ⟨m, hpc⟩)
      refine h.sends (by simp [hpc]) (by rw [hpc]; rfl) (by simpa using hlive) ?_ ?_ ?_
      · split <;> simp [hoff]
      · rintro rfl
        exact hoff
      · split <;> simp [hoff]
  · rename_i m hpc
    split
    · exact h
    · rename_i hlive
      exact h.sends (by simp [hpc]) (by rw [hpc]; rfl) (by simpa using hlive) rfl
        h.single id
  · split
    · rename_i hover
      exact h.sendEof hover
    · exact h
  · split
    · rename_i hover
      exact h.sendEof hover
    · exact h
  · exact h.stop _ (by simp)
  · exact h.stop _ (by simp)
  · exact h

lemma pumpRecv : Forwards method (r.pumpRecv fails) out := by
  unfold Relay.pumpRecv
  split
  · rename_i m hpump hrecv
    obtain ⟨queue, hqueue⟩ := queue_of_recvChunk hrecv
    refine h.receive hqueue id ?_ ?_ ?_ (by simp)
    · intro _
      simp [hpump]
    · intro hpc
      rw [h.off hpc] at hpump
      cases hpump
    · intro hmethod
      rw [h.single hmethod] at hpump
      cases hpump
  · rename_i e hpump hrecv
    exact
      { h with
        chunks := fun hp => by
          have hold := h.chunks hp
          simpa [hpump] using hold
        off := fun hpc => by
          rw [h.off hpc] at hpump
          cases hpump
        single := fun hmethod => by
          rw [h.single hmethod] at hpump
          cases hpump
        eof := fun he => by
          have heof : e = .eof := by simpa using he
          rw [heof] at hrecv
          exact complete_of_recvChunk hrecv }
  · exact h

/-- The `select` takes the goroutine's chunk. An error is harmless only if the call to the owner is
over. -/
theorem takeChunk (hok : ∀ e, r.pc = .loop → r.pump = .offer (.error e) → e ≠ .eof →
      (out.broken || ended) = true) :
    Forwards method (r.takeChunk out ended).1 (r.takeChunk out ended).2 := by
  -- the goroutine has work only in `relayPut`
  have hsingle : ∀ c, r.pump = .offer c → method ≠ .putIfVersion := by
    intro c hpump hmethod
    rw [h.single hmethod] at hpump
    cases hpump
  -- what becomes of the relay once it stops
  have hstop : ∀ pc : RelayPc, ¬pc.Passing → ∀ c, r.pump = .offer c →
      Forwards method { r with pc := pc, pump := .stopped } out := fun pc hpc c hpump =>
    { h.stop pc hpc with
      chunks := fun hp => absurd hp hpc
      off := fun hp => by rw [(h.stop pc hpc).off hp] at hpump; cases hpump
      single := fun hmethod => absurd hmethod (hsingle c hpump)
      eof := by simp }
  unfold Relay.takeChunk
  split
  · rename_i m hpc hpump
    exact
      { chunks := fun _ => by
          have hold := h.chunks (by simp [hpc])
          simpa [hpc, hpump] using hold
        opened := fun _ => h.opened (by simp [hpc])
        off := by simp
        single := fun hmethod => absurd hmethod (hsingle _ hpump)
        eof := by simp
        closed := h.closed }
  · rename_i hpc hpump
    have hold := h.chunks (by simp [hpc])
    refine (hstop .await (by simp) _ hpump).closeSend (by simp)
      ⟨h.eof hpump, ?_⟩
    simpa [hpc, hpump] using hold
  · rename_i e hne hpc hpump
    refine (hstop (.done _) (by simp) _ hpump).closeSend_of_over ?_
    exact hok e hpc hpump hne
  · exact h

lemma listen {owner : OwnerPc} : Forwards method (r.listen method owner fails) out := by
  unfold Relay.listen
  split
  · exact h
  · split
    · exact { h with }
    · exact { h with }
    · exact h

lemma takeReply : Forwards method (r.takeReply method) out := by
  unfold Relay.takeReply
  split
  · exact h.stop _ (by simp)
  · split
    · exact h.stop _ (by simp)
    · exact h
  · exact h

lemma recv :
    Forwards method (r.recv method out ended fails).1 (r.recv method out ended fails).2 := by
  unfold Relay.recv
  split
  · rename_i m hpc hrecv
    obtain ⟨queue, hqueue⟩ := queue_of_recvChunk hrecv
    have hoff := h.single rfl
    exact h.receive hqueue (fun _ => by simp [hpc])
      (fun _ => by simp [hpc, hoff]) (by simp) (fun _ => hoff)
      (by simp [hoff])
  · rename_i hpc hrecv
    have hold := h.chunks (by simp [hpc])
    refine (h.stop .await (by simp)).closeSend (by simp)
      ⟨complete_of_recvChunk hrecv, ?_⟩
    simpa [hpc, h.single rfl] using hold
  · exact h.stop _ (by simp)
  · exact h

end Relay.Forwards

/-! ## The system -/

/-- `relayPut` takes no error from the client while its call to the owner is open. -/
def relaysCleanly (s : State) : Event → Bool
  | .relay .takeChunk =>
    match s.relay with
    | some r =>
      match r.pc, r.pump with
      | .loop, .offer (.error .eof) => true
      | .loop, .offer (.error _) => s.owner.inbound.broken || s.owner.ended
      | _, _ => true
    | none => true
  | _ => true

/-- The invariants of both nodes. -/
structure Inv (method : Method) (s : State) : Prop where
  owner : s.owner.Fed
  relay : ∀ r, s.relay = some r → r.Forwards method s.owner.inbound

lemma inv_init (method : Method) (forwarded : Bool) : Inv method (init forwarded) where
  owner := Owner.Fed.init
  relay := by
    intro r hr
    cases forwarded with
    | false => cases hr
    | true =>
      simp only [init, if_true, Option.some.injEq] at hr
      rw [← hr]
      exact Relay.Forwards.init

/-- The owner's steps keep what was sent to it. -/
theorem Owner.step_inbound (method : Method) (inlineThreshold : Nat) (o : Owner) (e : OwnerEvent) :
    (o.step method inlineThreshold e).inbound = o.inbound ∨
      (o.step method inlineThreshold e).inbound = o.inbound.recv := by
  cases e with
  | recvFirst fails overBudget =>
    simp only [Owner.step, Owner.recvFirst]
    split
    · exact .inl rfl
    · split
      · exact .inr rfl
      · split
        all_goals exact .inr rfl
    · exact .inl rfl
  | recv fails =>
    simp only [Owner.step, Owner.recv]
    split
    · exact .inr rfl
    all_goals exact .inl rfl
  | write => simp only [Owner.step, Owner.write]; split <;> (try split) <;> exact .inl rfl
  | writeReturn =>
    simp only [Owner.step, Owner.writeReturn]
    split <;> (try split) <;> (try split) <;> exact .inl rfl
  | result => simp only [Owner.step, Owner.result]; split <;> exact .inl rfl
  | read n => simp only [Owner.step, Owner.read]; split <;> exact .inl rfl
  | readEnd =>
    simp only [Owner.step, Owner.readEnd]
    split <;> (try split) <;> exact .inl rfl
  | fail e => simp only [Owner.step, Owner.fail]; split <;> exact .inl rfl
  | commit outcome => simp only [Owner.step, Owner.commit]; split <;> exact .inl rfl
  | close => simp only [Owner.step, Owner.close]; split <;> exact .inl rfl
  | finish => simp only [Owner.step, Owner.finish]; split <;> exact .inl rfl

variable {cfg : Config} {s : State}

variable {method : Method} {e : Event}

/-- The client moves. -/
theorem Inv.mapClient (h : Inv method s) {f : HalfStream Request → HalfStream Request}
    (hf : ∀ i, HalfStream.Sends i (f i)) : Inv method (s.mapClient f) := by
  unfold State.mapClient
  split
  · rename_i r hr
    refine ⟨h.owner, fun r' hr' => ?_⟩
    simp only [Option.some.injEq] at hr'
    rw [← hr']
    exact (h.relay r hr).of_sends (hf _)
  · rename_i hr
    refine ⟨h.owner.of_sends (hf _), fun r' hr' => ?_⟩
    rw [hr] at hr'
    cases hr'

/-- The relay moves. -/
theorem Inv.relayStep (h : Inv method s) {r : Relay} {e : RelayEvent} (hr : s.relay = some r)
    (hok : relaysCleanly s (.relay e) = true) :
    (r.step method s.owner e).1.Forwards method (r.step method s.owner e).2 := by
  have hf := h.relay r hr
  cases e with
  | recvFirst fails route => exact hf.recvFirst
  | send outcome => exact hf.send
  | pumpRecv fails => exact hf.pumpRecv
  | takeChunk =>
    refine hf.takeChunk fun e hpc hpump hne => ?_
    simpa only [relaysCleanly, hr, hpc, hpump] using hok
  | listen fails => exact hf.listen
  | takeReply => exact hf.takeReply
  | recv fails => exact hf.recv

/-- The relay only sends to the owner or closes its stream. -/
theorem Relay.step_sends (method : Method) (r : Relay) (o : Owner) (e : RelayEvent) :
    HalfStream.Sends o.inbound (r.step method o e).2 := by
  have hclose : HalfStream.Sends o.inbound (Relay.closeSend o.inbound o.ended) := by
    unfold Relay.closeSend
    split
    · exact .refl _
    · exact HalfStream.sends_closeSend
  have heof : HalfStream.Sends o.inbound (r.sendEof method o.inbound o.ended).2 := by
    cases method with
    | put => exact .refl _
    | putIfVersion => exact hclose
  cases e with
  | send outcome =>
    simp only [Relay.step, Relay.send]
    split
    · split
      · exact .refl _
      · exact HalfStream.sends_send _
    · split
      · exact .refl _
      · exact HalfStream.sends_send _
    · split
      · exact heof
      · exact .refl _
    · split
      · exact heof
      · exact .refl _
    all_goals exact .refl _
  | takeChunk =>
    simp only [Relay.step, Relay.takeChunk]
    split
    · exact .refl _
    · exact hclose
    · exact hclose
    · exact .refl _
  | recv fails =>
    simp only [Relay.step, Relay.recv]
    split
    · exact .refl _
    · exact hclose
    all_goals exact .refl _
  | recvFirst fails route | pumpRecv fails | listen fails | takeReply => exact .refl _

lemma inv_step (h : Inv cfg.method s) (hok : relaysCleanly s e = true) :
    Inv cfg.method (step cfg s e) := by
  cases e with
  | clientSend m => exact h.mapClient fun _ => HalfStream.sends_send m
  | clientClose => exact h.mapClient fun _ => HalfStream.sends_closeSend
  | clientFail => exact h.mapClient fun _ => HalfStream.sends_cut
  | cut =>
    simp only [step]
    split
    · exact ⟨h.owner.of_sends HalfStream.sends_cut, fun r hr => (h.relay r hr).of_eq rfl rfl⟩
    · exact h
  | relay e =>
    simp only [step]
    split
    · rename_i r hr
      refine ⟨h.owner.of_sends (Relay.step_sends cfg.method r s.owner e), fun r' hr' => ?_⟩
      simp only [Option.some.injEq] at hr'
      rw [← hr']
      exact h.relayStep hr hok
    · exact h
  | owner e =>
    refine ⟨h.owner.step e, fun r hr => ?_⟩
    have hf := h.relay r hr
    rcases Owner.step_inbound cfg.method cfg.inlineThreshold s.owner e with hsame | hrecv
    · exact hf.of_eq (by simp only [step]; rw [hsame]) (by simp only [step]; rw [hsame])
    · exact hf.of_eq (by simp only [step]; rw [hrecv, HalfStream.sent_recv])
        (by simp only [step]; rw [hrecv, HalfStream.closed_recv])

/-- A committed row holds the whole body of a stream that the client closed. -/
def AllOrNothing (s : State) : Prop :=
  ∀ c, s.owner.committed = some c → s.client.closed = true ∧
    some c.key = s.client.sent.head?.map Request.key ∧ c.stored.value = body s.client.sent

lemma Inv.allOrNothing (h : Inv method s) : AllOrNothing s := by
  intro c hc
  obtain ⟨hcomplete, hkey, hvalue⟩ := h.owner.committed c hc
  -- what the owner received is what the client sent
  have hclient : s.client.Complete ∧ s.client.sent = s.owner.inbound.received := by
    unfold State.client
    split
    · rename_i r hr
      obtain ⟨hall, hsent⟩ := (h.relay r hr).closed hcomplete.closed
      refine ⟨hall, ?_⟩
      rw [hall.sent_eq, ← hsent, hcomplete.sent_eq]
    · exact ⟨hcomplete, hcomplete.sent_eq⟩
  rw [hclient.2]
  exact ⟨hclient.1.closed, hkey, hvalue⟩

/-- In every run in which `relayPut` takes no error from the client while its call to the owner is
open, the owner commits a value only if the client closed its stream, and then all of it. -/
theorem committed_all (cfg : Config) (forwarded : Bool) (es : List Event)
    (h : RunOk (step cfg) (fun s e => relaysCleanly s e = true) (init forwarded) es) :
    AllOrNothing (run (step cfg) (init forwarded) es) := by
  have hinv : Inv cfg.method (run (step cfg) (init forwarded) es) :=
    invariant_run (I := Inv cfg.method) (fun _ _ hI hok => inv_step hI hok)
      (inv_init cfg.method forwarded) h
  exact hinv.allOrNothing

/-- Only the relay of plain puts can take an error from the client. -/
theorem Inv.relaysCleanly (h : Inv method s) (hno : method = .putIfVersion ∨ s.relay = none)
    (e : Event) : Streaming.relaysCleanly s e = true := by
  unfold Streaming.relaysCleanly
  split
  · split
    · rename_i r hr
      have hoff : r.pump = .off := by
        rcases hno with hmethod | hnone
        · exact (h.relay r hr).single hmethod
        · rw [hnone] at hr
          cases hr
      simp [hoff]
    · rfl
  · rfl

lemma relay_step_eq_none (h : s.relay = none) : (step cfg s e).relay = none := by
  cases e <;> simp [step, State.mapClient, h]

/-- Conditional puts, and plain puts that go to the owner directly, are all or nothing in every
run. -/
theorem committed_all_of_no_relayPut (cfg : Config) (forwarded : Bool) (es : List Event)
    (h : cfg.method = .putIfVersion ∨ forwarded = false) :
    AllOrNothing (run (step cfg) (init forwarded) es) := by
  have hinv : Inv cfg.method (run (step cfg) (init forwarded) es) ∧
      (cfg.method = .putIfVersion ∨ (run (step cfg) (init forwarded) es).relay = none) := by
    refine invariant_run_of_forall
      (I := fun s => Inv cfg.method s ∧ (cfg.method = .putIfVersion ∨ s.relay = none)) ?_ ?_ es
    · rintro s e ⟨hI, hno⟩
      exact ⟨inv_step hI (hI.relaysCleanly hno e), hno.imp_right relay_step_eq_none⟩
    · refine ⟨inv_init cfg.method forwarded, h.imp_right fun hf => ?_⟩
      simp [init, hf]
  exact hinv.1.allOrNothing

/-- A chunk of a plain put. -/
def chunk (data : List UInt8) : Request := ⟨"k", data, 0, false, 0⟩

/-- The client's first chunk reaches the owner's storage through the relay. -/
def firstChunkRelayed : List Event :=
  [.clientSend (chunk [1, 2]), .relay (.recvFirst none .ok), .relay (.send .ok),
    .owner (.recvFirst none false), .owner .write, .owner (.read 8), .owner .writeReturn]

/-- The owner sees the end of its stream and commits. -/
def ownerCommits : List Event :=
  [.owner (.recv none), .owner .readEnd, .owner (.commit (.ok 0)), .owner .close, .owner .finish,
    .owner .result]

/-- The client goes on to the end. -/
def finishedUpload : List Event :=
  firstChunkRelayed ++
    ([.clientSend (chunk [3]), .relay (.pumpRecv none), .relay .takeChunk, .relay (.send .ok),
      .owner (.recv none), .owner .write, .owner (.read 8), .owner .writeReturn, .clientClose,
      .relay (.pumpRecv none), .relay .takeChunk] : List Event) ++
    ownerCommits ++ ([.relay (.listen none), .relay .takeReply] : List Event)

/-- The client fails after its first chunk. -/
def cancelledUpload : List Event :=
  firstChunkRelayed ++
    ([.clientFail, .relay (.pumpRecv (some "context canceled")), .relay .takeChunk] : List Event) ++
    ownerCommits

/-- A plain put through a relay, of which the client sent only a part, becomes a value. -/
theorem cancelled_commits : ¬AllOrNothing (run (step ⟨.put, 8⟩) (init true) cancelledUpload) := by
  intro h
  have hrow : (run (step ⟨.put, 8⟩) (init true) cancelledUpload).owner.committed =
      some ⟨"k", 0, .inline [1, 2]⟩ := by decide +kernel
  have hopen : (run (step ⟨.put, 8⟩) (init true) cancelledUpload).client.closed = false := by
    decide +kernel
  rw [(h _ hrow).1] at hopen
  cases hopen

theorem committed_all_of_no_relayPut_direct :
    (run (step ⟨.put, 8⟩) (init false) finishedUpload).owner.committed =
        some ⟨"k", 0, .inline [1, 2, 3]⟩ ∧
      AllOrNothing (run (step ⟨.put, 8⟩) (init false) finishedUpload) :=
  ⟨by decide +kernel, committed_all_of_no_relayPut ⟨.put, 8⟩ false finishedUpload (.inr rfl)⟩

theorem committed_all_finishedUpload :
    RunOk (step ⟨.put, 8⟩) (fun s e => relaysCleanly s e = true) (init true) finishedUpload ∧
      (run (step ⟨.put, 8⟩) (init true) finishedUpload).owner.committed =
        some ⟨"k", 0, .inline [1, 2, 3]⟩ ∧
      AllOrNothing (run (step ⟨.put, 8⟩) (init true) finishedUpload) := by
  have hok : RunOk (step ⟨.put, 8⟩) (fun s e => relaysCleanly s e = true) (init true)
      finishedUpload := by decide +kernel
  exact ⟨hok, by decide +kernel, committed_all ⟨.put, 8⟩ true finishedUpload hok⟩

end OCache.Streaming
