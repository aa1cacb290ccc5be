import OCache.Lib.EventSystem
import OCache.Ring.Topology

/-!
# Topology answers of a changing ring

A server learns about a new ring descriptor twice: dskit's ring replaces its own view, and a watcher
sets the epoch. `GetClusterTopology` reads nodes and tokens from the view, one after the other, and
then the epoch, so an answer can have the epoch of one descriptor and the nodes of an older one. A
client that installed it refuses every later answer with that epoch: it stays with the old tokens
until the ring changes again.

Descriptors are numbered in the order of their publication. Both views follow with arbitrary delays,
any number of calls interleave with them, and answers reach the client in any order.
-/

namespace OCache.Ring

open EventSystem

/-! ## The system -/

/-- Where a call of `GetClusterTopology` stands. It is noted which descriptor the ring's view had
when the call read it. -/
inductive Call where
  | idle
  | gotNodes (nodesAt : Nat) (nodes : List NodeInfo)
  | gotTokens (nodesAt tokensAt : Nat) (nodes : List NodeInfo)
      (nodeTokens : List (NodeID × List UInt32))

/-- A server with its calls, and a client. -/
structure State where
  /-- The descriptors so far, the current one last. -/
  history : List Desc
  /-- The descriptor of the ring's own view. -/
  ringAt : Nat
  /-- The descriptor that the watcher set the epoch from. -/
  epochAt : Nat
  calls : Nat → Call
  /-- The answers so far. -/
  answers : List ClusterTopology
  client : Client

/-- No node has joined. -/
@[simp] def State.init : State where
  history := [.empty]
  ringAt := 0
  epochAt := 0
  calls _ := .idle
  answers := []
  client := .new

/-- The descriptor at a position. -/
def State.desc (s : State) (i : Nat) : Desc := s.history.getD i .empty

def State.current (s : State) : Desc := s.history.getLastD .empty

/-- `GetEpoch` -/
def State.epoch (s : State) : UInt64 := computeRingEpoch (s.desc s.epochAt)

inductive Event where
  /-- A new descriptor is published. -/
  | change (d : Desc)
  /-- The ring's view moves on to a descriptor. -/
  | updateRing (i : Nat)
  /-- The watcher sets the epoch from a descriptor. -/
  | setEpoch (i : Nat)
  /-- The three reads of a call. -/
  | readNodes (call : Nat)
  | readTokens (call : Nat)
  | readEpoch (call : Nat)
  /-- The client applies an answer. -/
  | apply (answer : Nat)

def State.setCall (s : State) (call : Nat) (c : Call) : State :=
  { s with calls := Function.update s.calls call c }

def step (s : State) : Event → State
  | .change d => { s with history := s.history ++ [d] }
  -- Both views follow the history at their own pace, and may skip descriptors.
  | .updateRing i =>
    { s with ringAt := if s.ringAt ≤ i ∧ i < s.history.length then i else s.ringAt }
  | .setEpoch i =>
    { s with epochAt := if s.epochAt ≤ i ∧ i < s.history.length then i else s.epochAt }
  | .readNodes call =>
    match s.calls call with
    | .idle => s.setCall call (.gotNodes s.ringAt (getAllNodes (s.desc s.ringAt)))
    | _ => s
  | .readTokens call =>
    match s.calls call with
    | .gotNodes nodesAt nodes =>
      s.setCall call (.gotTokens nodesAt s.ringAt nodes (getNodeTokens (s.desc s.ringAt)))
    | _ => s
  | .readEpoch call =>
    match s.calls call with
    | .gotTokens _ _ nodes nodeTokens =>
      { s.setCall call .idle with answers := s.answers ++ [⟨s.epoch, nodes, nodeTokens⟩] }
    | _ => s
  -- Answers arrive in any order, and more than once.
  | .apply answer =>
    { s with client := (s.answers[answer]?).elim s.client (updateTopology s.client) }

/-! ## Tokens -/

/-- The tokens depend on what the descriptor says about each node. -/
theorem tokens_congr {d d' : Desc} (h : ∀ id, d.lookup id = d'.lookup id) (e : TokenEntry) :
    e ∈ (install (getClusterTopology d)).tokens ↔ e ∈ (install (getClusterTopology d')).tokens := by
  rw [getClusterTopology, getClusterTopology, mem_install_tokens, mem_install_tokens, Desc.route,
    Desc.route, h]

/-- The ring's view was at both reads of a call at the descriptor that the epoch is set from when
the call reads it. -/
def Timely (s : State) : Event → Prop
  | .readEpoch call =>
    match s.calls call with
    | .gotTokens nodesAt tokensAt _ _ =>
      s.desc nodesAt = s.desc s.epochAt ∧ s.desc tokensAt = s.desc s.epochAt
    | _ => True
  | _ => True

/-- Different descriptors of the list have different epochs. -/
def DistinctEpochs (ds : List Desc) : Prop :=
  ∀ d ∈ ds, ∀ d' ∈ ds, computeRingEpoch d = computeRingEpoch d' → ∀ id, d.lookup id = d'.lookup id

/-! ## Runs -/

/-- The epoch and the tokens are those of one descriptor. -/
def OneView (history : List Desc) (epoch : UInt64) (ring : RingState) : Prop :=
  ∃ d ∈ history, epoch = computeRingEpoch d ∧
    ∀ e, e ∈ ring.tokens ↔ e ∈ (install (getClusterTopology d)).tokens

variable {history : List Desc} {c : Call} {i : Nat} {s : State}

lemma OneView.mono {epoch : UInt64} {ring : RingState} (h : OneView history epoch ring)
    (d : Desc) : OneView (history ++ [d]) epoch ring := by
  obtain ⟨d', hd', hepoch, htokens⟩ := h
  exact ⟨d', List.mem_append_left _ hd', hepoch, htokens⟩

/-- What a call has read is what the descriptors say that the view had. -/
def Call.Read (history : List Desc) : Call → Prop
  | .idle => True
  | .gotNodes nodesAt nodes =>
    nodesAt < history.length ∧ nodes = getAllNodes (history.getD nodesAt .empty)
  | .gotTokens nodesAt tokensAt nodes nodeTokens =>
    (nodesAt < history.length ∧ nodes = getAllNodes (history.getD nodesAt .empty)) ∧
      tokensAt < history.length ∧ nodeTokens = getNodeTokens (history.getD tokensAt .empty)

/-- Answers and the client have one view each. -/
structure Inv (s : State) : Prop where
  ringAt : s.ringAt < s.history.length
  epochAt : s.epochAt < s.history.length
  calls : ∀ i, (s.calls i).Read s.history
  answers : ∀ a ∈ s.answers, OneView s.history a.epoch (install a)
  client : OneView s.history s.client.topologyEpoch s.client.ring

lemma inv_init : Inv .init where
  ringAt := by decide
  epochAt := by decide
  calls _ := trivial
  answers := by simp
  client := by
    refine ⟨.empty, by simp, by decide +kernel, fun e => ?_⟩
    simp [Client.new, getClusterTopology, mem_install_tokens, Desc.route, Desc.lookup, Desc.empty]

/-- An answer is applied or skipped. -/
theorem OneView.updateTopology {c : Client} {a : ClusterTopology}
    (hc : OneView history c.topologyEpoch c.ring) (ha : OneView history a.epoch (install a)) :
    OneView history (updateTopology c a).topologyEpoch (updateTopology c a).ring := by
  unfold Ring.updateTopology
  split
  · exact hc
  · exact ha

/-- What a call has read does not depend on later descriptors. -/
theorem Call.Read.append (h : c.Read history) (d : Desc) : c.Read (history ++ [d]) := by
  have hlen : history.length < (history ++ [d]).length := by simp
  cases c with
  | idle => trivial
  | gotNodes nodesAt nodes => exact ⟨h.1.trans hlen, by rw [List.getD_append _ _ _ _ h.1]; exact h.2⟩
  | gotTokens nodesAt tokensAt nodes nodeTokens =>
    exact ⟨⟨h.1.1.trans hlen, by rw [List.getD_append _ _ _ _ h.1.1]; exact h.1.2⟩, h.2.1.trans hlen,
      by rw [List.getD_append _ _ _ _ h.2.1]; exact h.2.2⟩

/-- A call that moves on has read what the view has now. -/
theorem Inv.setCall (h : Inv s) (hc : c.Read s.history) : Inv (s.setCall i c) :=
  { h with
    calls := fun j => by
      by_cases hj : j = i
      · subst hj
        simpa only [State.setCall, Function.update_self] using hc
      · simpa only [State.setCall, Function.update_of_ne hj] using h.calls j }

/-- A view that moves on stays within the history. -/
theorem follow_lt {at' length : Nat} (h : at' < length) :
    (if at' ≤ i ∧ i < length then i else at') < length := by
  split
  · rename_i hi
    exact hi.2
  · exact h

/-- A timely call answers with the epoch, the nodes and the tokens of one descriptor. -/
theorem inv_readEpoch (h : Inv s) {call : Nat} (hok : Timely s (.readEpoch call)) :
    Inv (step s (.readEpoch call)) := by
  simp only [step]
  split
  · rename_i nodesAt tokensAt nodes nodeTokens hcall
    obtain ⟨⟨-, rfl⟩, -, rfl⟩ := hcall ▸ h.calls call
    have hidle := h.setCall (i := call) (c := .idle) trivial
    refine ⟨h.ringAt, h.epochAt, hidle.calls, fun a ha => ?_, h.client⟩
    rcases List.mem_append.mp ha with ha | ha
    · exact h.answers a ha
    · obtain rfl := List.mem_singleton.mp ha
      have hdesc : s.desc s.epochAt ∈ s.history := by
        rw [State.desc, List.getD_eq_getElem _ _ h.epochAt]
        exact List.getElem_mem _
      simp only [Timely, hcall] at hok
      obtain ⟨hnodes, htokens⟩ := hok
      simp only [State.desc] at hnodes htokens
      rw [hnodes, htokens]
      exact ⟨_, hdesc, rfl, fun _ => Iff.rfl⟩
  · exact h

lemma inv_step (h : Inv s) {e : Event} (hok : Timely s e) : Inv (step s e) := by
  cases e with
  | change d =>
    have hlen : s.history.length < (s.history ++ [d]).length := by simp
    exact ⟨h.ringAt.trans hlen, h.epochAt.trans hlen, fun i => (h.calls i).append d,
      fun a ha => (h.answers a ha).mono d, h.client.mono d⟩
  | updateRing i => exact ⟨follow_lt h.ringAt, h.epochAt, h.calls, h.answers, h.client⟩
  | setEpoch i => exact ⟨h.ringAt, follow_lt h.epochAt, h.calls, h.answers, h.client⟩
  | readNodes call =>
    simp only [step]
    split
    · exact h.setCall ⟨h.ringAt, rfl⟩
    · exact h
  | readTokens call =>
    simp only [step]
    split
    · rename_i nodesAt nodes hcall
      have hread := h.calls call
      rw [hcall] at hread
      exact h.setCall ⟨hread, h.ringAt, rfl⟩
    · exact h
  | readEpoch call => exact inv_readEpoch h hok
  | apply answer =>
    refine ⟨h.ringAt, h.epochAt, h.calls, h.answers, ?_⟩
    simp only [step]
    cases hanswer : s.answers[answer]? with
    | none => exact h.client
    | some a => exact h.client.updateTopology (h.answers a (List.mem_of_getElem? hanswer))

lemma current_mem (h : Inv s) : s.current ∈ s.history := by
  have hne : s.history ≠ [] := List.ne_nil_of_length_pos (Nat.zero_lt_of_lt h.epochAt)
  rw [State.current, List.getLastD_eq_getLast?, List.getLast?_eq_some_getLast hne, Option.getD_some]
  exact List.getLast_mem hne

/-- If at both reads of every call the ring's view is at the descriptor that the epoch is set from
when the call reads it, then after every run a client with the epoch of the current descriptor has
the tokens of that descriptor, whether or not the views of the server have caught up. -/
theorem client_tokens_current (es : List Event)
    (h : RunOk step Timely .init es)
    (hdistinct : DistinctEpochs (run step .init es).history)
    (hepoch : (run step .init es).client.topologyEpoch = computeRingEpoch (run step .init es).current) :
    ∀ e, e ∈ (run step .init es).client.ring.tokens ↔
      e ∈ (install (getClusterTopology (run step .init es).current)).tokens := by
  have hinv : Inv (run step .init es) :=
    invariant_run (I := Inv) (fun _ _ hI hok => inv_step hI hok) inv_init h
  obtain ⟨d, hd, hclient, htokens⟩ := hinv.client
  have hsame := hdistinct d hd _ (current_mem hinv) (hclient.symm.trans hepoch)
  exact fun e => (htokens e).trans (tokens_congr hsame e)

/-! ## A stale answer -/

/-- The node `n` joins with a token. -/
def joined : Desc :=
  ⟨(∅ : AList fun _ : NodeID => InstanceDesc).insert [110] ⟨"10.0.0.1:1", .active, [7]⟩⟩

/-- The watcher sees the new descriptor before the ring's view does, and a call reads in between. A
second call answers when both have caught up. -/
def lateView : List Event :=
  [.change joined, .setEpoch 1, .readNodes 0, .readTokens 0, .readEpoch 0, .updateRing 1, .apply 0,
    .readNodes 1, .readTokens 1, .readEpoch 1, .apply 1]

/-- Both views have caught up and the client has the epoch of the descriptor, but none of its
tokens. -/
theorem stale_answer_installed :
    (run step .init lateView).ringAt = 1 ∧ (run step .init lateView).epochAt = 1 ∧
      (run step .init lateView).history.length = 2 ∧
      computeRingEpoch .empty ≠ computeRingEpoch joined ∧
      (run step .init lateView).client.topologyEpoch =
        computeRingEpoch (run step .init lateView).current ∧
      (run step .init lateView).client.ring.tokens = [] ∧
      (install (getClusterTopology (run step .init lateView).current)).tokens = [⟨7, [110]⟩] := by
  decide +kernel

/-- The view catches up before the call reads. -/
def timelyView : List Event :=
  [.change joined, .setEpoch 1, .updateRing 1, .readNodes 0, .readTokens 0, .readEpoch 0, .apply 0]

theorem client_tokens_current_timelyView :
    RunOk step Timely .init timelyView ∧
      ∀ e, e ∈ (run step .init timelyView).client.ring.tokens ↔
        e ∈ (install (getClusterTopology (run step .init timelyView).current)).tokens := by
  have hok : RunOk step Timely .init timelyView :=
    ⟨trivial, trivial, trivial, trivial, trivial, ⟨rfl, rfl⟩, trivial, trivial⟩
  have hhistory : (run step .init timelyView).history = [.empty, joined] := rfl
  refine ⟨hok, client_tokens_current timelyView hok ?_ (by decide +kernel)⟩
  rw [hhistory]
  have hne : computeRingEpoch .empty ≠ computeRingEpoch joined := by decide +kernel
  intro d hd d' hd' heq
  simp only [List.mem_cons, List.not_mem_nil, or_false] at hd hd'
  rcases hd with rfl | rfl <;> rcases hd' with rfl | rfl
  · exact fun _ => rfl
  · exact absurd heq hne
  · exact absurd heq.symm hne
  · exact fun _ => rfl

end OCache.Ring
