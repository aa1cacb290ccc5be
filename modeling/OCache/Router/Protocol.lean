import OCache.Lib.EventSystem
import OCache.Ring.Topology
import OCache.Router.Breaker

/-!
# The connections of the router

The router keeps one `clientState` for every node it talks to. `getClient` returns the client of a
usable connection or dials a new one. It registers the state under `Router.mu`, dials under the
one-slot semaphore `dialSem` of the state, sets the connection under the mutex of the state, and
then looks whether the state is still registered. `RemoveClient`, `RefreshConnections` and `Close`
hold `Router.mu` while they close connections and take states out of the map.

A call is a goroutine of its own and moves in atomic steps: one access to the map, one to a state
under its mutex, one atomic integer, one turn at the semaphore, one dial or one close. The `Env` of
a step has what the call does not decide: the clock, the answers of the ring, the outcome of a dial,
the state of an open connection, and the order in which a map is ranged over. A section of `mu` with
only one access to the map is one step, taken when no call has the lock.
-/

namespace OCache.Router

open OCache.Ring

/-! ## Nodes and connections -/

/-- `clientState`. Connections have numbers, and a client is the connection it was made for. -/
structure ClientState where
  client : Option Nat
  conn : Option Nat
  breaker : Breaker
  /-- The slot of `dialSem` is taken. -/
  dialing : Bool

/-- `newClientState` -/
def newClientState : ClientState where
  client := none
  conn := none
  breaker := .new
  dialing := false

/-- `connectivity.State` -/
inductive Connectivity where
  | idle
  | connecting
  | ready
  | transientFailure
  | shutdown

/-- A connection in this state is handed out. -/
def Connectivity.usable : Connectivity → Bool
  | .shutdown | .transientFailure => false
  | .idle | .connecting | .ready => true

/-- How a dial ends. -/
inductive Dial where
  | connected
  | failed
  /-- It failed and the context of the call has ended. -/
  | cancelled

/-- What a step finds outside of the router. -/
structure Env where
  now : Int := 0
  connState : Connectivity := .ready
  /-- The context has ended. -/
  cancelled : Bool := false
  allNodes : List NodeInfo := []
  activeNodes : List NodeInfo := []
  dial : Dial := .connected
  /-- The key that the range over the map comes to. -/
  next : NodeID := []

/-! ## Calls -/

/-- What a call returns. -/
inductive Answer where
  | client (c : Option Nat)
  | circuitBreakerOpen (node : NodeID)
  | ctxErr
  | nodeNotFound (node : NodeID) (addr : String)
  | connectionFailed (node : NodeID) (addr : String)
  /-- The return of `RemoveClient`, `RefreshConnections` and `Close`. -/
  | finished

/-- The calls that close connections, in their loop. -/
inductive Sweep where
  | remove
  | refresh (active : List NodeID)
  | close

/-- The next step of a call. `node` is the argument of the call and `x` the state it works on. The
flag `slow` says whether `healthyClient` is called with the dial slot. -/
inductive Phase where
  | idle
  | returned (answer : Answer)
  /-- `getClient`: look the node up. -/
  | lookup (node : NodeID)
  /-- `healthyClient`: `isCircuitOpen` -/
  | check (node : NodeID) (x : Nat) (slow : Bool) (c : Check)
  | inspect (node : NodeID) (x : Nat) (slow : Bool)
  /-- `conn.GetState` -/
  | getState (node : NodeID) (x : Nat) (slow : Bool) (conn : Nat)
  | takeClient (node : NodeID) (x : Nat) (slow : Bool)
  | register (node : NodeID)
  | dialSlot (node : NodeID) (x : Nat)
  | nodeAddr (node : NodeID) (x : Nat)
  /-- `createConnection` -/
  | dial (node : NodeID) (x : Nat) (addr : String)
  | recordFailure (node : NodeID) (x : Nat) (addr : String) (r : Record)
  /-- Set the client and the connection. -/
  | install (node : NodeID) (x : Nat) (addr : String) (conn : Nat)
  | closeOld (node : NodeID) (x : Nat) (addr : String) (conn old : Nat)
  /-- Look whether the state is still registered. -/
  | recheck (node : NodeID) (x : Nat) (addr : String) (conn : Nat)
  | closeNew (node : NodeID) (x : Nat) (addr : String) (conn : Nat)
  | resetFailures (x : Nat) (conn : Nat)
  /-- `<-dialSem`, on the way out of `getClient` -/
  | release (x : Nat) (answer : Answer)
  /-- `RemoveClient`, `RefreshConnections` and `Close`: `mu.Lock` -/
  | lockRemove (node : NodeID)
  | lockRefresh
  | lockClose
  | activeNodes
  | range (op : Sweep) (pending : List NodeID)
  /-- `closeConn`: read the connection. -/
  | readConn (op : Sweep) (pending : List NodeID) (node : NodeID) (x : Nat)
  /-- `closeConn`: close it. -/
  | closeConn (op : Sweep) (pending : List NodeID) (node : NodeID) (conn : Nat)
  | delete (op : Sweep) (pending : List NodeID) (node : NodeID)
  /-- `Close`: make a new map. -/
  | clear
  | unlock

/-- The call is not running. -/
def Phase.resting : Phase → Bool
  | .idle | .returned _ => true
  | _ => false

/-- `healthyClient` has a result: the call returns, and gives its dial slot back if it has it. -/
def Phase.leave (x : Nat) (slow : Bool) (answer : Answer) : Phase :=
  if slow then .release x answer else .returned answer

/-- `healthyClient` has failed. -/
def Phase.unhealthy (node : NodeID) (x : Nat) (slow : Bool) : Phase :=
  if slow then .nodeAddr node x else .register node

/-- The connection is set, in place of the old one if there was one. -/
def Phase.afterInstall (node : NodeID) (x : Nat) (addr : String) (conn : Nat) : Option Nat → Phase
  | some old => .closeOld node x addr conn old
  | none => .recheck node x addr conn

/-- `closeConn` has returned. -/
def Phase.afterClose (op : Sweep) (pending : List NodeID) (node : NodeID) : Phase :=
  match op with
  | .remove | .refresh _ => .delete op pending node
  -- `Close` does not delete, it replaces the map at the end.
  | .close => .range op pending

/-- The loop has ended. -/
def Phase.afterLoop : Sweep → Phase
  | .remove | .refresh _ => .unlock
  | .close => .clear

/-! ## The router -/

/-- The router, its states and connections by number, and its calls. -/
structure State where
  config : RouterConfig
  clients : AList fun _ : NodeID => Nat
  /-- The call that has `mu` for more than one step. -/
  locked : Option Nat
  state : Nat → ClientState
  /-- The number of the next new state. -/
  nextState : Nat
  /-- How many connections were dialed. -/
  dialed : Nat
  closed : Nat → Bool
  calls : Nat → Phase

/-- `NewRouterWithConfig` -/
@[simp] def State.init (config : RouterConfig) : State where
  config := config
  clients := ∅
  locked := none
  state _ := newClientState
  nextState := 0
  dialed := 0
  closed _ := false
  calls _ := .idle

variable (s : State)

/-- A call goes on to a phase. -/
@[simp] def State.goto (t : Nat) (φ : Phase) : State :=
  { s with calls := Function.update s.calls t φ }

@[simp] def State.setState (x : Nat) (y : ClientState) : State :=
  { s with state := Function.update s.state x y }

/-- `conn.Close` -/
def State.closes (c : Nat) : State :=
  { s with closed := Function.update s.closed c true }

/-- A new state is registered for a node. -/
def State.alloc (node : NodeID) : State :=
  { s with
    clients := s.clients.insert node s.nextState
    state := Function.update s.state s.nextState newClientState
    nextState := s.nextState + 1 }

/-- The address of the first node with the ID, or nothing. -/
def listenAddress (nodes : List NodeInfo) (node : NodeID) : String :=
  (nodes.find? fun n => n.id = node).elim "" NodeInfo.listenAddress

/-- One step of a call that stands at the phase. -/
def act (t : Nat) (env : Env) : Phase → State
  | .idle | .returned _ => s
  | .lookup node =>
    if s.locked = none then
      match s.clients.lookup node with
      | some x => s.goto t (.check node x false .load)
      | none => s.goto t (.register node)
    else s
  | .check node x slow (.answer isOpen) =>
    s.goto t (if isOpen then .leave x slow (.circuitBreakerOpen node) else .inspect node x slow)
  | .check node x slow c =>
    let next := (s.state x).breaker.isCircuitOpen s.config env.now c
    (s.setState x { s.state x with breaker := next.1 }).goto t (.check node x slow next.2)
  -- The connection and the client are read separately, so a dial can come in between.
  | .inspect node x slow =>
    match (s.state x).conn with
    | some c => s.goto t (.getState node x slow c)
    | none => s.goto t (.unhealthy node x slow)
  -- A closed connection is in the state `shutdown`, whatever the network does.
  | .getState node x slow c =>
    if s.closed c = false ∧ env.connState.usable then s.goto t (.takeClient node x slow)
    else s.goto t (.unhealthy node x slow)
  | .takeClient _ x slow => s.goto t (.leave x slow (.client (s.state x).client))
  | .register node =>
    if s.locked = none then
      match s.clients.lookup node with
      | some x => s.goto t (.dialSlot node x)
      | none => (s.alloc node).goto t (.dialSlot node s.nextState)
    else s
  -- If both branches of the `select` are ready, either may be taken.
  | .dialSlot node x =>
    if env.cancelled then s.goto t (.returned .ctxErr)
    else if (s.state x).dialing then s
    else (s.setState x { s.state x with dialing := true }).goto t (.check node x true .load)
  | .nodeAddr node x =>
    if listenAddress env.allNodes node = "" then s.goto t (.release x (.nodeNotFound node ""))
    else s.goto t (.dial node x (listenAddress env.allNodes node))
  | .dial node x addr =>
    match env.dial with
    | .connected => { s with dialed := s.dialed + 1 }.goto t (.install node x addr s.dialed)
    -- A call that gave up does not count as a failure of the node.
    | .cancelled => s.goto t (.release x .ctxErr)
    | .failed => s.goto t (.recordFailure node x addr .add)
  | .recordFailure node x addr .finished => s.goto t (.release x (.connectionFailed node addr))
  | .recordFailure node x addr r =>
    let next := (s.state x).breaker.recordFailureAndOpenCircuit s.config env.now r
    (s.setState x { s.state x with breaker := next.1 }).goto t (.recordFailure node x addr next.2)
  -- From here on the old connection is only known to this call.
  | .install node x addr c =>
    (s.setState x { s.state x with client := some c, conn := some c }).goto t
      (.afterInstall node x addr c (s.state x).conn)
  | .closeOld node x addr c old => (s.closes old).goto t (.recheck node x addr c)
  -- The map may have no state for the node, or a newer one.
  | .recheck node x addr c =>
    if s.locked = none then
      if s.clients.lookup node = some x then s.goto t (.resetFailures x c)
      else s.goto t (.closeNew node x addr c)
    else s
  | .closeNew node x addr c => (s.closes c).goto t (.release x (.nodeNotFound node addr))
  | .resetFailures x c =>
    (s.setState x
      { s.state x with breaker := { (s.state x).breaker with failureCount := 0 } }).goto t
      (.release x (.client (some c)))
  | .release x answer =>
    (s.setState x { s.state x with dialing := false }).goto t (.returned answer)
  | .lockRemove node =>
    if s.locked = none then
      { s with locked := some t }.goto t
        (match s.clients.lookup node with
        | some x => .readConn .remove [] node x
        | none => .unlock)
    else s
  | .lockRefresh => if s.locked = none then { s with locked := some t }.goto t .activeNodes else s
  | .lockClose =>
    if s.locked = none then { s with locked := some t }.goto t (.range .close s.clients.keys) else s
  | .activeNodes =>
    s.goto t (.range (.refresh (env.activeNodes.map NodeInfo.id)) s.clients.keys)
  | .range op [] => s.goto t (.afterLoop op)
  | .range op (n :: pending) =>
    if env.next ∈ n :: pending then
      match s.clients.lookup env.next with
      | some x =>
        -- `RefreshConnections` skips the nodes that are active.
        match op with
        | .refresh active =>
          if env.next ∈ active then s.goto t (.range op ((n :: pending).erase env.next))
          else s.goto t (.readConn op ((n :: pending).erase env.next) env.next x)
        | .remove | .close => s.goto t (.readConn op ((n :: pending).erase env.next) env.next x)
      | none => s.goto t (.range op ((n :: pending).erase env.next))
    else s
  | .readConn op pending node x =>
    match (s.state x).conn with
    | some c => s.goto t (.closeConn op pending node c)
    | none => s.goto t (.afterClose op pending node)
  | .closeConn op pending node c => (s.closes c).goto t (.afterClose op pending node)
  -- A state that is deleted can still be in use by calls of `getClient`.
  | .delete op pending node => { s with clients := s.clients.erase node }.goto t (.range op pending)
  | .clear => { s with clients := ∅ }.goto t .unlock
  | .unlock => { s with locked := none }.goto t (.returned .finished)

/-- One step of a call. -/
def advance (t : Nat) (env : Env) : State := act s t env (s.calls t)

inductive Event where
  | getClient (t : Nat) (node : NodeID)
  | removeClient (t : Nat) (node : NodeID)
  | refreshConnections (t : Nat)
  | close (t : Nat)
  /-- A call takes a step. -/
  | advance (t : Nat) (env : Env)

/-- A call starts, if it is not running. -/
def State.start (t : Nat) (φ : Phase) : State :=
  if (s.calls t).resting then s.goto t φ else s

def step : Event → State
  | .getClient t node => s.start t (.lookup node)
  | .removeClient t node => s.start t (.lockRemove node)
  | .refreshConnections t => s.start t .lockRefresh
  | .close t => s.start t .lockClose
  | .advance t env => advance s t env

/-- No call is running. -/
def State.Quiet : Prop := ∀ t, (s.calls t).resting = true

/-- The connection was dialed and is not closed. -/
def State.IsOpen (c : Nat) : Prop := c < s.dialed ∧ s.closed c = false

/-- The connection is the current one of a registered state. -/
def State.Registered (c : Nat) : Prop :=
  ∃ node x, s.clients.lookup node = some x ∧ (s.state x).conn = some c

end OCache.Router
