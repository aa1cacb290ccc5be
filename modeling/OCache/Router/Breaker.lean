import Mathlib
import OCache.Lib.SignedWord

/-!
# The circuit breaker of a node

The router counts the failed dials to a node. At the threshold it opens the circuit, and no call
tries the node again until the timeout has passed. The fields of the breaker are atomic integers and
times under the mutex of the node's state. A call of `isCircuitOpen` or
`recordFailureAndOpenCircuit` reads and writes them one by one, so each is a sequence of steps
between which other calls can move.
-/

namespace OCache.Router

open SignedWord (since)

/-- `time.Time{}`, the start of the year 1, in nanoseconds from the start of 1970. -/
def zeroTime : Int := -62135596800000000000

/-- `RouterConfig`, as far as the breaker reads it. -/
structure RouterConfig where
  circuitBreakerThreshold : Int
  circuitBreakerTimeout : Int

/-- `DefaultRouterConfig` -/
def defaultRouterConfig : RouterConfig where
  circuitBreakerThreshold := 5
  circuitBreakerTimeout := 30000000000

/-- The fields of a `clientState` that belong to the breaker. -/
structure Breaker where
  failureCount : Int32
  circuitOpen : Bool
  circuitOpenTime : Int
  lastFailure : Int

/-- The breaker of a new state. -/
def Breaker.new : Breaker where
  failureCount := 0
  circuitOpen := false
  circuitOpenTime := zeroTime
  lastFailure := zeroTime

/-- The next step of `isCircuitOpen`. -/
inductive Check where
  | load
  | readTime
  /-- Compare the time that was read with the clock. -/
  | compare (openTime : Int)
  /-- `CompareAndSwap(1, 0)` -/
  | swap
  /-- The swap succeeded: the failures start from zero again. -/
  | resetCount
  | answer (isOpen : Bool)
deriving DecidableEq

/-- One step of `isCircuitOpen`. -/
@[simp]
def Breaker.isCircuitOpen (cfg : RouterConfig) (now : Int) (b : Breaker) : Check → Breaker × Check
  | .load => (b, if b.circuitOpen then .readTime else .answer false)
  | .readTime => (b, .compare b.circuitOpenTime)
  | .compare openTime =>
    (b, if cfg.circuitBreakerTimeout < since now openTime then .swap else .answer true)
  -- Who loses the swap finds the circuit closed as well.
  | .swap => if b.circuitOpen then ({ b with circuitOpen := false }, .resetCount) else (b, .answer false)
  | .resetCount => ({ b with failureCount := 0 }, .answer false)
  | .answer isOpen => (b, .answer isOpen)

/-- The next step of `recordFailureAndOpenCircuit`. -/
inductive Record where
  | add
  /-- Set the time of the last failure, with the count that was read. -/
  | stamp (failures : Int32)
  /-- `CompareAndSwap(0, 1)` -/
  | swap
  /-- The swap succeeded: set the time the circuit was opened at. -/
  | openTime
  | finished
deriving DecidableEq

/-- One step of `recordFailureAndOpenCircuit`. -/
def Breaker.recordFailureAndOpenCircuit (cfg : RouterConfig) (now : Int) (b : Breaker) :
    Record → Breaker × Record
  | .add => ({ b with failureCount := b.failureCount + 1 }, .stamp (b.failureCount + 1))
  | .stamp failures =>
    ({ b with lastFailure := now },
      if Int32.ofInt cfg.circuitBreakerThreshold ≤ failures then .swap else .finished)
  | .swap => if b.circuitOpen then (b, .finished) else ({ b with circuitOpen := true }, .openTime)
  | .openTime => ({ b with circuitOpenTime := now }, .finished)
  | .finished => (b, .finished)

end OCache.Router
