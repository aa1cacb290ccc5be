import OCache.Lib.EventSystem
import OCache.Router.Breaker

/-!
# How long an opened circuit stays open

Any number of calls of `isCircuitOpen` and `recordFailureAndOpenCircuit` work on one breaker, step
by step in any order, while the clock advances. A call that switches the circuit on publishes the
open flag first and the time afterwards. A check decides by a time that it read earlier, and then
switches the flag off whatever time is there by then. So the circuit is sure to stay open only if
nobody reads the time between the switch and the time's store, and nobody holds a time from before
when it is switched on.
-/

namespace OCache.Router.Circuit

open EventSystem

/-- A call on the breaker. -/
inductive Call where
  | check (c : Check)
  | record (r : Record)
deriving DecidableEq

/-- One breaker, the calls made so far, and the clock. -/
structure State where
  breaker : Breaker
  calls : List Call
  clock : Int

/-- A new client state. -/
def init (now : Int) : State := ⟨.new, [], now⟩

inductive Event where
  | tick (d : Nat)
  /-- A call starts. -/
  | isCircuitOpen
  | recordFailureAndOpenCircuit
  /-- A call takes its next step. -/
  | advance (i : Nat)

variable (cfg : RouterConfig)

/-- The next step of a call. -/
@[simp] def act (now : Int) (b : Breaker) : Call → Breaker × Call
  | .check c => ((b.isCircuitOpen cfg now c).1, .check (b.isCircuitOpen cfg now c).2)
  | .record r =>
    ((b.recordFailureAndOpenCircuit cfg now r).1, .record (b.recordFailureAndOpenCircuit cfg now r).2)

def step (s : State) : Event → State
  | .tick d => { s with clock := s.clock + d }
  | .isCircuitOpen => { s with calls := s.calls ++ [.check .load] }
  | .recordFailureAndOpenCircuit => { s with calls := s.calls ++ [.record .add] }
  | .advance i =>
    match s.calls[i]? with
    | some c =>
      { s with
        breaker := (act cfg s.clock s.breaker c).1
        calls := s.calls.set i (act cfg s.clock s.breaker c).2 }
    | none => s

/-- The next step of a call switches the circuit on. -/
def opens (s : State) (i : Nat) : Bool :=
  s.calls[i]? = some (.record .swap) ∧ s.breaker.circuitOpen = false

/-- The call has a time that it has read and may still act on. -/
def Call.holdsTime : Call → Bool
  | .check (.compare _) | .check .swap => true
  | _ => false

/-- The time is not read while a call that has switched the circuit on has yet to store it, and the
circuit is not switched on while a check holds a time from before. -/
def timely (s : State) : Event → Bool
  | .advance i =>
    (s.calls[i]? = some (.check .readTime) → s.calls.all (· ≠ .record .openTime)) ∧
      (opens s i = true → s.calls.all (!·.holdsTime))
  | _ => true

/-! ## The invariant -/

/-- What the circuit's being open since `t` means for a call. A call from the `n`-th on has started
since then. -/
structure Call.Sees (t : Int) (n k : Nat) (c : Call) : Prop where
  time : ∀ u, c = .check (.compare u) → t ≤ u
  noSwap : c ≠ .check .swap
  answer : n ≤ k → c ≠ .check .resetCount ∧ c ≠ .check (.answer false)

/-- The circuit was switched on at `t`, when there were `n` calls, and is open. -/
structure OpenSince (t : Int) (n : Nat) (s : State) : Prop where
  circuitOpen : s.breaker.circuitOpen = true
  time : t ≤ s.breaker.circuitOpenTime ∨ .record .openTime ∈ s.calls
  calls : ∀ (k : Nat) (c : Call), s.calls[k]? = some c → c.Sees t n k

/-- The circuit is open until the timeout. -/
structure Holds (t : Int) (n : Nat) (s : State) : Prop where
  clock : t ≤ s.clock
  isOpen : s.clock < t + cfg.circuitBreakerTimeout → OpenSince t n s

variable {cfg} {s : State} {t : Int} {n : Nat}

/-- A time within the timeout is not taken to be over. -/
theorem not_lt_since {now u : Int} (htu : t ≤ u) (hnow : t ≤ now)
    (hwithin : now < t + cfg.circuitBreakerTimeout) :
    ¬cfg.circuitBreakerTimeout < SignedWord.since now u := by
  unfold SignedWord.since
  omega

variable {c d : Call} {k i : Nat}

/-- The steps of a call keep what it sees, while the circuit is open. -/
theorem Call.Sees.act (h : c.Sees t n k) (hopen : s.breaker.circuitOpen = true)
    (hclock : t ≤ s.clock) (hwithin : s.clock < t + cfg.circuitBreakerTimeout)
    (htime : c = .check .readTime → t ≤ s.breaker.circuitOpenTime) :
    (Circuit.act cfg s.clock s.breaker c).2.Sees t n k := by
  cases c with
  | record r => exact ⟨by simp, by simp, by simp⟩
  | check c =>
    cases c with
    | load =>
      simp only [Circuit.act, Breaker.isCircuitOpen, hopen, if_true]
      exact ⟨by simp, by simp, by simp⟩
    | readTime => exact ⟨by simpa using htime rfl,
        by simp, by simp⟩
    | compare u =>
      -- The time is from after the switch, so the timeout is not over.
      simp only [Circuit.act, Breaker.isCircuitOpen, not_lt_since (h.time u rfl) hclock hwithin, if_false]
      exact ⟨by simp, by simp, by simp⟩
    | swap => exact absurd rfl h.noSwap
    | resetCount =>
      refine ⟨by simp, by simp, fun hn => ?_⟩
      exact absurd rfl (h.answer hn).1
    | answer isOpen =>
      refine ⟨by simp, by simp, fun hn => ?_⟩
      exact ⟨by simp, (h.answer hn).2⟩

/-- No call that sees the circuit open switches it off. -/
theorem circuitOpen_act (h : c.Sees t n k) (hopen : s.breaker.circuitOpen = true) (now : Int) :
    (act cfg now s.breaker c).1.circuitOpen = true := by
  cases c with
  | record r =>
    cases r with
    | swap => simp [act, Breaker.recordFailureAndOpenCircuit, hopen]
    | add | stamp | openTime | finished => exact hopen
  | check c =>
    cases c with
    | swap => exact absurd rfl h.noSwap
    | load | readTime | compare | resetCount | answer => exact hopen

/-- Only the store of a call that has switched the circuit on changes the time. -/
theorem circuitOpenTime_act (hc : c ≠ .record .openTime) (now : Int) (b : Breaker) :
    (act cfg now b c).1.circuitOpenTime = b.circuitOpenTime := by
  cases c with
  | record r =>
    cases r with
    | openTime => exact absurd rfl hc
    | swap =>
      simp only [act, Breaker.recordFailureAndOpenCircuit]
      split <;> rfl
    | add | stamp | finished => rfl
  | check c =>
    cases c with
    | swap =>
      simp only [act, Breaker.isCircuitOpen]
      split <;> rfl
    | load | readTime | compare | resetCount | answer => rfl

lemma getElem?_append_singleton {calls : List Call} (h : (calls ++ [d])[k]? = some c) :
    calls[k]? = some c ∨ c = d := by
  rcases Nat.lt_or_ge k calls.length with hk | hk
  · exact .inl (by rwa [List.getElem?_append_left hk] at h)
  · rw [List.getElem?_append_right hk, List.getElem?_singleton] at h
    split at h
    · exact .inr (Option.some.inj h).symm
    · simp at h

/-- A new call has seen nothing yet. -/
theorem OpenSince.start (h : OpenSince t n s) (hd : ∀ k, d.Sees t n k) :
    OpenSince t n { s with calls := s.calls ++ [d] } where
  circuitOpen := h.circuitOpen
  time := h.time.imp_right fun hmem => List.mem_append_left _ hmem
  calls k c hc := (getElem?_append_singleton hc).elim (h.calls k c) fun heq => heq ▸ hd k

lemma OpenSince.advance (h : OpenSince t n s) (hclock : t ≤ s.clock)
    (hwithin : s.clock < t + cfg.circuitBreakerTimeout) (hok : timely s (.advance i) = true) :
    OpenSince t n (step cfg s (.advance i)) := by
  simp only [timely, Bool.decide_and, Bool.and_eq_true, decide_eq_true_eq] at hok
  cases hi : s.calls[i]? with
  | none => simpa only [step, hi] using h
  | some c =>
    have hlt : i < s.calls.length := (List.getElem?_eq_some_iff.mp hi).1
    have hsees := h.calls i c hi
    -- The time can be read only once it is stored.
    have htime : c = .check .readTime → t ≤ s.breaker.circuitOpenTime := by
      rintro rfl
      refine h.time.resolve_right fun hmem => ?_
      simpa using List.all_eq_true.mp (hok.1 hi) _ hmem
    simp only [step, hi]
    refine ⟨circuitOpen_act hsees h.circuitOpen _, ?_, ?_⟩
    · by_cases hc : c = .record .openTime
      · exact .inl (by simpa [hc, act, Breaker.recordFailureAndOpenCircuit] using hclock)
      · rw [circuitOpenTime_act hc]
        refine h.time.imp_right fun hmem => ?_
        -- Another call is to store the time, and it has not moved.
        obtain ⟨j, hj⟩ := List.mem_iff_getElem?.mp hmem
        have hji : i ≠ j := fun heq => hc (Option.some.inj (hi.symm.trans (heq ▸ hj)))
        exact List.mem_iff_getElem?.mpr ⟨j, (List.getElem?_set_ne hji).trans hj⟩
    · intro k d hd
      by_cases hk : i = k
      · rw [← hk, List.getElem?_set_self hlt] at hd
        rw [← hk, ← Option.some.inj hd]
        exact hsees.act h.circuitOpen hclock hwithin htime
      · rw [List.getElem?_set_ne hk] at hd
        exact h.calls k d hd

lemma holds_step {e : Event} (h : Holds cfg t n s) (hok : timely s e = true) :
    Holds cfg t n (step cfg s e) := by
  cases e with
  | tick d =>
    refine ⟨h.clock.trans (by simp [step]), fun hwithin => ?_⟩
    have hbefore : s.clock < t + cfg.circuitBreakerTimeout := by
      simp only [step] at hwithin
      omega
    exact ⟨(h.isOpen hbefore).circuitOpen, (h.isOpen hbefore).time, (h.isOpen hbefore).calls⟩
  | isCircuitOpen | recordFailureAndOpenCircuit =>
    exact ⟨h.clock, fun hwithin => (h.isOpen hwithin).start fun _ => ⟨by simp, by simp, by simp⟩⟩
  | advance i =>
    have hclock : (step cfg s (.advance i)).clock = s.clock := by
      simp only [step]
      split <;> rfl
    refine ⟨hclock ▸ h.clock, fun hwithin => ?_⟩
    rw [hclock] at hwithin
    exact (h.isOpen hwithin).advance h.clock hwithin hok

lemma length_calls_advance (s : State) (i : Nat) :
    (step cfg s (.advance i)).calls.length = s.calls.length := by
  simp only [step]
  split
  · exact List.length_set
  · rfl

/-- The switch itself: nobody holds a time, and the call that switched has one to store. -/
theorem holds_of_opens (hopens : opens s i = true) (hok : timely s (.advance i) = true) :
    Holds cfg s.clock s.calls.length (step cfg s (.advance i)) := by
  simp only [timely, Bool.decide_and, Bool.and_eq_true, decide_eq_true_eq] at hok
  have hfree := List.all_eq_true.mp (hok.2 hopens)
  simp only [opens, Bool.decide_and, Bool.and_eq_true, decide_eq_true_eq] at hopens
  obtain ⟨hi, hclosed⟩ := hopens
  have hlt : i < s.calls.length := (List.getElem?_eq_some_iff.mp hi).1
  have hstep : step cfg s (.advance i) = { s with
      breaker := { s.breaker with circuitOpen := true }
      calls := s.calls.set i (.record .openTime) } := by
    simp [step, hi, act, Breaker.recordFailureAndOpenCircuit, hclosed]
  rw [hstep]
  refine ⟨le_rfl, fun _ => ⟨rfl, .inr (List.mem_set hlt _), fun k c hc => ?_⟩⟩
  have hk : k < s.calls.length := by simpa using (List.getElem?_eq_some_iff.mp hc).1
  by_cases hik : i = k
  · rw [← hik, List.getElem?_set_self hlt] at hc
    rw [← Option.some.inj hc]
    exact ⟨by simp, by simp, by simp⟩
  · -- A check that is running holds no time from before, so it cannot switch the circuit off by one.
    rw [List.getElem?_set_ne hik] at hc
    have hholds := hfree c (List.mem_of_getElem? hc)
    refine ⟨?_, ?_, fun hn => absurd hk (by omega)⟩
    · rintro u rfl
      simp [Call.holdsTime] at hholds
    · rintro rfl
      simp [Call.holdsTime] at hholds

/-! ## Runs -/

/-- If a call switches the circuit on, then every call of `isCircuitOpen` that starts afterwards and
ends before the timeout is over answers that it is open, in every run whose steps are timely. -/
theorem open_until_timeout (cfg : RouterConfig) (now : Int) (es fs : List Event) (i k : Nat)
    (isOpen : Bool)
    (hok : RunOk (step cfg) (fun s e => timely s e = true) (init now) (es ++ .advance i :: fs))
    (hopens : opens (run (step cfg) (init now) es) i = true)
    (hstart : (run (step cfg) (init now) (es ++ [.advance i])).calls[k]? = none)
    (hend : (run (step cfg) (init now) (es ++ .advance i :: fs)).calls[k]? =
      some (.check (.answer isOpen)))
    (hwithin : (run (step cfg) (init now) (es ++ .advance i :: fs)).clock <
      (run (step cfg) (init now) es).clock + cfg.circuitBreakerTimeout) :
    isOpen = true := by
  obtain ⟨-, hstep, hrest⟩ := runOk_append.mp hok
  rw [run_append] at hstart hend hwithin
  -- From the switch on the invariant says that the circuit is open.
  have hholds := invariant_run (fun _ _ => holds_step) (holds_of_opens hopens hstep) hrest
  have hafter := (hholds.isOpen hwithin).calls k _ hend
  have hnew : (run (step cfg) (init now) es).calls.length ≤ k := by
    have hlen : (step cfg (run (step cfg) (init now) es) (.advance i)).calls.length =
        (run (step cfg) (init now) es).calls.length := length_calls_advance _ i
    exact hlen ▸ List.getElem?_eq_none_iff.mp hstart
  cases isOpen with
  | true => rfl
  | false => exact absurd rfl (hafter.answer hnew).2

/-- A failure, up to the switch at the threshold 1. -/
def upToSwitch : List Event := [.recordFailureAndOpenCircuit, .advance 0, .advance 0]

/-- The time is stored, and a check follows before the timeout is over. -/
def storedThenChecked : List Event :=
  [.advance 0, .tick 7, .isCircuitOpen, .advance 1, .advance 1, .advance 1]

/-- A check follows before the time is stored: it finds the zero time and closes the circuit. -/
def checkedBeforeStore : List Event :=
  [.isCircuitOpen, .advance 1, .advance 1, .advance 1, .advance 1, .advance 1]

/-- The circuit was open for its timeout. Check 1 finds that the time is over and is about to close
the circuit when check 2 does so, and another failure comes up to the switch. -/
def staleCheck : List Event :=
  upToSwitch ++ ([.advance 0, .advance 0, .tick 31, .isCircuitOpen, .advance 1, .advance 1,
    .advance 1, .isCircuitOpen, .advance 2, .advance 2, .advance 2, .advance 2, .advance 2,
    .recordFailureAndOpenCircuit, .advance 3, .advance 3] : List Event)

/-- The new time is stored, check 1 closes the circuit all the same, and another check finds it
closed. -/
def closedAgain : List Event := [.advance 3, .advance 1, .isCircuitOpen, .advance 4]

theorem open_until_timeout_stored :
    (run (step ⟨1, 30⟩) (init 0) (upToSwitch ++ .advance 0 :: storedThenChecked)).calls[1]? =
      some (.check (.answer true)) := by
  have hend : ∃ isOpen, (run (step ⟨1, 30⟩) (init 0)
      (upToSwitch ++ .advance 0 :: storedThenChecked)).calls[1]? =
        some (.check (.answer isOpen)) := ⟨true, by decide +kernel⟩
  obtain ⟨isOpen, hend⟩ := hend
  have htrue := open_until_timeout ⟨1, 30⟩ 0 upToSwitch storedThenChecked 0 1 isOpen
    (by decide +kernel) (by decide +kernel) (by decide +kernel) hend (by decide +kernel)
  rw [hend, htrue]

/-- A check that starts after the switch, and ends before the timeout, answers that the circuit is
closed: because the time is not there yet, or because another check closed the circuit again by a
time from before. -/
theorem closed_at_once :
    (opens (run (step ⟨1, 30⟩) (init 0) upToSwitch) 0 = true ∧
      (run (step ⟨1, 30⟩) (init 0) (upToSwitch ++ [.advance 0])).calls[1]? = none ∧
      (run (step ⟨1, 30⟩) (init 0) (upToSwitch ++ .advance 0 :: checkedBeforeStore)).calls[1]? =
        some (.check (.answer false)) ∧
      (run (step ⟨1, 30⟩) (init 0) (upToSwitch ++ .advance 0 :: checkedBeforeStore)).clock =
        (run (step ⟨1, 30⟩) (init 0) upToSwitch).clock) ∧
    opens (run (step ⟨1, 30⟩) (init 0) staleCheck) 3 = true ∧
      (run (step ⟨1, 30⟩) (init 0) (staleCheck ++ [.advance 3])).calls[4]? = none ∧
      (run (step ⟨1, 30⟩) (init 0) (staleCheck ++ .advance 3 :: closedAgain)).calls[4]? =
        some (.check (.answer false)) ∧
      (run (step ⟨1, 30⟩) (init 0) (staleCheck ++ .advance 3 :: closedAgain)).clock =
        (run (step ⟨1, 30⟩) (init 0) staleCheck).clock := by
  decide +kernel

end OCache.Router.Circuit
