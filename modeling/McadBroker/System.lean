import McadBroker.Fetch

/-! # The receiver and the consumer, interleaved

Two threads share the broker: the receiver handles one message at a time, and the consumer runs
`fetchRegion`, whose two locked blocks are separate atomic steps with receiver steps possibly in
between. This file models that as a step function over events.

* **`Consumer`** — idle, or between the two blocks of a call with its selected slices.
* **`Event`** and **`step`** — a handled message, the first block of a call, the second block.
  `step` is `none` when the event cannot happen then: a call's first block while the queue is
  empty and the stream open (the call waits), or while its selection loop would never end.
* **`Reachable`** — the states some sequence of events leads to from the initial one. -/

namespace McadBroker

/-- Where the consumer is in a `fetchRegion` call. -/
inductive Consumer
  /-- Not inside a call. -/
  | idle
  /-- Between the two locked blocks: the clamped size and the selected slices. -/
  | delivering (totalSize : Nat) (selectedSlices : List TBSlice)

/-- The whole system: the broker, the consumer, and the consumer's metadata exchanger. -/
structure System where
  /-- The shared broker state. -/
  broker : Broker
  /-- The consumer thread. -/
  consumer : Consumer
  /-- The exchanger the consumer passes to each call. -/
  mde : Option MDExchanger

/-- The state before any message or call. -/
def System.init (mde : Option MDExchanger) : System := ⟨Broker.init, .idle, mde⟩

/-- The atomic steps of the two threads. -/
inductive Event
  /-- The receiver handles a verified message. -/
  | recv (m : Message)
  /-- The consumer runs the first block of `fetchRegion(MCIS, Size)`, `MCIS` of `outLen` entries. -/
  | fetchBegin (outLen : Nat) (size : Int)
  /-- The consumer runs the second block of the call in progress. -/
  | fetchEnd

/-- The second block applied to the system: the selected slices are delivered from the blocks
the slots hold now. -/
def System.deliver (sys : System) (totalSize : Nat) (selected : List TBSlice) : System :=
  let r := deliverSlices sys.broker.tbs selected totalSize ⟨[], sys.broker.totalNumTraces, sys.mde⟩
  ⟨{ sys.broker with totalNumTraces := r.2.totalNumTraces }, .idle, r.2.mde⟩

/-- **One step of the system.** A message is handled at any time. A call's first block runs only
from an idle consumer, and only once it would not wait; an early return leaves the state as it
is. The second block runs only for the call in progress. -/
def step (cfg : BrokerConfig) (sys : System) : Event → Option System
  | .recv m => some { sys with broker := handleMessage cfg sys.broker m }
  | .fetchBegin outLen size =>
    match sys.consumer, fetchSelect sys.broker outLen size with
    | .idle, .returns _ _ => some sys
    | .idle, .selected totalSize selected tbQueue =>
      some { sys with broker := { sys.broker with tbQueue := tbQueue },
                      consumer := .delivering totalSize selected }
    | _, _ => none
  | .fetchEnd =>
    match sys.consumer with
    | .delivering totalSize selected => some (sys.deliver totalSize selected)
    | .idle => none

/-- The events run in order from `sys`; `none` if one of them cannot happen then. -/
def run (cfg : BrokerConfig) : System → List Event → Option System
  | sys, [] => some sys
  | sys, e :: evs =>
    match McadBroker.step cfg sys e with
    | some sys' => run cfg sys' evs
    | none => none

/-- The states some sequence of events leads to from `System.init mde`. -/
def Reachable (cfg : BrokerConfig) (mde : Option MDExchanger) (sys : System) : Prop :=
  ∃ evs, run cfg (System.init mde) evs = some sys

@[simp] theorem run_nil (cfg : BrokerConfig) (sys : System) : run cfg sys [] = some sys := rfl

theorem run_cons (cfg : BrokerConfig) (sys : System) (e : Event) (evs : List Event) :
    run cfg sys (e :: evs) = (McadBroker.step cfg sys e).bind (run cfg · evs) := by
  simp only [run]; cases McadBroker.step cfg sys e <;> rfl

/-- **A property every step keeps holds after every run.** The run lemma the invariants of the
system are derived from; `keep` may use that the event belongs to the run. -/
theorem run_invariant (cfg : BrokerConfig) (P : System → Prop) (evs : List Event)
    (keep : ∀ sys sys' e, e ∈ evs → P sys → McadBroker.step cfg sys e = some sys' → P sys') :
    ∀ {sys sys'}, P sys → run cfg sys evs = some sys' → P sys' := by
  induction evs with
  | nil => intro sys sys' h hrun; cases hrun; exact h
  | cons e evs ih =>
    intro sys sys' h hrun
    rw [run_cons] at hrun
    cases hstep : McadBroker.step cfg sys e with
    | none => rw [hstep] at hrun; cases hrun
    | some s =>
      rw [hstep] at hrun
      exact ih (fun a b e' he' => keep a b e' (List.mem_cons_of_mem e he'))
        (keep sys s e (List.mem_cons_self e evs) h hstep) hrun

end McadBroker
