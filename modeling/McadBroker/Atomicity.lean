import McadBroker.SequenceNumbers

/-! # A call's two blocks, as if they ran back to back

`fetchRegion` selects under `QueueMutex` and delivers under `TBsMutex`, and holds neither lock in
between, so the receiver may handle messages while a call holds its selected slices. Those
messages move the queue, the region tracker and the blocks. The second block reads only the
blocks of the selected slices and `TotalNumTraces`, and the receiver never writes the counter. So
a call acts as if both blocks ran at its first one, unless the receiver changes the block of a
selected slice in between.

* **`AtomicState`, `atomicStep`, `atomicRun`** — the broker when every call is one step: the
  `fetchRegion` of `Fetch`, both blocks back to back.
* **`System.settle`** — a state of the interleaved system with its call in progress finished.
* **`callsIsolated`** — no message handled inside a call changes the block of one of its selected
  slices.
* **`interleaved_calls_refine_atomic_calls`** — every interleaved run with isolated calls is
  matched by the atomic run of its events, each call at its first block. -/

namespace McadBroker

/-! ## (1) The atomic broker -/

/-- The broker and the consumer's exchanger, when each call runs its two blocks back to back. -/
structure AtomicState where
  /-- The shared broker state. -/
  broker : Broker
  /-- The exchanger the consumer passes to each call. -/
  mde : Option MDExchanger

/-- The steps of the atomic broker. -/
inductive AtomicEvent
  /-- The receiver handles a verified message. -/
  | recv (m : Message)
  /-- A whole `fetchRegion(MCIS, Size)` call, `MCIS` of `outLen` entries. -/
  | call (outLen : Nat) (size : Int)

/-- **One step of the atomic broker**: a call that waits or spins cannot happen. -/
def atomicStep (cfg : BrokerConfig) (s : AtomicState) : AtomicEvent → Option AtomicState
  | .recv m => some ⟨handleMessage cfg s.broker m, s.mde⟩
  | .call outLen size =>
    match fetchRegion s.broker outLen size s.mde with
    | .returns _ _ _ st mde => some ⟨st, mde⟩
    | _ => none

/-- The atomic events run in order; `none` if one of them cannot happen then. -/
def atomicRun (cfg : BrokerConfig) : AtomicState → List AtomicEvent → Option AtomicState
  | s, [] => some s
  | s, e :: evs =>
    match atomicStep cfg s e with
    | some s' => atomicRun cfg s' evs
    | none => none

theorem atomicRun_cons (cfg : BrokerConfig) (s : AtomicState) (e : AtomicEvent)
    (evs : List AtomicEvent) :
    atomicRun cfg s (e :: evs) = (atomicStep cfg s e).bind (atomicRun cfg · evs) := by
  simp only [atomicRun]; cases atomicStep cfg s e <;> rfl

/-- The atomic event an interleaved one stands for: a call at its first block, nothing at its
second. -/
def Event.atomic : Event → Option AtomicEvent
  | .recv m => some (.recv m)
  | .fetchBegin outLen size => some (.call outLen size)
  | .fetchEnd => none

/-! ## (2) Settling a call in progress -/

/-- **A state with its call finished**: the second block run at once, on the blocks as they are. -/
def System.settle (sys : System) : AtomicState :=
  match sys.consumer with
  | .idle => ⟨sys.broker, sys.mde⟩
  | .delivering totalSize selected =>
    ⟨(sys.deliver totalSize selected).broker, (sys.deliver totalSize selected).mde⟩

/-- A handled message keeps the blocks the call in progress will read. -/
def keepsSelected (cfg : BrokerConfig) (sys : System) : Event → Bool
  | .recv m =>
    match sys.consumer with
    | .delivering _ selected => selected.all fun sl =>
      decide (registeredTB (handleMessage cfg sys.broker m).tbs sl.index =
        registeredTB sys.broker.tbs sl.index)
    | .idle => true
  | _ => true

/-- **Every call of a run is isolated**: each message handled inside a call keeps the blocks of its
selected slices. -/
def callsIsolated (cfg : BrokerConfig) : System → List Event → Bool
  | _, [] => true
  | sys, e :: evs =>
    keepsSelected cfg sys e &&
      match step cfg sys e with
      | some sys' => callsIsolated cfg sys' evs
      | none => true

/-- The delivery block reads `TBs` only at the selected slices. -/
theorem deliverSlices_congr {tbs tbs' : List (Option TranslationBlock)} :
    ∀ {selected : List TBSlice},
      (∀ sl ∈ selected, registeredTB tbs' sl.index = registeredTB tbs sl.index) →
      ∀ (size : Nat) (d : Delivered), deliverSlices tbs' selected size d = deliverSlices tbs selected size d
  | [], _, _, _ => rfl
  | sl :: rest, h, size, d => by
    have hsl : sliceInsts tbs' sl.index = sliceInsts tbs sl.index := by
      rw [sliceInsts, sliceInsts, h sl (List.mem_cons_self _ _)]
    simp only [deliverSlices, hsl]
    exact deliverSlices_congr (fun sl' h' => h sl' (List.mem_cons_of_mem _ h')) _ _

/-- The receiver neither reads nor writes `TotalNumTraces`. -/
theorem handleMessage_with_totalNumTraces (cfg : BrokerConfig) (st : Broker) (n : UInt32)
    (m : Message) :
    handleMessage cfg { st with totalNumTraces := n } m =
      { handleMessage cfg st m with totalNumTraces := n } := by
  cases m with
  | metadata => rfl
  | translatedBlock => rfl
  | execTB index pc fbMAs =>
    cases hend : isEndSignal index pc
    · cases htb : registeredTB st.tbs index.toNat with
      | none =>
        simp only [handleMessage]
        rw [tbExec_of_unregistered cfg { st with totalNumTraces := n } fbMAs hend htb,
          tbExec_of_unregistered cfg st fbMAs hend htb]
      | some tb =>
        simp only [handleMessage]
        rw [tbExec_of_registered cfg { st with totalNumTraces := n } fbMAs hend htb,
          tbExec_of_registered cfg st fbMAs hend htb]
    · simp only [handleMessage]
      rw [tbExec_of_isEndSignal fbMAs hend, tbExec_of_isEndSignal fbMAs hend]

/-! ## (3) The reduction -/

section Settle

variable {cfg : BrokerConfig}

/-- **A message handled inside a call commutes with the call's second block** when it keeps the
selected slices' blocks. -/
theorem settle_recv {sys : System} {m : Message} (hkeep : keepsSelected cfg sys (.recv m) = true) :
    System.settle { sys with broker := handleMessage cfg sys.broker m } =
      ⟨handleMessage cfg sys.settle.broker m, sys.settle.mde⟩ := by
  obtain ⟨st, consumer, mde⟩ := sys
  cases consumer with
  | idle => rfl
  | delivering totalSize selected =>
    simp only [keepsSelected, List.all_eq_true, decide_eq_true_eq] at hkeep
    simp only [System.settle, System.deliver, handleMessage_totalNumTraces,
      deliverSlices_congr hkeep, handleMessage_with_totalNumTraces]

/-- **The step lemma**: a step of an isolated call is the atomic step of its event on the settled
states, or leaves them as they are when it stands for none. -/
theorem step_settle {sys sys' : System} {e : Event} (hkeep : keepsSelected cfg sys e = true)
    (hstep : step cfg sys e = some sys') :
    match e.atomic with
    | some a => atomicStep cfg sys.settle a = some sys'.settle
    | none => sys'.settle = sys.settle := by
  cases e with
  | recv m =>
    cases hstep
    exact congrArg some (settle_recv hkeep).symm
  | fetchBegin outLen size =>
    simp only [step] at hstep
    split at hstep <;> cases hstep
    all_goals
      rename_i hc hsel
      simp only [Event.atomic, atomicStep, System.settle, hc, fetchRegion, hsel]
    rfl
  | fetchEnd =>
    simp only [step] at hstep
    split at hstep <;> cases hstep
    rename_i hc
    simp only [System.settle, hc]
    rfl

/-- The run lemma, from any state. -/
theorem run_settle :
    ∀ {evs : List Event} {sys sys' : System}, callsIsolated cfg sys evs = true →
      run cfg sys evs = some sys' → atomicRun cfg sys.settle (evs.filterMap Event.atomic) = some sys'.settle
  | [], _, _, _, hrun => by cases hrun; rfl
  | e :: evs, sys, sys', hiso, hrun => by
    rw [run_cons] at hrun
    cases hs : step cfg sys e with
    | none => rw [hs] at hrun; cases hrun
    | some s₁ =>
      rw [hs] at hrun
      simp only [callsIsolated, hs, Bool.and_eq_true] at hiso
      have ih := run_settle hiso.2 hrun
      have hstep := step_settle hiso.1 hs
      rw [List.filterMap_cons]
      cases ha : e.atomic with
      | none => rw [ha] at hstep; rwa [← hstep]
      | some a => rw [ha] at hstep; rw [atomicRun_cons, hstep]; exact ih

end Settle

/-- **Interleaved calls refine atomic calls.** Take any run of receiver steps and of the two
locked blocks of `fetchRegion` calls, in any order, in which no message handled inside a call
changes the block of one of that call's selected slices. Run the same messages and calls on the
atomic broker, each call whole at the place of its first block. That run succeeds, and it ends in
the state the interleaved run ends in once its call in progress, if any, is finished: the same
queue, blocks, region tracker, counter and exchanger. -/
theorem interleaved_calls_refine_atomic_calls (cfg : BrokerConfig) (mde : Option MDExchanger)
    {evs : List Event} {sys : System} (hiso : callsIsolated cfg (System.init mde) evs = true)
    (hrun : run cfg (System.init mde) evs = some sys) :
    atomicRun cfg ⟨Broker.init, mde⟩ (evs.filterMap Event.atomic) = some sys.settle :=
  run_settle hiso hrun

/-- A call of two instructions with two messages inside it: a second execution of the selected
block, and a new block at another index. -/
def isolatedCallEvents : List Event :=
  [.recv (.translatedBlock 0 [[0x90], [0x90], [0x90]]), .recv (.execTB 0 0x1000 []), .fetchBegin 2 2,
    .recv (.execTB 0 0x1000 []), .recv (.translatedBlock 1 [[0x90]]), .fetchEnd]

/-- The state `isolatedCallEvents` leads to. -/
def isolatedCallSystem : System :=
  ⟨⟨[some ⟨[[0x90], [0x90], [0x90]], [0, 1, 2], [], 0x1000, [0, 1, 2]⟩, some ⟨[[0x90]], [], [], 0, []⟩],
      [⟨0, 2, 0xFFFF, none, none⟩, ⟨0, 0, 0xFFFF, none, none⟩], false, none, 0, 2, 3⟩, .idle, none⟩

theorem isolated_call_refines_atomic_call :
    callsIsolated byteConfig (System.init none) isolatedCallEvents = true ∧
      run byteConfig (System.init none) isolatedCallEvents = some isolatedCallSystem ∧
      atomicRun byteConfig ⟨Broker.init, none⟩ (isolatedCallEvents.filterMap Event.atomic) =
        some isolatedCallSystem.settle :=
  ⟨rfl, rfl, interleaved_calls_refine_atomic_calls byteConfig none rfl rfl⟩

/-- Without isolation the two differ: a block replaced inside the call is delivered from, and the
call counts no instruction where the atomic call counts two. -/
example :
    (run byteConfig (System.init none) (isolatedCallEvents.take 3 ++
        [Event.recv (.translatedBlock 0 [[0x90]]), Event.fetchEnd])).map (·.settle.broker.totalNumTraces) =
      some 0 ∧
    (atomicRun byteConfig ⟨Broker.init, none⟩ ((isolatedCallEvents.take 3 ++
        [Event.recv (.translatedBlock 0 [[0x90]]), Event.fetchEnd]).filterMap Event.atomic)).map
          (·.broker.totalNumTraces) = some 2 := ⟨rfl, rfl⟩

end McadBroker
