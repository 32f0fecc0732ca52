import McadBroker.System

/-! # The end of the stream

The sentinel `ExecTB` (index `0xFFFFFFFF`, PC `0xFFFFFFFFFFFFFFFF`) sets `IsEndOfStream`, and a
call on an empty queue returns `-1` once it is set. Nothing resets the flag, but nothing refuses
later executions either: `tbExec` never reads `IsEndOfStream`, and the receiver keeps handling the
connection's messages after the sentinel (and accepts further connections when configured to).

* **`step_isEndOfStream`** — no step clears the flag.
* **`Drained`** — an empty queue after the end of the stream, the state a `-1` return reveals.
* **`step_drained`** — every step other than a non-sentinel `ExecTB` keeps the system drained.
* **`end_of_stream_final_until_exec`** — the flag is never cleared, and after a `-1` every call
  returns `-1` until the receiver handles another execution.
* **`exec_after_end_of_stream_queues`** — such an execution is queued and fetched. -/

namespace McadBroker

/-- An event that may queue a slice: the receiver handling an `ExecTB` other than the sentinel. -/
def Event.isExecTB : Event → Bool
  | .recv (.execTB index pc _) => !isEndSignal index pc
  | _ => false

/-! ## (1) The handlers and the flag -/

theorem tbExec_isEndOfStream (cfg : BrokerConfig) (st : Broker) (index : UInt32) (pc : UInt64)
    (fbMAs : List MemoryAccess) :
    (tbExec cfg st index pc fbMAs).isEndOfStream = (st.isEndOfStream || isEndSignal index pc) := by
  cases h : isEndSignal index pc
  · simp only [tbExec, h, Bool.false_eq_true, if_false, Bool.or_false]
    split
    · rfl
    · split <;> rfl
  · simp [tbExec_of_isEndSignal fbMAs h]

/-- **No message clears the flag.** -/
theorem handleMessage_isEndOfStream (cfg : BrokerConfig) (st : Broker) (m : Message)
    (h : st.isEndOfStream = true) : (handleMessage cfg st m).isEndOfStream = true := by
  cases m with
  | metadata => exact h
  | translatedBlock => exact h
  | execTB index pc fbMAs => simp [handleMessage, tbExec_isEndOfStream, h]

/-- Only a non-sentinel `ExecTB` changes the queue among the messages. -/
theorem handleMessage_tbQueue (cfg : BrokerConfig) (st : Broker) (m : Message)
    (h : (Event.recv m).isExecTB = false) : (handleMessage cfg st m).tbQueue = st.tbQueue := by
  cases m with
  | metadata => rfl
  | translatedBlock => rfl
  | execTB index pc fbMAs =>
    have hsig : isEndSignal index pc = true := by simpa [Event.isExecTB] using h
    simp [handleMessage, tbExec_of_isEndSignal fbMAs hsig]

/-- **No step of the system clears the flag.** -/
theorem step_isEndOfStream {cfg : BrokerConfig} {sys sys' : System} {e : Event}
    (hstep : step cfg sys e = some sys') (h : sys.broker.isEndOfStream = true) :
    sys'.broker.isEndOfStream = true := by
  cases e with
  | recv m =>
    cases hstep
    exact handleMessage_isEndOfStream cfg _ m h
  | fetchBegin outLen size =>
    simp only [step] at hstep
    split at hstep <;> cases hstep
    · exact h
    · exact h
  | fetchEnd =>
    simp only [step] at hstep
    split at hstep <;> cases hstep
    exact h

/-! ## (2) Drained systems -/

/-- The queue is empty and the stream has ended. -/
def Drained (sys : System) : Prop := sys.broker.tbQueue = [] ∧ sys.broker.isEndOfStream = true

/-- A call on a drained broker with a non-zero size returns `-1`. -/
theorem fetchSelect_of_drained {st : Broker} (hq : st.tbQueue = []) (heos : st.isEndOfStream = true)
    (outLen : Nat) {size : Int} (hsize : size ≠ 0) :
    fetchSelect st outLen size = .returns (-1) ⟨true, ""⟩ := by
  simp [fetchSelect, hq, heos, hsize]

/-- **A `-1` return reveals a drained broker.** -/
theorem drained_of_fetchSelect {st : Broker} {outLen : Nat} {size : Int} {rd : RegionDescriptor}
    (h : fetchSelect st outLen size = .returns (-1) rd) :
    st.tbQueue = [] ∧ st.isEndOfStream = true := by
  unfold fetchSelect at h
  split_ifs at h with hsize hq heos
  · cases h
  · exact ⟨List.isEmpty_iff.mp hq, heos⟩
  · split at h <;> cases h

/-- **Every step but a non-sentinel `ExecTB` keeps the system drained.** A call's first block
returns `-1` there and changes nothing; the second block leaves the queue alone. -/
theorem step_drained {cfg : BrokerConfig} {sys sys' : System} {e : Event}
    (hstep : step cfg sys e = some sys') (he : e.isExecTB = false) (h : Drained sys) :
    Drained sys' := by
  obtain ⟨hq, heos⟩ := h
  cases e with
  | recv m =>
    cases hstep
    exact ⟨(handleMessage_tbQueue cfg _ m he).trans hq, handleMessage_isEndOfStream cfg _ m heos⟩
  | fetchBegin outLen size =>
    simp only [step] at hstep
    split at hstep <;> cases hstep
    · exact ⟨hq, heos⟩
    · rename_i hsel
      by_cases hsize : size = 0
      · simp [fetchSelect, hsize] at hsel
      · rw [fetchSelect_of_drained hq heos outLen hsize] at hsel; cases hsel
  | fetchEnd =>
    simp only [step] at hstep
    split at hstep <;> cases hstep
    exact ⟨hq, heos⟩

/-! ## (3) After the end of the stream -/

/-- **The end of the stream is final until another execution arrives.** Once a call has returned
`-1`, the flag stays set in every run that follows; and in every run in which the receiver handles
no `ExecTB` other than the sentinel, every later call with a non-zero size returns `-1`. -/
theorem end_of_stream_final_until_exec (cfg : BrokerConfig) {sys : System} {outLen₀ : Nat}
    {size₀ : Int} {rd : RegionDescriptor}
    (hret : fetchSelect sys.broker outLen₀ size₀ = .returns (-1) rd) :
    (∀ evs sys', run cfg sys evs = some sys' → sys'.broker.isEndOfStream = true) ∧
    (∀ evs sys', (∀ e ∈ evs, e.isExecTB = false) → run cfg sys evs = some sys' →
      ∀ outLen size, size ≠ 0 → fetchSelect sys'.broker outLen size = .returns (-1) ⟨true, ""⟩) := by
  obtain ⟨hq, heos⟩ := drained_of_fetchSelect hret
  refine ⟨fun evs sys' hrun => ?_, fun evs sys' hevs hrun outLen size hsize => ?_⟩
  · exact run_invariant cfg (fun s => s.broker.isEndOfStream = true) evs
      (fun _ _ _ _ h hstep => step_isEndOfStream hstep h) heos hrun
  · obtain ⟨hq', heos'⟩ := run_invariant cfg Drained evs
      (fun _ _ e he h hstep => step_drained hstep (hevs e he) h) ⟨hq, heos⟩ hrun
    exact fetchSelect_of_drained hq' heos' outLen hsize

/-- The theorem on a broker that has seen the sentinel and holds nothing. -/
theorem end_of_stream_final_drained_broker :
    fetchSelect ⟨[], [], true, none, 0, 0, 0⟩ 1 1 = .returns (-1) ⟨true, ""⟩ ∧
    ((∀ evs sys', run byteConfig ⟨⟨[], [], true, none, 0, 0, 0⟩, .idle, none⟩ evs = some sys' →
        sys'.broker.isEndOfStream = true) ∧
      (∀ evs sys', (∀ e ∈ evs, e.isExecTB = false) →
        run byteConfig ⟨⟨[], [], true, none, 0, 0, 0⟩, .idle, none⟩ evs = some sys' →
        ∀ outLen size, size ≠ 0 →
          fetchSelect sys'.broker outLen size = .returns (-1) ⟨true, ""⟩)) :=
  ⟨by decide, @end_of_stream_final_until_exec byteConfig ⟨⟨[], [], true, none, 0, 0, 0⟩, .idle, none⟩
    1 1 ⟨true, ""⟩ (by decide)⟩

/-- **An execution after the sentinel is queued.** Block 0 is registered and the sentinel
received, so a call returns `-1`; an `ExecTB` of block 0 arriving next is queued all the same, and
the following call selects it instead of returning `-1`. -/
theorem exec_after_end_of_stream_queues :
    ((run byteConfig (System.init none)
        [.recv (.translatedBlock 0 [[0x90]]), .recv (.execTB 0xFFFFFFFF 0xFFFFFFFFFFFFFFFF [])]).map
      fun sys => (sys.broker.isEndOfStream, fetchSelect sys.broker 1 1,
        (step byteConfig sys (.recv (.execTB 0 0x1000 []))).map
          fun sys' => (sys'.broker.tbQueue.length, fetchSelect sys'.broker 1 1))) =
    some (true, .returns (-1) ⟨true, ""⟩,
      some (1, .selected 1 [⟨0, 0, 0xFFFF, none, none⟩] [])) := by
  decide

end McadBroker
