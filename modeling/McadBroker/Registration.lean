import McadBroker.System

/-! # Queued slices and registered blocks

The selection loop of `fetchRegion` skips nothing: a head slice whose block is not registered
(`TBIdx >= TBs.size() || !TBs[TBIdx]`) stays at the head, and the loop runs again, holding both
mutexes. The loop ends only if every slice it reaches refers to a registered block.

* **`selectStep_progress`** — at a registered head, an iteration removes the head or spends the
  budget; **`selectLoop_of_registered`** — so the loop ends within one iteration per slice.
* **`selectLoop_of_unregistered_head`** — at an unregistered head it never ends.
* **`step_slicesRegistered`** — every step keeps the queued and selected slices registered, except
  a `TranslatedBlock` at index `0xFFFFFFFF`, whose `TB.Index() + 1` wraps to a resize to zero.
* **`run_slicesRegistered`** — over a run without such a message, no call's selection loop spins.
* **`translated_block_at_last_index_spins`** — with one, a reachable state spins every call. -/

namespace McadBroker

/-- Every slice of `slices` refers to a block registered in `tbs`. -/
def Registered (tbs : List (Option TranslationBlock)) (slices : List TBSlice) : Prop :=
  ∀ sl ∈ slices, (registeredTB tbs sl.index).isSome

/-- Every slot registered in `tbs` is registered in `tbs'`. -/
def KeepsSlots (tbs tbs' : List (Option TranslationBlock)) : Prop :=
  ∀ j, (registeredTB tbs j).isSome → (registeredTB tbs' j).isSome

theorem Registered.mono {tbs tbs' : List (Option TranslationBlock)} {slices : List TBSlice}
    (h : Registered tbs slices) (hk : KeepsSlots tbs tbs') : Registered tbs' slices :=
  fun sl hsl => hk _ (h sl hsl)

@[simp] theorem registered_nil (tbs : List (Option TranslationBlock)) : Registered tbs [] := by
  simp [Registered]

@[simp] theorem registered_append {tbs : List (Option TranslationBlock)} {l l' : List TBSlice} :
    Registered tbs (l ++ l') ↔ Registered tbs l ∧ Registered tbs l' := by
  simp [Registered, or_imp, forall_and]

@[simp] theorem registered_cons {tbs : List (Option TranslationBlock)} {sl : TBSlice}
    {l : List TBSlice} :
    Registered tbs (sl :: l) ↔ (registeredTB tbs sl.index).isSome ∧ Registered tbs l := by
  simp [Registered]

/-- A registered slice's index is inside `TBs` and its slot holds a block. -/
theorem Registered.index_lt {tbs : List (Option TranslationBlock)} {slices : List TBSlice}
    (h : Registered tbs slices) {sl : TBSlice} (hsl : sl ∈ slices) :
    sl.index < tbs.length ∧ ∃ tb, tbs.get? sl.index = some (some tb) := by
  obtain ⟨tb, htb⟩ := Option.isSome_iff_exists.mp (h sl hsl)
  refine ⟨length_of_registeredTB htb, tb, ?_⟩
  simp only [registeredTB, Option.join_eq_some] at htb
  exact htb

/-! ## (1) The selection loop -/

section Selection

variable {tbs : List (Option TranslationBlock)}

/-- An iteration at an unregistered head changes nothing. -/
theorem selectStep_of_unregistered {sel : Selection} {cur : TBSlice} {rest : List TBSlice}
    (hq : sel.tbQueue = cur :: rest) (hcur : registeredTB tbs cur.index = none) :
    selectStep tbs sel = sel := by
  simp [selectStep, hq, hcur]

/-- **An iteration at a registered head removes the head or sets `S` to zero.** -/
theorem selectStep_progress {sel : Selection} {cur : TBSlice} {rest : List TBSlice}
    (hq : sel.tbQueue = cur :: rest) (hcur : (registeredTB tbs cur.index).isSome) :
    (selectStep tbs sel).tbQueue = rest ∨ (selectStep tbs sel).s = 0 := by
  obtain ⟨tb, htb⟩ := Option.isSome_iff_exists.mp hcur
  by_cases hsplit : min tb.mcInsts.length cur.size > sel.s
  · exact .inr (by simp [selectStep, hq, htb, hsplit])
  · exact .inl (by simp [selectStep, hq, htb, hsplit])

/-- An iteration keeps the queue and the selected slices registered: it moves slices, or pieces
of one with its index, from the queue to the selection. -/
theorem selectStep_registered {sel : Selection} (hq : Registered tbs sel.tbQueue) :
    Registered tbs (selectStep tbs sel).tbQueue ∧
    (Registered tbs sel.selectedSlices → Registered tbs (selectStep tbs sel).selectedSlices) := by
  obtain ⟨queue, s, selected⟩ := sel
  cases queue with
  | nil => exact ⟨hq, id⟩
  | cons cur rest =>
    obtain ⟨hcur, hrest⟩ := registered_cons.mp hq
    cases htb : registeredTB tbs cur.index with
    | none => simp only [selectStep, htb]; exact ⟨hq, id⟩
    | some tb =>
      simp only [selectStep, htb]
      split_ifs
      · simp_all
      · simp_all

theorem selectLoop_registered {fuel : Nat} {sel r : Selection} (h : selectLoop tbs fuel sel = some r)
    (hq : Registered tbs sel.tbQueue) (hs : Registered tbs sel.selectedSlices) :
    Registered tbs r.tbQueue ∧ Registered tbs r.selectedSlices := by
  induction fuel generalizing sel with
  | zero =>
    simp only [selectLoop] at h
    split_ifs at h; cases h; exact ⟨hq, hs⟩
  | succ fuel ih =>
    simp only [selectLoop] at h
    split_ifs at h
    · exact ih h (selectStep_registered hq).1 ((selectStep_registered hq).2 hs)
    · cases h; exact ⟨hq, hs⟩

/-- **Over a registered queue the selection loop ends** within one iteration per queued slice. -/
theorem selectLoop_of_registered {sel : Selection} (hq : Registered tbs sel.tbQueue) :
    (selectLoop tbs sel.tbQueue.length sel).isSome := by
  generalize h : sel.tbQueue.length = n
  induction n generalizing sel with
  | zero => simp [selectLoop_of_not_running, Selection.running, List.length_eq_zero.mp h]
  | succ n ih =>
    cases hr : sel.running
    · simp [selectLoop_of_not_running hr]
    obtain ⟨cur, rest, hq'⟩ := List.exists_cons_of_length_eq_add_one h
    rw [selectLoop_succ_of_running hr]
    rcases selectStep_progress hq' (registered_cons.mp (hq' ▸ hq)).1 with hpop | hspent
    · exact ih (selectStep_registered hq).1 (by rw [hpop]; simpa [hq'] using h)
    · have hdone : (selectStep tbs sel).running = false := by simp [Selection.running, hspent]
      simp [selectLoop_of_not_running hdone]

/-- **At an unregistered head the selection loop never ends**, whatever its fuel. -/
theorem selectLoop_of_unregistered_head {sel : Selection} {cur : TBSlice} {rest : List TBSlice}
    (hq : sel.tbQueue = cur :: rest) (hcur : registeredTB tbs cur.index = none)
    (hr : sel.running = true) (fuel : Nat) : selectLoop tbs fuel sel = none := by
  induction fuel with
  | zero => simp [selectLoop, hr]
  | succ fuel ih => rw [selectLoop_succ_of_running hr, selectStep_of_unregistered hq hcur, ih]

end Selection

/-- A non-zero request on a non-empty buffer leaves a positive budget. -/
theorem clampSize_pos {outLen : Nat} {size : Int} (hout : 0 < outLen) (hsize : size ≠ 0) :
    0 < clampSize outLen size := by
  unfold clampSize; split_ifs <;> omega

/-- **A registered queue never makes a call spin.** -/
theorem fetchSelect_ne_spins {st : Broker} (hq : Registered st.tbs st.tbQueue) (outLen : Nat)
    (size : Int) : fetchSelect st outLen size ≠ .spins := by
  unfold fetchSelect
  split_ifs
  · simp
  · simp
  · simp
  · obtain ⟨r, hr⟩ := Option.isSome_iff_exists.mp
      (@selectLoop_of_registered st.tbs ⟨st.tbQueue, clampSize outLen size, []⟩ hq)
    simp [hr]

/-- The slices a call's first block selects, and the queue it leaves, stay registered. -/
theorem fetchSelect_registered {st : Broker} {outLen : Nat} {size : Int} {totalSize : Nat}
    {selected queue : List TBSlice} (h : fetchSelect st outLen size = .selected totalSize selected queue)
    (hq : Registered st.tbs st.tbQueue) :
    Registered st.tbs queue ∧ Registered st.tbs selected := by
  unfold fetchSelect at h
  split_ifs at h
  split at h
  · rename_i sel hsel
    cases h
    exact selectLoop_registered hsel hq (registered_nil _)
  · cases h

/-! ## (2) The handlers -/

/-- An event that registers a block at index `0xFFFFFFFF`. -/
def Event.addsLastIndex : Event → Bool
  | .recv (.translatedBlock index _) => index == 0xFFFFFFFF
  | _ => false

theorem mem_cutSlices {index : Nat} {cut : RegionCut} {chain : Option MemoryAccessChain}
    {sl : TBSlice} (h : sl ∈ cutSlices index cut chain) : sl.index = index := by
  unfold cutSlices at h
  split_ifs at h
  · simp at h
  · simp only [List.mem_singleton] at h; rw [h]

theorem addTB_keepsSlots (st : Broker) {index : UInt32} (instructions : List RawInstTy)
    (h : index ≠ 0xFFFFFFFF) : KeepsSlots st.tbs (addTB st index instructions).tbs := by
  intro j hj
  rw [(addTB_spec st instructions h).2 j]
  split_ifs <;> simp [hj]

/-- **`tbExec` keeps every slot registered, and queues only slices of its registered block.** -/
theorem tbExec_registered (cfg : BrokerConfig) (st : Broker) (index : UInt32) (pc : UInt64)
    (fbMAs : List MemoryAccess) :
    KeepsSlots st.tbs (tbExec cfg st index pc fbMAs).tbs ∧
    (Registered st.tbs st.tbQueue →
      Registered (tbExec cfg st index pc fbMAs).tbs (tbExec cfg st index pc fbMAs).tbQueue) := by
  cases hsig : isEndSignal index pc
  · cases htb : registeredTB st.tbs index.toNat with
    | none =>
      rw [tbExec_of_unregistered cfg st fbMAs hsig htb]
      exact ⟨fun _ => id, id⟩
    | some tb =>
      rw [tbExec_of_registered cfg st fbMAs hsig htb]
      have hkeep : KeepsSlots st.tbs (st.tbs.set index.toNat
          (some (translateForExec cfg.target tb pc st.nextMCInst).1)) := by
        intro j hj
        rw [registeredTB_set _ (length_of_registeredTB htb)]
        split_ifs <;> simp [hj]
      refine ⟨hkeep, fun hq => registered_append.mpr ⟨hq.mono hkeep, fun sl hsl => ?_⟩⟩
      rw [mem_cutSlices hsl, registeredTB_set _ (length_of_registeredTB htb), if_pos rfl]
      rfl
  · rw [tbExec_of_isEndSignal fbMAs hsig]
    exact ⟨fun _ => id, id⟩

/-- **A message other than a `TranslatedBlock` at index `0xFFFFFFFF` keeps every slot registered,
and the queue registered.** -/
theorem handleMessage_registered (cfg : BrokerConfig) (st : Broker) {m : Message}
    (hm : (Event.recv m).addsLastIndex = false) :
    KeepsSlots st.tbs (handleMessage cfg st m).tbs ∧
    (Registered st.tbs st.tbQueue →
      Registered (handleMessage cfg st m).tbs (handleMessage cfg st m).tbQueue) := by
  cases m with
  | metadata => exact ⟨fun _ => id, id⟩
  | translatedBlock index instructions =>
    have hk := addTB_keepsSlots st instructions (by simpa [Event.addsLastIndex] using hm)
    exact ⟨hk, fun hq => hq.mono hk⟩
  | execTB index pc fbMAs => exact tbExec_registered cfg st index pc fbMAs

/-! ## (3) The system -/

/-- The slices the consumer holds between the two blocks of a call. -/
def Consumer.selected : Consumer → List TBSlice
  | .idle => []
  | .delivering _ selected => selected

/-- **The registration invariant**: the queued slices and those the consumer is about to deliver
refer to registered blocks. -/
def SlicesRegistered (sys : System) : Prop :=
  Registered sys.broker.tbs sys.broker.tbQueue ∧ Registered sys.broker.tbs sys.consumer.selected

theorem slicesRegistered_init (mde : Option MDExchanger) : SlicesRegistered (System.init mde) :=
  ⟨registered_nil _, registered_nil _⟩

/-- **Every step but a `TranslatedBlock` at index `0xFFFFFFFF` keeps the invariant.** -/
theorem step_slicesRegistered {cfg : BrokerConfig} {sys sys' : System} {e : Event}
    (hstep : step cfg sys e = some sys') (he : e.addsLastIndex = false)
    (h : SlicesRegistered sys) : SlicesRegistered sys' := by
  obtain ⟨hq, hs⟩ := h
  cases e with
  | recv m =>
    cases hstep
    obtain ⟨hk, hkq⟩ := handleMessage_registered cfg sys.broker he
    exact ⟨hkq hq, hs.mono hk⟩
  | fetchBegin outLen size =>
    simp only [step] at hstep
    split at hstep <;> cases hstep
    · exact ⟨hq, hs⟩
    · rename_i hsel
      obtain ⟨hq', hs'⟩ := fetchSelect_registered hsel hq
      exact ⟨hq', hs'⟩
  | fetchEnd =>
    simp only [step] at hstep
    split at hstep <;> cases hstep
    exact ⟨hq, registered_nil _⟩

/-- **Without a `TranslatedBlock` at index `0xFFFFFFFF`, queued slices stay registered and no call
spins.** In every state a run of such events reaches, every queued slice and every slice the
consumer is about to deliver has its index inside `TBs` and a block in its slot, and the selection
loop of every call ends within one iteration per queued slice. -/
theorem run_slicesRegistered (cfg : BrokerConfig) (mde : Option MDExchanger) {evs : List Event}
    {sys : System} (hevs : ∀ e ∈ evs, e.addsLastIndex = false)
    (hrun : run cfg (System.init mde) evs = some sys) :
    (∀ sl ∈ sys.broker.tbQueue ++ sys.consumer.selected,
      sl.index < sys.broker.tbs.length ∧ ∃ tb, sys.broker.tbs.get? sl.index = some (some tb)) ∧
    ∀ outLen size, fetchSelect sys.broker outLen size ≠ .spins := by
  obtain ⟨hq, hs⟩ := run_invariant cfg SlicesRegistered evs
    (fun _ _ e he h hstep => step_slicesRegistered hstep (hevs e he) h) (slicesRegistered_init mde)
    hrun
  exact ⟨fun sl hsl => (registered_append.mpr ⟨hq, hs⟩).index_lt hsl, fetchSelect_ne_spins hq⟩

/-- Register and execute a one-instruction block, then start a call of size one. -/
def oneBlockEvents : List Event :=
  [.recv (.translatedBlock 0 [[0x90]]), .recv (.execTB 0 0x1000 []), .fetchBegin 1 1]

/-- The system that run leaves: the block's slice selected, the queue empty. -/
def oneBlockSystem : System :=
  ⟨⟨[some ⟨[[0x90]], [0], [], 0x1000, [0]⟩], [], false, none, 0, 0, 1⟩,
    .delivering 1 [⟨0, 0, 0xFFFF, none, none⟩], none⟩

/-- The theorem on a run that registers, executes and selects a one-instruction block. -/
theorem run_slicesRegistered_one_block :
    (∀ e ∈ oneBlockEvents, e.addsLastIndex = false) ∧
    run byteConfig (System.init none) oneBlockEvents = some oneBlockSystem ∧
    ((∀ sl ∈ oneBlockSystem.broker.tbQueue ++ oneBlockSystem.consumer.selected,
      sl.index < oneBlockSystem.broker.tbs.length ∧
        ∃ tb, oneBlockSystem.broker.tbs.get? sl.index = some (some tb)) ∧
      ∀ outLen size, fetchSelect oneBlockSystem.broker outLen size ≠ .spins) :=
  ⟨by decide, rfl,
    @run_slicesRegistered byteConfig none oneBlockEvents oneBlockSystem (by decide) rfl⟩

/-! ## (4) A block at index `0xFFFFFFFF` -/

/-- Register block 0, execute it, then register a block at index `0xFFFFFFFF`. -/
def lastIndexEvents : List Event :=
  [.recv (.translatedBlock 0 [[0x90]]), .recv (.execTB 0 0x1000 []),
    .recv (.translatedBlock 0xFFFFFFFF [[0x90]])]

/-- The broker that run leaves: `TBs` resized to zero under the queued slice of block 0 (the
assignment at `0xFFFFFFFF` that follows writes out of bounds in the source). -/
def lastIndexBroker : Broker := ⟨[], [⟨0, 0, 0xFFFF, none, none⟩], false, none, 0, 0, 1⟩

/-- **A `TranslatedBlock` at index `0xFFFFFFFF` unregisters the queue and spins every call.** The run
is reachable; `addTB` leaves `TBs` empty, so index `0xFFFFFFFF` is not below its size and block 0
is gone; the queued slice of block 0 is unregistered; and the selection loop of every call with a
non-zero request on a non-empty buffer runs forever. -/
theorem translated_block_at_last_index_spins :
    run byteConfig (System.init none) lastIndexEvents = some ⟨lastIndexBroker, .idle, none⟩ ∧
    lastIndexBroker.tbs.length = 0 ∧
    (∀ sl ∈ lastIndexBroker.tbQueue, registeredTB lastIndexBroker.tbs sl.index = none) ∧
    ∀ outLen size, 0 < outLen → size ≠ 0 →
      fetchSelect lastIndexBroker outLen size = .spins ∧
      ∀ fuel, selectLoop lastIndexBroker.tbs fuel
        ⟨lastIndexBroker.tbQueue, clampSize outLen size, []⟩ = none := by
  refine ⟨rfl, rfl, by decide, fun outLen size hout hsize => ?_⟩
  have hr : (Selection.running ⟨lastIndexBroker.tbQueue, clampSize outLen size, []⟩) = true := by
    simp [Selection.running, lastIndexBroker, endOfRegion, clampSize_pos hout hsize]
  have hspin := @selectLoop_of_unregistered_head lastIndexBroker.tbs
    ⟨lastIndexBroker.tbQueue, clampSize outLen size, []⟩ _ _ rfl rfl hr
  have hne : lastIndexBroker.tbQueue.isEmpty = false := rfl
  refine ⟨?_, hspin⟩
  simp only [fetchSelect, hsize, hne, hspin, if_false, Bool.false_eq_true]

end McadBroker
