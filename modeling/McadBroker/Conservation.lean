import McadBroker.Origins

/-! # The queue loses, duplicates and reorders nothing

The receiver appends slices to `TBQueue`. The consumer's selection loop takes slices from the
queue's head, either whole or cut by `split` when the budget ends inside one. Across every
interleaving of the two threads, the positions `(Index, i)` with `BeginIdx ≤ i < EndIdx` pass
from the queue to the calls in order. Each position the receiver queued is selected by exactly one
call or is still queued, and no call selects a position that was never queued. This holds despite
the overcharged remainders of `Stream`: the charge decides how much a call takes, never which
positions.

* **`TBSlice.positions`** — the positions a slice covers.
* **`split_positions`** — a split inside an ordered slice cuts its positions in two, in order.
* **`selectLoop_positions`** — the selection loop moves positions from the head of the queue to the
  selected slices.
* **`stepHandover`, `runHandovers`** — what each step of a run appends to the queue and selects.
* **`queue_conserves_positions`** — the conservation law over every run whose blocks have at most
  `0xFFFF` raw bytes. -/

namespace McadBroker

/-! ## (1) Positions -/

/-- The positions a slice covers: `(Index, i)` for `BeginIdx ≤ i < EndIdx`. -/
def TBSlice.positions (sl : TBSlice) : List (Nat × Nat) :=
  (List.range' sl.beginIdx.toNat (sl.endIdx.toNat - sl.beginIdx.toNat)).map (sl.index, ·)

/-- The positions of slices, in order. -/
def positionsOf (slices : List TBSlice) : List (Nat × Nat) := slices.flatMap TBSlice.positions

@[simp] theorem positionsOf_nil : positionsOf [] = [] := rfl

@[simp] theorem positionsOf_cons (sl : TBSlice) (slices : List TBSlice) :
    positionsOf (sl :: slices) = sl.positions ++ positionsOf slices := List.flatMap_cons _ _ _

@[simp] theorem positionsOf_append (a b : List TBSlice) :
    positionsOf (a ++ b) = positionsOf a ++ positionsOf b := List.flatMap_append _ _ _

/-- A slice that does not end before it begins. -/
def TBSlice.Ordered (sl : TBSlice) : Prop := sl.beginIdx.toNat ≤ sl.endIdx.toNat

/-- **A split inside an ordered slice cuts its positions in two**: the front piece
`[BeginIdx, BeginIdx + S)` and the remainder `[BeginIdx + S, EndIdx)`, which stays ordered. The
split point lies below `EndIdx`, so its `uint16_t` does not wrap. -/
theorem split_positions {cur : TBSlice} (hord : cur.Ordered) {s : Nat} (hs : s < cur.size) :
    { (cur.split (UInt16.ofNat (cur.beginIdx.toNat + s))).1 with region := none }.positions ++
        (cur.split (UInt16.ofNat (cur.beginIdx.toNat + s))).2.positions = cur.positions ∧
      (cur.split (UInt16.ofNat (cur.beginIdx.toNat + s))).2.Ordered := by
  rw [TBSlice.size_of_le ((uint16_le_iff _ _).mpr hord)] at hs
  have hp : (UInt16.ofNat (cur.beginIdx.toNat + s)).toNat = cur.beginIdx.toNat + s :=
    uint16_toNat_ofNat_of_lt_toNat cur.endIdx (by omega)
  refine ⟨?_, by
    simp only [TBSlice.Ordered, TBSlice.split_snd_beginIdx, TBSlice.split_snd_endIdx, hp]; omega⟩
  simp only [TBSlice.positions, TBSlice.split_fst_index, TBSlice.split_fst_beginIdx,
    TBSlice.split_fst_endIdx, TBSlice.split_snd_index, TBSlice.split_snd_beginIdx,
    TBSlice.split_snd_endIdx, hp, ← List.map_append, Nat.add_sub_cancel_left, List.range'_append_1]
  congr 2
  omega

/-! ## (2) The selection -/

section Selection

variable {tbs : List (Option TranslationBlock)}

/-- **An iteration of the selection loop moves positions from the queue's head to the selected
slices**, and keeps the queue ordered. -/
theorem selectStep_positions (sel : Selection) (hq : ∀ sl ∈ sel.tbQueue, sl.Ordered) :
    positionsOf (selectStep tbs sel).selectedSlices ++ positionsOf (selectStep tbs sel).tbQueue =
        positionsOf sel.selectedSlices ++ positionsOf sel.tbQueue ∧
      ∀ sl ∈ (selectStep tbs sel).tbQueue, sl.Ordered := by
  obtain ⟨queue, s, selected⟩ := sel
  cases queue with
  | nil => exact ⟨rfl, hq⟩
  | cons cur rest =>
    have hrest : ∀ sl ∈ rest, sl.Ordered := fun sl h => hq sl (List.mem_cons_of_mem cur h)
    cases htb : registeredTB tbs cur.index with
    | none => simp only [selectStep, htb, true_and]; exact hq
    | some tb =>
      simp only [selectStep, htb]
      split_ifs with hsplit
      · -- the budget ends inside the head: its front piece is selected, the remainder stays
        obtain ⟨hpos, hord⟩ := split_positions (hq cur (List.mem_cons_self _ _)) (s := s) (by omega)
        refine ⟨?_, fun sl h => ?_⟩
        · simp only [positionsOf_append, positionsOf_cons, positionsOf_nil, List.append_nil,
            List.append_assoc, ← hpos]
        · rcases List.mem_cons.mp h with rfl | h
          exacts [hord, hrest sl h]
      · exact ⟨by simp only [positionsOf_append, positionsOf_cons, positionsOf_nil,
          List.append_nil, List.append_assoc], hrest⟩

theorem selectLoop_positions {fuel : Nat} {sel r : Selection} (h : selectLoop tbs fuel sel = some r)
    (hq : ∀ sl ∈ sel.tbQueue, sl.Ordered) :
    positionsOf r.selectedSlices ++ positionsOf r.tbQueue =
        positionsOf sel.selectedSlices ++ positionsOf sel.tbQueue ∧
      ∀ sl ∈ r.tbQueue, sl.Ordered := by
  induction fuel generalizing sel with
  | zero =>
    simp only [selectLoop] at h
    split_ifs at h; cases h; exact ⟨rfl, hq⟩
  | succ fuel ih =>
    simp only [selectLoop] at h
    split_ifs at h
    · obtain ⟨hstep, hq'⟩ := selectStep_positions sel hq
      obtain ⟨hloop, hr⟩ := ih h hq'
      exact ⟨hloop.trans hstep, hr⟩
    · cases h; exact ⟨rfl, hq⟩

end Selection

/-- **A call's first block splits the queue**: the positions it selects, then those it leaves
queued, are the positions the queue held. -/
theorem fetchSelect_positions {st : Broker} {outLen : Nat} {size : Int} {totalSize : Nat}
    {selected queue : List TBSlice} (h : fetchSelect st outLen size = .selected totalSize selected queue)
    (hq : ∀ sl ∈ st.tbQueue, sl.Ordered) :
    positionsOf selected ++ positionsOf queue = positionsOf st.tbQueue ∧ ∀ sl ∈ queue, sl.Ordered := by
  obtain ⟨r, hr, rfl, rfl⟩ := fetchSelect_eq_selected h
  exact selectLoop_positions hr hq

/-! ## (3) The system -/

/-- What a step hands over: the slices a handled message appends to `TBQueue`, and the slices a
call's first block selects. -/
structure Handover where
  /-- Appended by the receiver. -/
  queued : List TBSlice
  /-- Taken by the consumer. -/
  selected : List TBSlice

/-- The handover of one step. -/
def stepHandover (cfg : BrokerConfig) (sys : System) : Event → Handover
  | .recv m => ⟨(handleMessage cfg sys.broker m).tbQueue.drop sys.broker.tbQueue.length, []⟩
  | .fetchBegin outLen size =>
    match sys.consumer, fetchSelect sys.broker outLen size with
    | .idle, .selected _ selected _ => ⟨[], selected⟩
    | _, _ => ⟨[], []⟩
  | .fetchEnd => ⟨[], []⟩

/-- The handovers of the steps of a run, up to the first step that cannot happen. -/
def runHandovers (cfg : BrokerConfig) : System → List Event → List Handover
  | _, [] => []
  | sys, e :: evs =>
    match step cfg sys e with
    | some sys' => stepHandover cfg sys e :: runHandovers cfg sys' evs
    | none => []

/-- Registered blocks are bounded and queued slices are ordered. -/
def QueueOrdered (sys : System) : Prop :=
  BlocksBounded sys.broker.tbs ∧ ∀ sl ∈ sys.broker.tbQueue, sl.Ordered

/-- **The step lemma**: what a step selects, then what stays queued, is what was queued, then
what the step appends. -/
theorem step_positions {cfg : BrokerConfig} {sys sys' : System} {e : Event}
    (hstep : step cfg sys e = some sys') (hraw : e.rawBytes ≤ 0xFFFF) (h : QueueOrdered sys) :
    positionsOf (stepHandover cfg sys e).selected ++ positionsOf sys'.broker.tbQueue =
        positionsOf sys.broker.tbQueue ++ positionsOf (stepHandover cfg sys e).queued ∧
      QueueOrdered sys' := by
  obtain ⟨hb, hq⟩ := h
  cases e with
  | recv m =>
    cases hstep
    obtain ⟨hb', -, new, hnew, hord⟩ := handleMessage_origins cfg sys.broker m hb hraw
    refine ⟨?_, hb', ?_⟩
    · simp only [stepHandover, hnew, List.drop_left, positionsOf_nil, List.nil_append,
        positionsOf_append]
    · intro sl hsl
      rw [hnew] at hsl
      rcases List.mem_append.mp hsl with hsl | hsl
      · exact hq sl hsl
      · exact (hord sl hsl).1
  | fetchBegin outLen size =>
    simp only [step] at hstep
    split at hstep <;> cases hstep
    · rename_i hc hsel
      simp only [stepHandover, hc, hsel, positionsOf_nil, List.nil_append, List.append_nil, true_and]
      exact ⟨hb, hq⟩
    · rename_i hc hsel
      obtain ⟨hpos, hq'⟩ := fetchSelect_positions hsel hq
      simp only [stepHandover, hc, hsel, positionsOf_nil, List.append_nil]
      exact ⟨hpos, hb, hq'⟩
  | fetchEnd =>
    simp only [step] at hstep
    split at hstep <;> cases hstep
    exact ⟨by simp [stepHandover, System.deliver], hb, hq⟩

/-- The run lemma, from any state that keeps the queue ordered. -/
theorem run_positions {cfg : BrokerConfig} :
    ∀ {evs : List Event} {sys sys' : System}, (∀ e ∈ evs, e.rawBytes ≤ 0xFFFF) →
      QueueOrdered sys → run cfg sys evs = some sys' →
      positionsOf ((runHandovers cfg sys evs).flatMap Handover.selected) ++
          positionsOf sys'.broker.tbQueue =
        positionsOf sys.broker.tbQueue ++
          positionsOf ((runHandovers cfg sys evs).flatMap Handover.queued)
  | [], sys, sys', _, _, hrun => by cases hrun; simp [runHandovers]
  | e :: evs, sys, sys', hraw, h, hrun => by
    rw [run_cons] at hrun
    cases hs : step cfg sys e with
    | none => rw [hs] at hrun; cases hrun
    | some s₁ =>
      rw [hs] at hrun
      obtain ⟨hstep, h₁⟩ := step_positions hs (hraw e (List.mem_cons_self _ _)) h
      have ih := run_positions (fun e' he' => hraw e' (List.mem_cons_of_mem _ he')) h₁ hrun
      simp only [runHandovers, hs, List.flatMap_cons, positionsOf_append, List.append_assoc] at ih ⊢
      rw [ih, ← List.append_assoc, hstep, List.append_assoc]

/-- **The queue conserves positions across every interleaving.** Take any run of receiver steps
and of the two blocks of `fetchRegion` calls, in any order, in which no `TranslatedBlock` carries
more than `0xFFFF` raw bytes. Concatenate, step by step, the positions `(Index, i)` the calls
selected, then append those still queued. The result is exactly the positions the receiver
queued, in the order it queued them. No position is lost, selected twice, reordered or made up,
whatever the sizes of the calls. -/
theorem queue_conserves_positions (cfg : BrokerConfig) (mde : Option MDExchanger) {evs : List Event}
    {sys : System} (hraw : ∀ e ∈ evs, e.rawBytes ≤ 0xFFFF)
    (hrun : run cfg (System.init mde) evs = some sys) :
    positionsOf ((runHandovers cfg (System.init mde) evs).flatMap Handover.selected) ++
        positionsOf sys.broker.tbQueue =
      positionsOf ((runHandovers cfg (System.init mde) evs).flatMap Handover.queued) :=
  run_positions hraw ⟨fun j tb h => by simp [System.init, Broker.init, registeredTB] at h,
    fun _ h => by cases h⟩ hrun

/-- Two calls that both end inside a slice, with an execution queued between them: the first
takes `[0, 2)` of the block's slice, the second the remainder `[2, 0xFFFF)` and `[0, 1)` of the
next slice, which stays queued from `1`. -/
def splitCallsEvents : List Event :=
  [.recv (.translatedBlock 0 [[0x90], [0x90], [0x90]]), .recv (.execTB 0 0x1000 []), .fetchBegin 2 2,
    .recv (.execTB 0 0x1000 []), .fetchEnd, .fetchBegin 4 4]

/-- The state `splitCallsEvents` leads to. -/
def splitCallsSystem : System :=
  ⟨⟨[some ⟨[[0x90], [0x90], [0x90]], [0, 1, 2], [], 0x1000, [0, 1, 2]⟩], [⟨0, 1, 0xFFFF, none, none⟩],
      false, none, 0, 2, 3⟩,
    .delivering 4 [⟨0, 2, 0xFFFF, none, none⟩, ⟨0, 0, 1, none, none⟩], none⟩

theorem positions_conserved_across_split_calls :
    (∀ e ∈ splitCallsEvents, e.rawBytes ≤ 0xFFFF) ∧
      run byteConfig (System.init none) splitCallsEvents = some splitCallsSystem ∧
      positionsOf ((runHandovers byteConfig (System.init none) splitCallsEvents).flatMap
          Handover.selected) ++ positionsOf splitCallsSystem.broker.tbQueue =
        positionsOf ((runHandovers byteConfig (System.init none) splitCallsEvents).flatMap
          Handover.queued) :=
  ⟨by decide, rfl, queue_conserves_positions byteConfig none (by decide) rfl⟩

end McadBroker
