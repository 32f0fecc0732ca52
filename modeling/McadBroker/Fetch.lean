import McadBroker.Handlers

/-! # The fetch engine

`QemuBroker::fetchRegion` runs in two locked blocks. The first (under `QueueMutex`, then also
`TBsMutex`) returns early on a zero size or at the end of the stream, waits on an empty queue, and
otherwise selects slices from the queue's head until the budget is spent or a region ends. The
second (under `TBsMutex`) copies the selected instructions into the output buffer and publishes
their memory accesses.

* **`selectStep`/`selectLoop`** — the selection `while` loop; `selectLoop_eq_none_iff` shows the
  fuel it is given in `fetchSelect` decides whether the loop ever ends.
* **`fetchSelect`** — the first block, ending in `SelectOutcome`.
* **`deliverLoop`/`deliverSlices`** — the second block.
* **`fetchRegion`** — the two blocks run back to back, as a call does when no other thread steps
  in between. -/

namespace McadBroker

/-! ## (1) Selection -/

/-- The selection loop's variables: `TBQueue`, the budget `S`, and `SelectedSlices`. -/
structure Selection where
  /-- `TBQueue`. -/
  tbQueue : List TBSlice
  /-- `S`. -/
  s : Nat
  /-- `SelectedSlices`. -/
  selectedSlices : List TBSlice
  deriving DecidableEq, Repr

/-- `EndOfRegion`: the last selected slice closes a region. The source recomputes it after every
iteration from `SelectedSlices` (false while none is selected), so it is a function of them. -/
def endOfRegion (selected : List TBSlice) : Bool :=
  match selected.getLast? with
  | some sl => sl.region.isSome
  | none => false

/-- The loop condition `S > 0 && !TBQueue.empty() && !EndOfRegion`. -/
def Selection.running (sel : Selection) : Bool :=
  decide (0 < sel.s) && !sel.tbQueue.isEmpty && !endOfRegion sel.selectedSlices

/-- **One iteration of the selection loop.** A head slice of a registered block is charged
`SliceLen = min(|MCInsts|, size())`. When that exceeds the budget the head is split at
`BeginIdx + S` (in `uint16_t`), the front piece is selected without its region, and the budget is
spent; otherwise the head is selected whole and its length charged. A head slice whose block is
not registered stays where it is, and the iteration changes nothing. -/
def selectStep (tbs : List (Option TranslationBlock)) (sel : Selection) : Selection :=
  match sel.tbQueue with
  | [] => sel
  | cur :: rest =>
    match registeredTB tbs cur.index with
    | none => sel
    | some tb =>
      if min tb.mcInsts.length cur.size > sel.s then
        ⟨(cur.split (UInt16.ofNat (cur.beginIdx.toNat + sel.s))).2 :: rest, 0,
          sel.selectedSlices ++ [{ (cur.split (UInt16.ofNat (cur.beginIdx.toNat + sel.s))).1 with
            region := none }]⟩
      else ⟨rest, sel.s - min tb.mcInsts.length cur.size, sel.selectedSlices ++ [cur]⟩

/-- **The selection `while` loop**, for at most `fuel` iterations: `none` if it is still running
after them. -/
def selectLoop (tbs : List (Option TranslationBlock)) : Nat → Selection → Option Selection
  | 0, sel => if sel.running then none else some sel
  | fuel + 1, sel => if sel.running then selectLoop tbs fuel (selectStep tbs sel) else some sel

section SelectLoop

variable {tbs : List (Option TranslationBlock)}

theorem selectLoop_of_not_running {sel : Selection} (h : sel.running = false) (fuel : Nat) :
    selectLoop tbs fuel sel = some sel := by
  cases fuel <;> simp [selectLoop, h]

theorem selectLoop_succ_of_running {sel : Selection} (h : sel.running = true) (fuel : Nat) :
    selectLoop tbs (fuel + 1) sel = selectLoop tbs fuel (selectStep tbs sel) := by
  simp [selectLoop, h]

/-- **The loop ends within one iteration per queued slice, if it ends at all**: every iteration
either takes the head slice off the queue, or spends the budget, or changes nothing. -/
theorem selectLoop_length_of_eq_some {fuel : Nat} {sel r : Selection}
    (h : selectLoop tbs fuel sel = some r) : selectLoop tbs sel.tbQueue.length sel = some r := by
  induction fuel generalizing sel with
  | zero =>
    cases hr : sel.running
    · rw [selectLoop_of_not_running hr] at h ⊢; exact h
    · simp [selectLoop, hr] at h
  | succ fuel ih =>
    cases hr : sel.running
    · rw [selectLoop_of_not_running hr] at h ⊢; exact h
    rw [selectLoop_succ_of_running hr] at h
    obtain ⟨queue, s, selected⟩ := sel
    cases queue with
    | nil => simp [Selection.running] at hr
    | cons cur rest =>
      rw [List.length_cons, selectLoop_succ_of_running hr]
      cases htb : registeredTB tbs cur.index with
      | none =>
        have hstep : selectStep tbs ⟨cur :: rest, s, selected⟩ = ⟨cur :: rest, s, selected⟩ := by
          simp [selectStep, htb]
        rw [hstep] at h ⊢
        have := ih h
        rwa [List.length_cons, selectLoop_succ_of_running hr, hstep] at this
      | some tb =>
        by_cases hsplit : min tb.mcInsts.length cur.size > s
        · have hdone : (selectStep tbs ⟨cur :: rest, s, selected⟩).running = false := by
            simp [selectStep, htb, hsplit, Selection.running]
          rwa [selectLoop_of_not_running hdone] at h ⊢
        · have hstep : (selectStep tbs ⟨cur :: rest, s, selected⟩).tbQueue = rest := by
            simp [selectStep, htb, hsplit]
          have := ih h
          rwa [hstep] at this

/-- **`none` at one iteration per queued slice means the loop never ends**: no fuel ends it. -/
theorem selectLoop_eq_none_iff {sel : Selection} :
    selectLoop tbs sel.tbQueue.length sel = none ↔ ∀ fuel, selectLoop tbs fuel sel = none := by
  refine ⟨fun h fuel => ?_, fun h => h _⟩
  cases hr : selectLoop tbs fuel sel with
  | none => rfl
  | some r => rw [selectLoop_length_of_eq_some hr] at h; cases h

end SelectLoop

/-- What `fetchRegion`'s first locked block ends with. -/
inductive SelectOutcome
  /-- The call returns at once: `(0, RegionDescriptor(false))` for a zero size,
  `(-1, RegionDescriptor(true))` on an empty queue at the end of the stream. -/
  | returns (count : Int) (rd : RegionDescriptor)
  /-- The call waits on `QueueCV`: the queue is empty and the stream has not ended. -/
  | waits
  /-- The selection loop never ends. -/
  | spins
  /-- The loop ended: the clamped size, the selected slices and the queue left behind. -/
  | selected (totalSize : Nat) (selectedSlices : List TBSlice) (tbQueue : List TBSlice)
  deriving DecidableEq, Repr

/-- The clamped request: `Size < 0 || Size > MCIS.size()` takes the buffer's size. -/
def clampSize (outLen : Nat) (size : Int) : Nat :=
  if size < 0 ∨ size > outLen then outLen else size.toNat

/-- **The first locked block of `fetchRegion`** for a buffer of `outLen` entries and a request of
`size`: the early returns, the wait, and the selection loop from a budget of the clamped size.
(Woken from the wait, the call runs this same block on the state it then finds.) -/
def fetchSelect (st : Broker) (outLen : Nat) (size : Int) : SelectOutcome :=
  if size = 0 then .returns 0 ⟨false, ""⟩
  else if st.tbQueue.isEmpty then
    if st.isEndOfStream then .returns (-1) ⟨true, ""⟩ else .waits
  else
    match selectLoop st.tbs st.tbQueue.length ⟨st.tbQueue, clampSize outLen size, []⟩ with
    | some sel => .selected (clampSize outLen size) sel.selectedSlices sel.tbQueue
    | none => .spins

/-! ## (2) Delivery -/

/-- `MDExchanger`: the simulator's metadata tables a fetch fills when it is given them. Keys of
`IndexMap` are the instruction pointers the delivery loop read (`none` for a read past the end
of `MCInsts`). -/
structure MDExchanger where
  /-- `IndexMap`: instruction ↦ the sequence number its metadata is filed under. -/
  indexMap : Option MCInstPtr → Option UInt32
  /-- `MDRegistry[mca::MD_LSUnit_MemAccess]`: sequence number ↦ memory access. -/
  memAccessCat : UInt32 → Option MDMemoryAccess

/-- The `setMemoryAccessMD` lambda: with an exchanger, file the access under the instruction's
sequence number. -/
def setMemoryAccessMD (mde : Option MDExchanger) (mci : Option MCInstPtr) (seq : UInt32)
    (mda : MDMemoryAccess) : Option MDExchanger :=
  mde.map fun m =>
    ⟨Function.update m.indexMap mci (some seq), Function.update m.memAccessCat seq (some mda)⟩

/-- What the delivery block has produced so far: `MCIS[0 .. TotalSize - Size)` in the order written,
`TotalNumTraces`, and the exchanger. -/
structure Delivered where
  /-- The entries written to `MCIS`. -/
  out : List (Option MCInstPtr)
  /-- `TotalNumTraces`. -/
  totalNumTraces : UInt32
  /-- The metadata exchanger, if the call was given one. -/
  mde : Option MDExchanger

/-- **The delivery loop over one slice**, `for (i = BeginIdx; i != End && Size > 0; ++i, --Size)`,
recursing on `Size`. Each step writes `MCInsts[i]` (`none` when `i` is past the end of
`MCInsts`), advances `TotalNumTraces`, and publishes the chain's front entry under the new
sequence number when the entry's index is `i`. Returns the remaining `Size`. -/
def deliverLoop (insts : List MCInstPtr) (endI : Nat) :
    Nat → Nat → MemoryAccessChain → Delivered → Nat × Delivered
  | 0, _, _, d => (0, d)
  | size + 1, i, mas, d =>
    if i = endI then (size + 1, d)
    else
      let d := { d with out := d.out ++ [insts.get? i], totalNumTraces := d.totalNumTraces + 1 }
      match mas with
      | (j, mda) :: rest =>
        if j = i then
          deliverLoop insts endI size (i + 1) rest
            { d with mde := setMemoryAccessMD d.mde (insts.get? i) d.totalNumTraces mda }
        else deliverLoop insts endI size (i + 1) mas d
      | [] => deliverLoop insts endI size (i + 1) [] d

/-- The number of positions the delivery loop reads from `i`: up to `End` while `i` has not passed
it, else until the size runs out (the loop tests `i != End`, not `i < End`). -/
def deliverSteps (endI size i : Nat) : Nat := if i ≤ endI then min (endI - i) size else size

theorem deliverSteps_succ {endI size i : Nat} (h : i ≠ endI) :
    deliverSteps endI (size + 1) i = deliverSteps endI size (i + 1) + 1 := by
  unfold deliverSteps; split_ifs <;> omega

/-- One iteration of the delivery loop writes `MCInsts[i]` and moves on to `i + 1`, with whatever it
did to the chain and the exchanger. -/
theorem deliverLoop_succ (insts : List MCInstPtr) {endI i : Nat} (size : Nat)
    (mas : MemoryAccessChain) (d : Delivered) (h : i ≠ endI) :
    ∃ mas' d', d'.out = d.out ++ [insts.get? i] ∧
      deliverLoop insts endI (size + 1) i mas d = deliverLoop insts endI size (i + 1) mas' d' := by
  rcases mas with _ | ⟨⟨j, mda⟩, rest⟩ <;> simp only [deliverLoop, h, if_false]
  · exact ⟨_, _, rfl, rfl⟩
  · split <;> exact ⟨_, _, rfl, rfl⟩

/-- **The delivery loop reads positions `i, i + 1, …` for `deliverSteps` steps** and returns the size
left over. -/
theorem deliverLoop_spec (insts : List MCInstPtr) (endI size i : Nat) (mas : MemoryAccessChain)
    (d : Delivered) :
    (deliverLoop insts endI size i mas d).1 = size - deliverSteps endI size i ∧
    (deliverLoop insts endI size i mas d).2.out =
      d.out ++ (List.range' i (deliverSteps endI size i)).map insts.get? := by
  induction size generalizing i mas d with
  | zero => simp [deliverLoop, deliverSteps]
  | succ size ih =>
    by_cases hi : i = endI
    · subst hi; simp [deliverLoop, deliverSteps]
    · obtain ⟨mas', d', hout, heq⟩ := deliverLoop_succ insts size mas d hi
      rw [heq, deliverSteps_succ hi, List.range'_succ, (ih (i + 1) mas' d').2, hout]
      exact ⟨by rw [(ih (i + 1) mas' d').1]; omega, by simp⟩

/-- Reading consecutive positions inside a list reads its elements. -/
theorem map_get?_range' (insts : List MCInstPtr) {i k : Nat} (h : i + k ≤ insts.length) :
    (List.range' i k).map insts.get? = ((insts.drop i).take k).map some := by
  induction k generalizing i with
  | zero => simp
  | succ k ih =>
    rw [List.range'_succ, List.map_cons, ih (by omega), List.get?_eq_get (by omega)]
    conv_rhs => rw [List.drop_eq_getElem_cons (by omega)]
    rfl

/-- **A loop that starts inside its slice reads only the block's instructions**: from `i` up to
`End`, as far as the size allows. -/
theorem deliverLoop_out_of_le (insts : List MCInstPtr) {endI i : Nat} (size : Nat)
    (mas : MemoryAccessChain) (d : Delivered) (hi : i ≤ endI) (hend : endI ≤ insts.length) :
    (deliverLoop insts endI size i mas d).2.out =
      d.out ++ ((insts.drop i).take (min (endI - i) size)).map some := by
  rw [(deliverLoop_spec insts endI size i mas d).2, deliverSteps, if_pos hi,
    map_get?_range' insts (by omega)]

/-- `TBs[TBIdx]->MCInsts` in the delivery block. The block does not check the slot; an
unregistered slot reads as no instructions here. -/
def sliceInsts (tbs : List (Option TranslationBlock)) (index : Nat) : List MCInstPtr :=
  ((registeredTB tbs index).map (·.mcInsts)).getD []

/-- **The delivery block**: each selected slice in order, from `BeginIdx` to
`End = min(|MCInsts|, EndIdx)`, while the size lasts; each chain is then released. -/
def deliverSlices (tbs : List (Option TranslationBlock)) :
    List TBSlice → Nat → Delivered → Nat × Delivered
  | [], size, d => (size, d)
  | sl :: rest, size, d =>
    let r := deliverLoop (sliceInsts tbs sl.index)
      (min (sliceInsts tbs sl.index).length sl.endIdx.toNat) size sl.beginIdx.toNat
      (sl.memoryAccesses.getD []) d
    deliverSlices tbs rest r.1 r.2

/-- The region descriptor `fetchRegion` returns: the end of the last selected slice's region, if
it closes one. -/
def fetchRegionDescriptor (selected : List TBSlice) : RegionDescriptor :=
  match selected.getLast? >>= (·.region) with
  | some r => ⟨true, r.description⟩
  | none => ⟨false, ""⟩

/-! ## (3) `fetchRegion` -/

/-- How a `fetchRegion` call ends when it runs alone. -/
inductive FetchOutcome
  /-- It returns `count` and `rd` having written `out`, leaving the broker `st` and exchanger `mde`. -/
  | returns (count : Int) (rd : RegionDescriptor) (out : List (Option MCInstPtr)) (st : Broker)
      (mde : Option MDExchanger)
  /-- It waits on `QueueCV`. -/
  | waits
  /-- Its selection loop never ends. -/
  | spins

/-- **`QemuBroker::fetchRegion`** with no other thread stepping between its two blocks: the count
is `TotalSize - Size`. -/
def fetchRegion (st : Broker) (outLen : Nat) (size : Int) (mde : Option MDExchanger) :
    FetchOutcome :=
  match fetchSelect st outLen size with
  | .returns count rd => .returns count rd [] st mde
  | .waits => .waits
  | .spins => .spins
  | .selected totalSize selected tbQueue =>
    let r := deliverSlices st.tbs selected totalSize ⟨[], st.totalNumTraces, mde⟩
    .returns (totalSize - r.1 : Int) (fetchRegionDescriptor selected) r.2.out
      { st with tbQueue := tbQueue, totalNumTraces := r.2.totalNumTraces } r.2.mde

end McadBroker
