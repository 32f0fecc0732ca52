import McadBroker.Stream

/-! # Region tracking

With a region manifest, `tbExec` queues only the instructions inside regions. The design reads as
an automaton over the executed instructions: outside a region an instruction whose load-relative
address starts one enters it; inside, every instruction is emitted, and the one at the region's
`EndAddr` closes it with an end marker. `tbExec` runs this automaton a block at a time with one
slice per execution: once a region closes, the rest of the block is skipped, so a second region
cannot start in the block that closed the first. An instruction's address is the block's address
plus its true offset in the block; `tbExec` adds the recorded `uint8_t` offset instead, which is
the true one while the block has at most 256 bytes.

* **`regionMove`, `regionRun`** — the automaton, instruction by instruction.
* **`blockRun`, `blocksRun`** — the automaton as `tbExec` runs it, block by block.
* **`regionCut_refines`** — the slice `regionCut` queues, and the next `CurBinRegion`, are what
  `blockRun` gives on the decoded block at its recorded offsets.
* **`executed`, `offsetsAfter`** — the automaton's input: each executed instruction at the address
  of its true offset, which runs carry beside the broker as ghost state; `OffsetsTrue`, kept by
  every message of at most 256 raw bytes, says the recorded offsets are the true ones.
* **`receiver_follows_block_automaton`** — over every run of the receiver with blocks of at most
  256 raw bytes, what is queued is `blocksRun` over what is executed.
* **`second_region_in_block_skipped`** — and it differs from `regionRun`. -/

namespace McadBroker

/-! ## (1) The automaton -/

/-- An executed instruction as the region automaton sees it: the instruction, and its
load-relative address when it is defined. -/
abbrev Executed := MCInstPtr × Option UInt64

/-- What the automaton does with one instruction: whether it emits it, the region whose end marker
follows it, and the next state (`none` is Outside, `some r` is Inside `r`). -/
structure RegionMove where
  /-- The instruction is emitted. -/
  emit : Bool
  /-- The region closed after it. -/
  closes : Option BinaryRegion
  /-- The next state. -/
  next : Option BinaryRegion
  deriving DecidableEq, Repr

/-- Inside `r`: emit the instruction, and close `r` when it is at `EndAddr`. -/
def insideMove (r : BinaryRegion) (addr : Option UInt64) : RegionMove :=
  if addr = some r.endAddr then ⟨true, some r, none⟩ else ⟨true, none, some r⟩

/-- **The region automaton on one instruction at `addr`.** With no regions configured every
instruction is emitted. Outside, an instruction whose address starts a region enters it (and may
close it at once); any other is skipped. Inside, every instruction is emitted. -/
def regionMove (regions : List BinaryRegion) (q : Option BinaryRegion) (addr : Option UInt64) :
    RegionMove :=
  if regions.isEmpty then ⟨true, none, q⟩
  else
    match q with
    | some r => insideMove r addr
    | none =>
      match addr.bind (BinaryRegions.lookup regions) with
      | some r => insideMove r addr
      | none => ⟨false, none, none⟩

/-- The stream items of a move on instruction `inst`. -/
def RegionMove.items (m : RegionMove) (inst : MCInstPtr) : List StreamItem :=
  (if m.emit then [.inst (some inst)] else []) ++
    (m.closes.map (StreamItem.regionEnd ·.description)).toList

/-- **The automaton over executed instructions**, from state `q`: the stream, and the final state. -/
def regionRun (regions : List BinaryRegion) :
    Option BinaryRegion → List Executed → List StreamItem × Option BinaryRegion
  | q, [] => ([], q)
  | q, x :: xs =>
    ((regionMove regions q x.2).items x.1 ++ (regionRun regions (regionMove regions q x.2).next xs).1,
      (regionRun regions (regionMove regions q x.2).next xs).2)

/-- **The automaton over one block as `tbExec` runs it**: after an end marker the rest of the block
is skipped. -/
def blockRun (regions : List BinaryRegion) :
    Option BinaryRegion → List Executed → List StreamItem × Option BinaryRegion
  | q, [] => ([], q)
  | q, x :: xs =>
    if (regionMove regions q x.2).closes.isSome then
      ((regionMove regions q x.2).items x.1, (regionMove regions q x.2).next)
    else
      ((regionMove regions q x.2).items x.1 ++ (blockRun regions (regionMove regions q x.2).next xs).1,
        (blockRun regions (regionMove regions q x.2).next xs).2)

/-- The block automaton over the blocks executed in order. -/
def blocksRun (regions : List BinaryRegion) :
    Option BinaryRegion → List (List Executed) → List StreamItem × Option BinaryRegion
  | q, [] => ([], q)
  | q, b :: bs =>
    ((blockRun regions q b).1 ++ (blocksRun regions (blockRun regions q b).2 bs).1,
      (blocksRun regions (blockRun regions q b).2 bs).2)

section BlockRun

variable {regions : List BinaryRegion}

/-- With no regions configured the block is emitted whole. -/
theorem blockRun_nil_regions (q : Option BinaryRegion) (xs : List Executed) :
    blockRun [] q xs = ((xs.map Prod.fst).map (StreamItem.inst ∘ some), q) := by
  induction xs with
  | nil => rfl
  | cons x xs ih => simp [blockRun, regionMove, RegionMove.items, ih]

/-! The four things an instruction can do to the block automaton, with regions configured. -/

/-- Outside, an instruction that starts no region is skipped. -/
theorem blockRun_cons_skip (hne : regions.isEmpty = false) {a : Option UInt64} (inst : MCInstPtr)
    (xs : List Executed) (h : a.bind (BinaryRegions.lookup regions) = none) :
    blockRun regions none ((inst, a) :: xs) = blockRun regions none xs := by
  simp [blockRun, regionMove, hne, h, RegionMove.items]

/-- Outside, an instruction that starts region `r` is handled as inside `r`. -/
theorem blockRun_cons_enter (hne : regions.isEmpty = false) {a : Option UInt64} {r : BinaryRegion}
    (inst : MCInstPtr) (xs : List Executed) (h : a.bind (BinaryRegions.lookup regions) = some r) :
    blockRun regions none ((inst, a) :: xs) = blockRun regions (some r) ((inst, a) :: xs) := by
  simp only [blockRun, regionMove, hne, h, Bool.false_eq_true, if_false]

/-- Inside, an instruction away from the region's end is emitted. -/
theorem blockRun_cons_inside (hne : regions.isEmpty = false) {r : BinaryRegion} {a : Option UInt64}
    (inst : MCInstPtr) (xs : List Executed) (h : a ≠ some r.endAddr) :
    blockRun regions (some r) ((inst, a) :: xs) =
      (.inst (some inst) :: (blockRun regions (some r) xs).1, (blockRun regions (some r) xs).2) := by
  simp [blockRun, regionMove, hne, insideMove, h, RegionMove.items]

/-- Inside, the instruction at the region's end is emitted, the region closed, and the rest of
the block skipped. -/
theorem blockRun_cons_close (hne : regions.isEmpty = false) (r : BinaryRegion) (inst : MCInstPtr)
    (xs : List Executed) :
    blockRun regions (some r) ((inst, some r.endAddr) :: xs) =
      ([.inst (some inst), .regionEnd r.description], none) := by
  simp [blockRun, regionMove, hne, insideMove, RegionMove.items]

/-- Where addresses are undefined nothing enters a region or closes one: Outside skips the block,
Inside emits it. -/
theorem blockRun_of_undefined (hne : regions.isEmpty = false) (q : Option BinaryRegion) :
    ∀ {M : List MCInstPtr} {O : List UInt8}, O.length = M.length →
      blockRun regions q (M.zip (O.map fun _ => none)) =
        (if q.isSome then M.map (StreamItem.inst ∘ some) else [], q)
  | [], [], _ => by cases q <;> rfl
  | [], _ :: _, hlen => by cases hlen
  | _ :: _, [], hlen => by cases hlen
  | m :: M, o :: O, hlen => by
    have ih := blockRun_of_undefined hne q (M := M) (O := O) (by simpa using hlen)
    rw [List.map_cons, List.zip_cons_cons]
    cases q with
    | none => rw [blockRun_cons_skip hne (a := none) m _ rfl, ih]; rfl
    | some r => rw [blockRun_cons_inside hne m _ (by simp), ih]; simp

/-- Outside, the start scan finds no region start: the block is skipped. -/
theorem blockRun_of_findRegionStart_none (hne : regions.isEmpty = false) {va : UInt64} :
    ∀ {O : List UInt8} {M : List MCInstPtr} {i : Nat}, findRegionStart regions va O i = none →
      blockRun regions none (M.zip (O.map fun o => some (va + o.toUInt64))) = ([], none)
  | [], M, _, _ => by cases M <;> rfl
  | o :: O, M, i, h => by
    simp only [findRegionStart] at h
    split at h
    · cases h
    · rename_i hl
      cases M with
      | nil => rfl
      | cons m M =>
        rw [List.map_cons, List.zip_cons_cons, blockRun_cons_skip hne (a := some _) m _ hl,
          blockRun_of_findRegionStart_none hne h]

/-- **Outside, the automaton skips to the start the scan finds**, and from there runs as inside
the region it found. -/
theorem blockRun_of_findRegionStart (hne : regions.isEmpty = false) {va : UInt64} {k : Nat}
    {r : BinaryRegion} :
    ∀ {O : List UInt8} {M : List MCInstPtr} {i : Nat}, O.length = M.length →
      findRegionStart regions va O i = some (k, r) →
      i ≤ k ∧ k < i + O.length ∧
      blockRun regions none (M.zip (O.map fun o => some (va + o.toUInt64))) =
        blockRun regions (some r) ((M.drop (k - i)).zip ((O.drop (k - i)).map
          fun o => some (va + o.toUInt64)))
  | [], _, _, _, h => by cases h
  | o :: O, [], _, hlen, _ => by cases hlen
  | o :: O, m :: M, i, hlen, h => by
    simp only [findRegionStart] at h
    split at h
    · rename_i r' hl
      simp only [Option.some.injEq, Prod.mk.injEq] at h
      obtain ⟨rfl, rfl⟩ := h
      refine ⟨le_rfl, by simp, ?_⟩
      rw [Nat.sub_self, List.drop_zero, List.drop_zero, List.map_cons, List.zip_cons_cons]
      exact blockRun_cons_enter hne m _ hl
    · rename_i hl
      obtain ⟨hik, hkl, hrun⟩ := blockRun_of_findRegionStart hne (by simpa using hlen) h
      refine ⟨by omega, by simp; omega, ?_⟩
      rw [show k - i = (k - (i + 1)) + 1 by omega, List.drop_succ_cons, List.drop_succ_cons,
        List.map_cons, List.zip_cons_cons, blockRun_cons_skip hne (a := some _) m _ hl, hrun]

/-- **Inside, the automaton emits up to the instruction the end scan finds**, closes the region
there and skips the rest. -/
theorem blockRun_of_findRegionEnd (hne : regions.isEmpty = false) {r : BinaryRegion} {va : UInt64}
    {j : Nat} :
    ∀ {O : List UInt8} {M : List MCInstPtr} {i : Nat}, O.length = M.length →
      findRegionEnd r.endAddr va O i = some j →
      i ≤ j ∧ j < i + O.length ∧
      blockRun regions (some r) (M.zip (O.map fun o => some (va + o.toUInt64))) =
        ((M.take (j - i + 1)).map (StreamItem.inst ∘ some) ++ [.regionEnd r.description], none)
  | [], _, _, _, h => by cases h
  | o :: O, [], _, hlen, _ => by cases hlen
  | o :: O, m :: M, i, hlen, h => by
    simp only [findRegionEnd] at h
    split_ifs at h with hend
    · cases h
      refine ⟨le_rfl, by simp, ?_⟩
      rw [List.map_cons, List.zip_cons_cons, ← hend, blockRun_cons_close hne]
      simp
    · obtain ⟨hij, hjl, hrun⟩ := blockRun_of_findRegionEnd hne (by simpa using hlen) h
      refine ⟨by omega, by simp; omega, ?_⟩
      rw [List.map_cons, List.zip_cons_cons,
        blockRun_cons_inside hne m _ (by simpa [eq_comm] using hend), hrun,
        show j - i + 1 = (j - (i + 1) + 1) + 1 by omega]
      simp

/-- Inside, when the end scan finds nothing, the whole block is emitted and the region stays open. -/
theorem blockRun_of_findRegionEnd_none (hne : regions.isEmpty = false) {r : BinaryRegion}
    {va : UInt64} :
    ∀ {O : List UInt8} {M : List MCInstPtr} {i : Nat}, O.length = M.length →
      findRegionEnd r.endAddr va O i = none →
      blockRun regions (some r) (M.zip (O.map fun o => some (va + o.toUInt64))) =
        (M.map (StreamItem.inst ∘ some), some r)
  | [], [], _, _, _ => rfl
  | [], _ :: _, _, hlen, _ => by cases hlen
  | _ :: _, [], _, hlen, _ => by cases hlen
  | o :: O, m :: M, i, hlen, h => by
    simp only [findRegionEnd] at h
    split_ifs at h with hend
    rw [List.map_cons, List.zip_cons_cons,
      blockRun_cons_inside hne m _ (by simpa [eq_comm] using hend),
      blockRun_of_findRegionEnd_none hne (by simpa using hlen) h]
    simp

end BlockRun

/-! ## (2) The cut of one execution -/

/-- The load-relative address of the instruction at recorded offset `offset` of a block at `vAddr`:
`VA + uint64_t(Offset)` with `VA = TB.VAddr - CodeStartAddress`, defined when the block lies at or
above `CodeStartAddress`. -/
def loadRelAddr (codeStart vAddr : UInt64) (offset : UInt8) : Option UInt64 :=
  if vAddr ≥ codeStart then some (vAddr - codeStart + offset.toUInt64) else none

/-- The instructions of a decoded block in order, each at the address `tbExec` computes from its
recorded offset. -/
def recordedExecuted (codeStart : UInt64) (tb : TranslationBlock) : List Executed :=
  tb.mcInsts.zip (tb.vAddrOffsets.map (loadRelAddr codeStart tb.vAddr))

/-- The stream of the slice a cut queues, read from the decoded block's instructions: nothing when
the cut is empty and no slice is queued. -/
def cutStream (insts : List MCInstPtr) (cut : RegionCut) : List StreamItem :=
  if cut.beginIdx = cut.endIdx then []
  else ((insts.drop cut.beginIdx.toNat).take
      (min insts.length cut.endIdx.toNat - cut.beginIdx.toNat)).map (StreamItem.inst ∘ some) ++
    (cut.region.map (StreamItem.regionEnd ·.description)).toList

/-- The queued slices of a cut denote its stream. -/
theorem queueStream_cutSlices {tbs : List (Option TranslationBlock)} {index : Nat}
    {tb : TranslationBlock} (h : registeredTB tbs index = some tb) (cut : RegionCut)
    (chain : Option MemoryAccessChain) :
    queueStream tbs (cutSlices index cut chain) = cutStream tb.mcInsts cut := by
  unfold cutSlices cutStream
  split_ifs <;> simp [queueStream, sliceStream, deliverable, sliceInsts, h]

/-- Below `CodeStartAddress` nothing enters or closes a region. -/
theorem regionCut_refines_below {regions : List BinaryRegion} (hne : regions.isEmpty = false)
    (q : Option BinaryRegion) {codeStart : UInt64} {tb : TranslationBlock}
    (hcs : ¬ tb.vAddr ≥ codeStart) (hwf : tb.vAddrOffsets.length = tb.mcInsts.length)
    (hsmall : tb.mcInsts.length ≤ 0xFFFF) :
    (cutStream tb.mcInsts (regionCut regions q codeStart tb),
      (regionCut regions q codeStart tb).curBinRegion) = blockRun regions q (recordedExecuted codeStart tb) := by
  have haddr : loadRelAddr codeStart tb.vAddr = fun _ => none := funext fun _ => if_neg hcs
  rw [recordedExecuted, haddr, blockRun_of_undefined hne q hwf]
  cases q <;> simp [regionCut, hne, hcs, cutStream, show min tb.mcInsts.length 65535 = tb.mcInsts.length
    by omega]

/-- Inside a region at or above `CodeStartAddress`: the end scan from the block's start. -/
theorem regionCut_refines_inside {regions : List BinaryRegion} (hne : regions.isEmpty = false)
    (r : BinaryRegion) {codeStart : UInt64} {tb : TranslationBlock} (hcs : tb.vAddr ≥ codeStart)
    (hwf : tb.vAddrOffsets.length = tb.mcInsts.length) (hsmall : tb.mcInsts.length ≤ 0xFFFF) :
    (cutStream tb.mcInsts (regionCut regions (some r) codeStart tb),
      (regionCut regions (some r) codeStart tb).curBinRegion) =
      blockRun regions (some r) (recordedExecuted codeStart tb) := by
  have haddr : loadRelAddr codeStart tb.vAddr = fun o => some (tb.vAddr - codeStart + o.toUInt64) :=
    funext fun _ => if_pos hcs
  rw [recordedExecuted, haddr]
  cases hj : findRegionEnd r.endAddr (tb.vAddr - codeStart) tb.vAddrOffsets 0 with
  | none =>
    rw [blockRun_of_findRegionEnd_none hne hwf hj]
    simp [regionCut, hne, hcs, hj, cutStream, show min tb.mcInsts.length 65535 = tb.mcInsts.length
      by omega]
  | some j =>
    obtain ⟨-, hjl, hrun⟩ := blockRun_of_findRegionEnd hne hwf hj
    rw [hrun]
    have hend : (UInt16.ofNat (j + 1)).toNat = j + 1 := uint16_toNat_ofNat_of_lt (by omega)
    have hne0 : (0 : UInt16) ≠ UInt16.ofNat (j + 1) := by
      rw [Ne, uint16_eq_iff, hend]; simp
    simp [regionCut, hne, hcs, hj, cutStream, hne0, hend, show min tb.mcInsts.length (j + 1) = j + 1
      by omega]

/-- Outside a region at or above `CodeStartAddress`: the start scan, then the end scan from the
start it found. -/
theorem regionCut_refines_outside {regions : List BinaryRegion} (hne : regions.isEmpty = false)
    {codeStart : UInt64} {tb : TranslationBlock} (hcs : tb.vAddr ≥ codeStart)
    (hwf : tb.vAddrOffsets.length = tb.mcInsts.length) (hsmall : tb.mcInsts.length ≤ 0xFFFF) :
    (cutStream tb.mcInsts (regionCut regions none codeStart tb),
      (regionCut regions none codeStart tb).curBinRegion) =
      blockRun regions none (recordedExecuted codeStart tb) := by
  have haddr : loadRelAddr codeStart tb.vAddr = fun o => some (tb.vAddr - codeStart + o.toUInt64) :=
    funext fun _ => if_pos hcs
  rw [recordedExecuted, haddr]
  cases hk : findRegionStart regions (tb.vAddr - codeStart) tb.vAddrOffsets 0 with
  | none =>
    rw [blockRun_of_findRegionStart_none hne hk]
    simp only [cutStream, regionCut, hne, Bool.false_eq_true, if_false, ge_iff_le, hcs, if_true, hk]
  | some p =>
    obtain ⟨k, r⟩ := p
    obtain ⟨-, hkl, hrun⟩ := blockRun_of_findRegionStart hne (M := tb.mcInsts) hwf hk
    rw [hrun, Nat.sub_zero]
    have hbegin : (UInt16.ofNat k).toNat = k := uint16_toNat_ofNat_of_lt (by omega)
    have hwf' : (tb.vAddrOffsets.drop k).length = (tb.mcInsts.drop k).length := by simp [hwf]
    cases hj : findRegionEnd r.endAddr (tb.vAddr - codeStart) (tb.vAddrOffsets.drop k) k with
    | none =>
      rw [blockRun_of_findRegionEnd_none hne hwf' hj]
      have hne0 : UInt16.ofNat k ≠ 0xFFFF := by
        rw [Ne, uint16_eq_iff, hbegin]; simp; omega
      simp only [cutStream, regionCut, hne, Bool.false_eq_true, if_false, ge_iff_le, hcs, if_true, hk,
        hj, hne0, UInt16.reduceToNat, hbegin,
        show min tb.mcInsts.length 65535 - k = tb.mcInsts.length - k by omega, List.map_take,
        List.map_drop, Option.map_none', Option.toList_none, List.append_nil, Prod.mk.injEq,
        List.take_eq_self_iff, List.length_drop, List.length_map, le_refl, and_self]
    | some j =>
      obtain ⟨hkj, hjl, hrun'⟩ := blockRun_of_findRegionEnd hne hwf' hj
      rw [hrun']
      simp only [List.length_drop] at hjl
      have hend : (UInt16.ofNat (j + 1)).toNat = j + 1 := uint16_toNat_ofNat_of_lt (by omega)
      have hne0 : UInt16.ofNat k ≠ UInt16.ofNat (j + 1) := by
        rw [Ne, uint16_eq_iff, hbegin, hend]; omega
      simp only [cutStream, regionCut, hne, Bool.false_eq_true, if_false, ge_iff_le, hcs, if_true, hk,
        hj, hne0, hend, hbegin, show min tb.mcInsts.length (j + 1) - k = j - k + 1 by omega,
        List.map_take, List.map_drop, Option.map_some', Option.toList_some]

/-- **The cut refines the block automaton.** For a decoded block with one offset per instruction
and at most `0xFFFF` instructions, the stream of the slice `tbExec` queues and the next
`CurBinRegion` are what the block automaton gives on the block's instructions at the addresses of
their recorded offsets. -/
theorem regionCut_refines (regions : List BinaryRegion) (q : Option BinaryRegion)
    (codeStart : UInt64) {tb : TranslationBlock} (hwf : tb.vAddrOffsets.length = tb.mcInsts.length)
    (hsmall : tb.mcInsts.length ≤ 0xFFFF) :
    (cutStream tb.mcInsts (regionCut regions q codeStart tb),
      (regionCut regions q codeStart tb).curBinRegion) = blockRun regions q (recordedExecuted codeStart tb) := by
  cases hne : regions.isEmpty
  · by_cases hcs : tb.vAddr ≥ codeStart
    · cases q with
      | none => exact regionCut_refines_outside hne hcs hwf hsmall
      | some r => exact regionCut_refines_inside hne r hcs hwf hsmall
    · exact regionCut_refines_below hne q hcs hwf hsmall
  · rw [List.isEmpty_iff.mp hne, blockRun_nil_regions, recordedExecuted,
      List.map_fst_zip _ _ (by simp [hwf])]
    simp [regionCut, cutStream, show min tb.mcInsts.length 65535 = tb.mcInsts.length by omega]

/-! ## (3) True offsets

The automaton reads each instruction at the address of its true offset, the distance from the
block's start at which it was decoded (`decodedOffsets`); `tbExec` reads the recorded `uint8_t`
offset. The two give the same address while no offset reaches 256. -/

/-- **The load-relative address of the instruction `offset` bytes into a block at `vAddr`**, as the
design states it: `TB.VAddr + offset - CodeStartAddress`, defined when the block lies at or above
`CodeStartAddress`. -/
def trueLoadRelAddr (codeStart vAddr : UInt64) (offset : Nat) : Option UInt64 :=
  if vAddr ≥ codeStart then some (vAddr + UInt64.ofNat offset - codeStart) else none

/-- The instructions of a decoded block in order, each at the load-relative address of its true
offset. -/
def executed (codeStart : UInt64) (tb : TranslationBlock) (offsets : List Nat) : List Executed :=
  tb.mcInsts.zip (offsets.map (trueLoadRelAddr codeStart tb.vAddr))

/-- Below 256 the recorded offset gives the true address. -/
theorem trueLoadRelAddr_of_lt (codeStart vAddr : UInt64) {offset : Nat} (h : offset < 256) :
    trueLoadRelAddr codeStart vAddr offset = loadRelAddr codeStart vAddr (UInt8.ofNat offset) := by
  have hsum : vAddr + UInt64.ofNat offset - codeStart =
      vAddr - codeStart + (UInt8.ofNat offset).toUInt64 := by
    apply UInt64.toNat.inj
    have hc : codeStart.toNat < 18446744073709551616 := codeStart.toBitVec.isLt
    rw [uint64_toNat_sub, uint64_toNat_add, uint64_toNat_add, uint64_toNat_sub]
    change (_ + (vAddr.toNat + offset % 18446744073709551616) % 18446744073709551616) % _ =
      (_ + (UInt8.ofNat offset).toNat) % _
    rw [uint8_toNat_ofNat]
    omega
  simp only [trueLoadRelAddr, loadRelAddr, hsum]

/-- **A block that records its true offsets, all below 256, runs at the addresses `tbExec`
computes.** -/
theorem executed_eq_recordedExecuted (codeStart : UInt64) {tb : TranslationBlock}
    {offsets : List Nat} (h : tb.vAddrOffsets = offsets.map UInt8.ofNat) (hlt : ∀ o ∈ offsets, o < 256) :
    executed codeStart tb offsets = recordedExecuted codeStart tb := by
  rw [executed, recordedExecuted, h, List.map_map]
  exact congrArg _ (List.map_congr_left fun o ho => trueLoadRelAddr_of_lt codeStart tb.vAddr (hlt o ho))

/-- **The true offsets of the block an execution at `pc` runs**: a block decoded earlier has those
of its decoding, `recorded`; an undecoded one gets those of its decoding at `pc`. -/
def execOffsets (t : Target) (tb : TranslationBlock) (pc : UInt64) (recorded : List Nat) : List Nat :=
  if tb.isTranslated then recorded
  else decodedOffsets (t.curDisAsm pc) tb.rawInsts (t.maskModeBit pc) 0

/-- **A block of at most 256 raw bytes with true offsets `offsets`**: at most one instruction per
raw byte and one recorded offset per instruction; once decoded, it records `offsets` cut to
`uint8_t`, each inside the block. -/
structure OffsetsTrueAt (tb : TranslationBlock) (offsets : List Nat) : Prop where
  /-- At most 256 raw bytes. -/
  small : rawSize tb.rawInsts ≤ 256
  /-- At most one instruction per raw byte. -/
  length_le : tb.mcInsts.length ≤ rawSize tb.rawInsts
  /-- One recorded offset per instruction. -/
  aligned : tb.vAddrOffsets.length = tb.mcInsts.length
  /-- A decoded block records its true offsets. -/
  recorded : tb.isTranslated = true →
    tb.vAddrOffsets = offsets.map UInt8.ofNat ∧ ∀ o ∈ offsets, o < rawSize tb.rawInsts

theorem offsetsTrueAt_ofRaw {raw : List RawInstTy} (h : rawSize raw ≤ 256) (offsets : List Nat) :
    OffsetsTrueAt (TranslationBlock.ofRaw raw) offsets :=
  ⟨h, Nat.zero_le _, rfl, fun h => by simp [TranslationBlock.ofRaw, TranslationBlock.isTranslated] at h⟩

/-- **An execution runs its block at its true offsets**: the block it runs records them, each inside
the block, and keeps the invariant with them. -/
theorem translateForExec_offsetsTrueAt (t : Target) {tb : TranslationBlock} {recorded : List Nat}
    (pc : UInt64) (nextMCInst : MCInstPtr) (h : OffsetsTrueAt tb recorded) :
    ((translateForExec t tb pc nextMCInst).1.vAddrOffsets =
        (execOffsets t tb pc recorded).map UInt8.ofNat ∧
      ∀ o ∈ execOffsets t tb pc recorded, o < rawSize tb.rawInsts) ∧
    OffsetsTrueAt (translateForExec t tb pc nextMCInst).1 (execOffsets t tb pc recorded) := by
  have hraw := (translateForExec_length_le t tb pc nextMCInst).2
  have hrec : (translateForExec t tb pc nextMCInst).1.vAddrOffsets =
      (execOffsets t tb pc recorded).map UInt8.ofNat ∧
      ∀ o ∈ execOffsets t tb pc recorded, o < rawSize tb.rawInsts := by
    cases htr : tb.isTranslated
    · have hm : tb.mcInsts = [] := by simpa [TranslationBlock.isTranslated] using htr
      have ho : tb.vAddrOffsets = [] := List.eq_nil_of_length_eq_zero (by rw [h.aligned, hm]; rfl)
      simp only [translateForExec, execOffsets, htr, Bool.false_eq_true, if_false]
      exact ⟨disassemble_vAddrOffsets t nextMCInst hm ho, fun o ho' => by
        simpa using ((decodedOffsets_sorted _ _ _ 0).1 o ho').2⟩
    · rw [translateForExec_of_isTranslated t pc nextMCInst htr]
      simpa only [execOffsets, htr, if_true] using h.recorded htr
  exact ⟨hrec, hraw ▸ h.small, translateForExec_length_le_rawSize t pc nextMCInst h.length_le,
    translateForExec_aligned t pc nextMCInst h.aligned, fun _ => hraw ▸ hrec⟩

/-! ## (4) The receiver's runs

The true offsets of a block decoded at an earlier execution are those of that decoding, so the
receiver's runs carry them as ghost state, one list per slot, which the real steps never read. -/

/-- The raw bytes a message registers: those of a `TranslatedBlock`, none for any other. -/
def Message.rawBytes : Message → Nat
  | .translatedBlock _ instructions => rawSize instructions
  | _ => 0

/-- **The ghost after a message**: an execution of a registered block stores the true offsets of
the block it runs in its slot; every other message keeps the ghost. -/
def offsetsAfter (cfg : BrokerConfig) (st : Broker) (offs : Nat → List Nat) :
    Message → Nat → List Nat
  | .execTB index pc _ =>
    if isEndSignal index pc then offs
    else
      match registeredTB st.tbs index.toNat with
      | some tb => Function.update offs index.toNat (execOffsets cfg.target tb pc (offs index.toNat))
      | none => offs
  | _ => offs

/-- **The ghost holds the true offsets of every registered block.** -/
def OffsetsTrue (tbs : List (Option TranslationBlock)) (offs : Nat → List Nat) : Prop :=
  ∀ j tb, registeredTB tbs j = some tb → OffsetsTrueAt tb (offs j)

/-- Every message of at most 256 raw bytes keeps the ghost true. -/
theorem handleMessage_offsetsTrue (cfg : BrokerConfig) {st : Broker} {offs : Nat → List Nat}
    (m : Message) (hraw : m.rawBytes ≤ 256) (h : OffsetsTrue st.tbs offs) :
    OffsetsTrue (handleMessage cfg st m).tbs (offsetsAfter cfg st offs m) := by
  intro j tb hj
  cases m with
  | metadata => exact h j tb hj
  | translatedBlock index instructions =>
    rcases registeredTB_addTB hj with ⟨rfl, -⟩ | hj
    · exact offsetsTrueAt_ofRaw hraw _
    · exact h j tb hj
  | execTB index pc fbMAs =>
    cases hsig : isEndSignal index pc
    · cases htb : registeredTB st.tbs index.toNat with
      | none =>
        rw [handleMessage, tbExec_of_unregistered cfg st fbMAs hsig htb] at hj
        simpa only [offsetsAfter, hsig, htb, Bool.false_eq_true, if_false] using h j tb hj
      | some tb₀ =>
        rw [handleMessage, tbExec_of_registered cfg st fbMAs hsig htb,
          registeredTB_set _ (length_of_registeredTB htb)] at hj
        simp only [offsetsAfter, hsig, htb, Bool.false_eq_true, if_false]
        split_ifs at hj with hij
        · cases hj; subst hij
          rw [Function.update_same]
          exact (translateForExec_offsetsTrueAt _ _ _ (h _ _ htb)).2
        · rw [Function.update_noteq (Ne.symm hij)]; exact h j tb hj
    · rw [handleMessage, tbExec_of_isEndSignal fbMAs hsig] at hj
      simpa only [offsetsAfter, hsig, if_true] using h j tb hj

/-- The instructions a message makes the broker execute, each at the address of its true offset:
those of the block an `ExecTB` runs, as `tbExec` decoded it; none for any other message. -/
def executedBy (cfg : BrokerConfig) (st : Broker) (offs : Nat → List Nat) : Message → List Executed
  | .execTB index pc _ =>
    if isEndSignal index pc then []
    else
      match registeredTB st.tbs index.toNat with
      | some tb => executed st.codeStartAddress (translateForExec cfg.target tb pc st.nextMCInst).1
          (execOffsets cfg.target tb pc (offs index.toNat))
      | none => []
  | _ => []

/-- The stream of the slices a message queues, read from the blocks as the message leaves them. -/
def queuedBy (cfg : BrokerConfig) (st : Broker) (m : Message) : List StreamItem :=
  queueStream (handleMessage cfg st m).tbs
    ((handleMessage cfg st m).tbQueue.drop st.tbQueue.length)

/-- **The receiver's run**: the stream of what the messages queue, and the blocks they execute,
message after message, with the true offsets carried beside the broker. -/
def receiverTrace (cfg : BrokerConfig) :
    Broker → (Nat → List Nat) → List Message → List StreamItem × List (List Executed)
  | _, _, [] => ([], [])
  | st, offs, m :: ms =>
    (queuedBy cfg st m ++ (receiverTrace cfg (handleMessage cfg st m) (offsetsAfter cfg st offs m) ms).1,
      executedBy cfg st offs m ::
        (receiverTrace cfg (handleMessage cfg st m) (offsetsAfter cfg st offs m) ms).2)

/-- **One message refines one block of the automaton**: what it queues, and the next
`CurBinRegion`, are what the block automaton gives on the instructions it executes, at their true
offsets. -/
theorem handleMessage_refines (cfg : BrokerConfig) {st : Broker} {offs : Nat → List Nat}
    (m : Message) (h : OffsetsTrue st.tbs offs) :
    (queuedBy cfg st m, (handleMessage cfg st m).curBinRegion) =
      blockRun cfg.binRegions st.curBinRegion (executedBy cfg st offs m) := by
  cases m with
  | metadata => simp [queuedBy, executedBy, handleMessage, handleMetadata, queueStream, blockRun]
  | translatedBlock => simp [queuedBy, executedBy, handleMessage, addTB, queueStream, blockRun]
  | execTB index pc fbMAs =>
    cases hsig : isEndSignal index pc
    · cases htb : registeredTB st.tbs index.toNat with
      | none =>
        simp [queuedBy, executedBy, handleMessage, tbExec_of_unregistered cfg st fbMAs hsig htb, hsig,
          htb, queueStream, blockRun]
      | some tb =>
        have hsmall := (h _ _ htb).small
        obtain ⟨⟨hrec, hlt⟩, hat⟩ := translateForExec_offsetsTrueAt cfg.target pc st.nextMCInst (h _ _ htb)
        simp only [executedBy, hsig, htb, Bool.false_eq_true, if_false]
        rw [executed_eq_recordedExecuted _ hrec fun o ho => by have := hlt o ho; omega,
          ← regionCut_refines _ _ _ hat.aligned (by have := hat.length_le; have := hat.small; omega)]
        have hreg := registeredTB_set (translateForExec cfg.target tb pc st.nextMCInst).1
          (length_of_registeredTB htb) index.toNat
        rw [if_pos rfl] at hreg
        simp [queuedBy, handleMessage, tbExec_of_registered cfg st fbMAs hsig htb,
          queueStream_cutSlices hreg]
    · simp [queuedBy, executedBy, handleMessage, tbExec_of_isEndSignal fbMAs hsig, hsig,
        queueStream, blockRun]

/-- The run lemma: from any state whose ghost holds the true offsets, a run of messages of at most
256 raw bytes refines the block automaton run block after block. -/
theorem receiverTrace_refines (cfg : BrokerConfig) :
    ∀ (st : Broker) (offs : Nat → List Nat) (ms : List Message), OffsetsTrue st.tbs offs →
      (∀ m ∈ ms, m.rawBytes ≤ 256) →
      ((receiverTrace cfg st offs ms).1, (receiveAll cfg st ms).curBinRegion) =
        blocksRun cfg.binRegions st.curBinRegion (receiverTrace cfg st offs ms).2
  | _, _, [], _, _ => rfl
  | st, offs, m :: ms, h, hraw => by
    have hstep := handleMessage_refines cfg m h
    have ih := receiverTrace_refines cfg (handleMessage cfg st m) (offsetsAfter cfg st offs m) ms
      (handleMessage_offsetsTrue cfg m (hraw m (List.mem_cons_self _ _)) h)
      (fun m' hm' => hraw m' (List.mem_cons_of_mem _ hm'))
    rw [show receiveAll cfg st (m :: ms) = receiveAll cfg (handleMessage cfg st m) ms from rfl]
    simp only [receiverTrace, blocksRun, ← hstep, ← ih]

/-- **The receiver follows the region automaton block by block.** For every sequence of messages
from the initial broker in which no `TranslatedBlock` carries more than 256 raw bytes, the stream
of the slices queued (each read from its block as its execution left it) and the final
`CurBinRegion` are those of the automaton run over the executed instructions a block at a time,
each instruction at the load-relative address of its true offset in its block, and skipping the
rest of a block once a region closes in it. -/
theorem receiver_follows_block_automaton (cfg : BrokerConfig) (ms : List Message)
    (hraw : ∀ m ∈ ms, m.rawBytes ≤ 256) :
    ((receiverTrace cfg Broker.init (fun _ => []) ms).1, (receiveAll cfg Broker.init ms).curBinRegion) =
      blocksRun cfg.binRegions none (receiverTrace cfg Broker.init (fun _ => []) ms).2 :=
  receiverTrace_refines cfg Broker.init _ ms (fun _ _ h => by simp [Broker.init, registeredTB] at h)
    hraw

set_option maxRecDepth 2000 in
/-- The bound of 256 raw bytes is needed. A raw instruction of 257 bytes decodes to an instruction
at offset 0 and one at offset 256, recorded as `0`. The second starts region `r`, so the automaton
emits it and closes `r`; `tbExec` finds no start at the recorded offsets and queues nothing. -/
example :
    (receiverTrace ⟨wideTarget, [⟨"r", 256, 256⟩]⟩ Broker.init (fun _ => [])
        [.translatedBlock 0 [List.replicate 257 0x90], .metadata 0x1000, .execTB 0 0x1000 []]).1 = [] ∧
    (blocksRun [⟨"r", 256, 256⟩] none (receiverTrace ⟨wideTarget, [⟨"r", 256, 256⟩]⟩ Broker.init
        (fun _ => []) [.translatedBlock 0 [List.replicate 257 0x90], .metadata 0x1000,
          .execTB 0 0x1000 []]).2).1 = [.inst (some 1), .regionEnd "r"] := by
  decide

/-- Two regions in one block: `r1` over load-relative addresses 0 and 1, `r2` over 2 and 3. -/
def twoRegionConfig : BrokerConfig := ⟨byteTarget, [⟨"r1", 0, 1⟩, ⟨"r2", 2, 3⟩]⟩

/-- A block of four one-byte instructions loaded at `0x1000` and executed there once. -/
def twoRegionMessages : List Message :=
  [.translatedBlock 0 [[0x90], [0x90], [0x90], [0x90]], .metadata 0x1000, .execTB 0 0x1000 []]

/-- The theorem on the block that holds both regions. -/
theorem receiver_follows_block_automaton_two_regions :
    (∀ m ∈ twoRegionMessages, m.rawBytes ≤ 256) ∧
    ((receiverTrace twoRegionConfig Broker.init (fun _ => []) twoRegionMessages).1,
        (receiveAll twoRegionConfig Broker.init twoRegionMessages).curBinRegion) =
      blocksRun twoRegionConfig.binRegions none
        (receiverTrace twoRegionConfig Broker.init (fun _ => []) twoRegionMessages).2 :=
  ⟨by decide, receiver_follows_block_automaton twoRegionConfig twoRegionMessages (by decide)⟩

/-- **The second region of a block is not queued.** The block's instructions are at
load-relative addresses 0 to 3; the instruction-by-instruction automaton emits both regions, but
`tbExec` queues one slice, `[0, 2)` closing `r1`, and never scans the block for `r2`. -/
theorem second_region_in_block_skipped :
    (receiverTrace twoRegionConfig Broker.init (fun _ => []) twoRegionMessages).2 =
      [[], [], [(0, some 0), (1, some 1), (2, some 2), (3, some 3)]] ∧
    (receiverTrace twoRegionConfig Broker.init (fun _ => []) twoRegionMessages).1 =
      [.inst (some 0), .inst (some 1), .regionEnd "r1"] ∧
    (regionRun twoRegionConfig.binRegions none
        (receiverTrace twoRegionConfig Broker.init (fun _ => []) twoRegionMessages).2.flatten).1 =
      [.inst (some 0), .inst (some 1), .regionEnd "r1", .inst (some 2), .inst (some 3),
        .regionEnd "r2"] := by
  decide

end McadBroker
