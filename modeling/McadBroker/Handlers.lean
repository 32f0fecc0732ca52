import McadBroker.Slice
import McadBroker.Disassemble

/-! # The broker's state and the receiver's message handlers

The receiver thread dispatches each verified message to one of three handlers. This file models
the broker's shared state and the handlers as functions on it.

* **`Broker`** — `TBs`, `TBQueue`, `IsEndOfStream`, `CurBinRegion`, `CodeStartAddress`,
  `TotalNumTraces`, and the allocator that gives decoded instructions their addresses.
* **`addTB`** — grows `TBs` to `TB.Index() + 1` (computed in 32 bits) and stores a fresh block.
* **`handleMetadata`** — records the load address.
* **`regionCut`** — the region handling of `tbExec`: the `[BeginIdx, EndIdx)` to queue and the
  region tracker's next state.
* **`buildMemAccesses`** — the memory-access chain of an execution, merging records that land on
  the chain's last instruction.
* **`tbExec`** — the end-of-stream sentinel, the index check, decoding on first execution, region
  handling and the enqueue. -/

namespace McadBroker

/-- `fbs::MemoryAccess`: one memory-access record of an `ExecTB` message. -/
structure MemoryAccess where
  /-- `Index()`: the raw instruction index in the block. -/
  index : UInt32
  /-- `IsStore()`. -/
  isStore : Bool
  /-- `VAddr()`. -/
  vAddr : UInt64
  /-- `Size()`. -/
  size : UInt32
  deriving DecidableEq, Repr

/-- The payloads of `fbs::Message` that `recvWorker` dispatches. -/
inductive Message
  /-- `fbs::Metadata`. -/
  | metadata (loadAddr : UInt64)
  /-- `fbs::TranslatedBlock`: the block's index and the bytes of each instruction. -/
  | translatedBlock (index : UInt32) (instructions : List RawInstTy)
  /-- `fbs::ExecTB`: an execution of block `index` at `pc`, with its memory accesses. -/
  | execTB (index : UInt32) (pc : UInt64) (memAccesses : List MemoryAccess)
  deriving DecidableEq, Repr

/-- What the broker is built with: the target and the region manifest (empty when none was
given or it failed to load, the two cases `BinRegions && BinRegions->size()` does not tell
apart). -/
structure BrokerConfig where
  /-- The target and its decoders. -/
  target : Target
  /-- `BinRegions`. -/
  binRegions : List BinaryRegion

/-- **The broker's shared state.** `TBs` is guarded by `TBsMutex`; `TBQueue` and `IsEndOfStream` by
`QueueMutex`. `nextMCInst` is the heap: the address the next decoded instruction receives. -/
structure Broker where
  /-- `TBs`. -/
  tbs : List (Option TranslationBlock)
  /-- `TBQueue`; its head is delivered first. -/
  tbQueue : List TBSlice
  /-- `IsEndOfStream`. -/
  isEndOfStream : Bool
  /-- `CurBinRegion`: the region being analysed, if any. -/
  curBinRegion : Option BinaryRegion
  /-- `CodeStartAddress`. -/
  codeStartAddress : UInt64
  /-- `TotalNumTraces`, the broker-wide sequence number of delivered instructions. -/
  totalNumTraces : UInt32
  /-- The address of the next `MCInst` the decoder allocates. -/
  nextMCInst : MCInstPtr
  deriving DecidableEq, Repr

/-- The state the constructor leaves: nothing registered, nothing queued. -/
def Broker.init : Broker := ⟨[], [], false, none, 0, 0, 0⟩

/-! ## (1) `addTB` and `handleMetadata` -/

/-- `SmallVector::resize(n)` on `TBs`: truncate to `n` slots, or append empty ones. -/
def resizeTBs (tbs : List (Option TranslationBlock)) (n : Nat) : List (Option TranslationBlock) :=
  tbs.take n ++ List.replicate (n - tbs.length) none

/-- **`QemuBroker::addTB`.** When the index is past the end, `TBs` is resized to `TB.Index() + 1`,
a sum of `uint32_t` that wraps to `0` at index `0xFFFFFFFF`; then the slot is assigned a block of
raw bytes. An assignment past the end (only after that wrap) writes out of bounds in the source;
`List.set` leaves the list as it is there. -/
def addTB (st : Broker) (index : UInt32) (instructions : List RawInstTy) : Broker :=
  let tbs := if index.toNat ≥ st.tbs.length then resizeTBs st.tbs (index + 1).toNat else st.tbs
  { st with tbs := tbs.set index.toNat (some (TranslationBlock.ofRaw instructions)) }

/-- Resizing keeps the registered blocks below the new size and drops the others. -/
theorem registeredTB_resizeTBs (tbs : List (Option TranslationBlock)) (n j : Nat) :
    registeredTB (resizeTBs tbs n) j = if j < n then registeredTB tbs j else none := by
  simp only [registeredTB, resizeTBs, List.get?_eq_getElem?]
  by_cases hj : j < (tbs.take n).length
  · rw [List.getElem?_append_left hj, List.getElem?_take]
    simp only [List.length_take] at hj
    simp [show j < n by omega]
  · simp only [List.length_take] at hj
    rw [List.getElem?_append_right (by simp only [List.length_take]; omega), List.getElem?_replicate]
    -- past the kept prefix a slot is either past the old end or past the new size
    have hnone : tbs[j]? = none ∨ ¬ j < n := by
      by_cases hjn : j < n
      · exact .inl (List.getElem?_eq_none (by omega))
      · exact .inr hjn
    rcases hnone with hnone | hjn
    · split_ifs <;> simp [hnone]
    · split_ifs <;> simp_all

theorem length_resizeTBs (tbs : List (Option TranslationBlock)) (n : Nat) :
    (resizeTBs tbs n).length = n := by
  simp only [resizeTBs, List.length_append, List.length_take, List.length_replicate]; omega

/-- **`addTB` below the largest index** registers the block at its index, leaves every other slot
as it was, and leaves `TBs` longer than the index. -/
theorem addTB_spec (st : Broker) {index : UInt32} (instructions : List RawInstTy)
    (h : index ≠ 0xFFFFFFFF) :
    index.toNat < (addTB st index instructions).tbs.length ∧
    ∀ j, registeredTB (addTB st index instructions).tbs j =
      if index.toNat = j then some (TranslationBlock.ofRaw instructions) else registeredTB st.tbs j := by
  have hmax := uint32_toNat_lt_of_ne_max h
  have hsucc : (index + 1).toNat = index.toNat + 1 := by
    rw [uint32_toNat_add_one]; omega
  -- the vector before the assignment is long enough and keeps every registered block
  have hpre : index.toNat < (if index.toNat ≥ st.tbs.length then
        resizeTBs st.tbs (index + 1).toNat else st.tbs).length ∧
      ∀ j, registeredTB (if index.toNat ≥ st.tbs.length then
        resizeTBs st.tbs (index + 1).toNat else st.tbs) j = registeredTB st.tbs j := by
    split_ifs with hge
    · refine ⟨by rw [length_resizeTBs]; omega, fun j => ?_⟩
      rw [registeredTB_resizeTBs]
      split_ifs with hj
      · rfl
      · have : st.tbs.length ≤ j := by omega
        simp [registeredTB, List.get?_eq_getElem?, List.getElem?_eq_none this]
    · exact ⟨by omega, fun _ => rfl⟩
  refine ⟨by simpa [addTB] using hpre.1, fun j => ?_⟩
  simp only [addTB]
  rw [registeredTB_set _ hpre.1, hpre.2]

/-- **`addTB` at any index** registers nothing but its new block: a slot holds that block or
what it held before (the resize at index `0xFFFFFFFF` only removes blocks). -/
theorem registeredTB_addTB {st : Broker} {index : UInt32} {instructions : List RawInstTy} {j : Nat}
    {tb : TranslationBlock} (h : registeredTB (addTB st index instructions).tbs j = some tb) :
    (tb = TranslationBlock.ofRaw instructions ∧ j = index.toNat) ∨ registeredTB st.tbs j = some tb := by
  simp only [addTB] at h
  -- the vector before the assignment holds no block the old one did not
  have hpre : ∀ tbs', tbs' = (if index.toNat ≥ st.tbs.length then
      resizeTBs st.tbs (index + 1).toNat else st.tbs) →
      ∀ j tb, registeredTB tbs' j = some tb → registeredTB st.tbs j = some tb := by
    rintro tbs' rfl j tb h
    split_ifs at h
    · rw [registeredTB_resizeTBs] at h
      split_ifs at h
      · exact h
    · exact h
  generalize (if index.toNat ≥ st.tbs.length then
      resizeTBs st.tbs (index + 1).toNat else st.tbs) = tbs' at h hpre
  by_cases hi : index.toNat < tbs'.length
  · rw [registeredTB_set _ hi] at h
    split_ifs at h with hij
    · exact .inl ⟨(Option.some.inj h).symm, hij.symm⟩
    · exact .inr (hpre _ rfl _ _ h)
  · rw [List.set_eq_of_length_le (by omega)] at h
    exact .inr (hpre _ rfl _ _ h)

/-- `QemuBroker::handleMetadata`: the load address becomes `CodeStartAddress`. -/
def handleMetadata (st : Broker) (loadAddr : UInt64) : Broker :=
  { st with codeStartAddress := loadAddr }

/-! ## (2) Region handling

`tbExec` scans the block's `VAddrOffsets` twice. Outside a region it looks for the first
instruction whose load-relative address starts a region; inside one (or right after entering it)
it looks, from that instruction on, for the one at the region's `EndAddr`. -/

/-- The start scan: the first position, counting from `i`, whose address `va + offset` starts a
region, with that region. -/
def findRegionStart (regions : List BinaryRegion) (va : UInt64) :
    List UInt8 → Nat → Option (Nat × BinaryRegion)
  | [], _ => none
  | offset :: offsets, i =>
    match BinaryRegions.lookup regions (va + offset.toUInt64) with
    | some r => some (i, r)
    | none => findRegionStart regions va offsets (i + 1)

/-- The end scan: the first position, counting from `i`, whose address `va + offset` is `EndAddr`. -/
def findRegionEnd (endAddr va : UInt64) : List UInt8 → Nat → Option Nat
  | [], _ => none
  | offset :: offsets, i =>
    if endAddr = va + offset.toUInt64 then some i else findRegionEnd endAddr va offsets (i + 1)

theorem findRegionStart_bound {regions : List BinaryRegion} {va : UInt64} {k : Nat}
    {r : BinaryRegion} : ∀ {offsets : List UInt8} {i : Nat},
      findRegionStart regions va offsets i = some (k, r) → i ≤ k ∧ k < i + offsets.length
  | [], _, h => by cases h
  | _ :: _, i, h => by
    simp only [findRegionStart] at h
    split at h
    · simp only [Option.some.injEq, Prod.mk.injEq] at h
      obtain ⟨rfl, -⟩ := h
      simp
    · have := findRegionStart_bound h
      simp only [List.length_cons]
      omega

theorem findRegionEnd_bound {endAddr va : UInt64} {j : Nat} :
    ∀ {offsets : List UInt8} {i : Nat},
      findRegionEnd endAddr va offsets i = some j → i ≤ j ∧ j < i + offsets.length
  | [], _, h => by cases h
  | _ :: _, i, h => by
    simp only [findRegionEnd] at h
    split_ifs at h
    · cases h; simp
    · have := findRegionEnd_bound h
      simp only [List.length_cons]
      omega

/-- What region handling decides for one execution: the slice bounds, the region the slice closes,
and the next `CurBinRegion`. -/
structure RegionCut where
  /-- `BeginIdx`. -/
  beginIdx : UInt16
  /-- `EndIdx`. -/
  endIdx : UInt16
  /-- `Region`, set when the slice closes it. -/
  region : Option BinaryRegion
  /-- `CurBinRegion` afterwards. -/
  curBinRegion : Option BinaryRegion
  deriving DecidableEq, Repr

/-- **The region handling of `tbExec`.** With no regions the whole block is queued. Outside a region
the start scan runs when the block lies above `CodeStartAddress`; an unmatched block gets
`BeginIdx = EndIdx` and is dropped. Inside a region (or right after entering it, from the entry
position on) the end scan closes the region at the matching instruction. Positions are stored in
`uint16_t`. -/
def regionCut (binRegions : List BinaryRegion) (cur : Option BinaryRegion) (codeStart : UInt64)
    (tb : TranslationBlock) : RegionCut :=
  if binRegions.isEmpty then ⟨0, 0xFFFF, none, cur⟩
  else
    let va := tb.vAddr - codeStart
    -- the start scan: `BeginIdx`, the scan position `i`, and `CurBinRegion` after it
    let (beginIdx, i, cur) : UInt16 × Nat × Option BinaryRegion :=
      match cur with
      | some r => (0, 0, some r)
      | none =>
        if tb.vAddr ≥ codeStart then
          match findRegionStart binRegions va tb.vAddrOffsets 0 with
          | some (i, r) => (UInt16.ofNat i, i, some r)
          | none => (0xFFFF, tb.vAddrOffsets.length, none)
        else (0xFFFF, 0, none)
    match cur with
    | some r =>
      if tb.vAddr ≥ codeStart then
        match findRegionEnd r.endAddr va (tb.vAddrOffsets.drop i) i with
        | some j => ⟨beginIdx, UInt16.ofNat (j + 1), some r, none⟩
        | none => ⟨beginIdx, 0xFFFF, none, some r⟩
      else ⟨beginIdx, 0xFFFF, none, some r⟩
    | none => ⟨beginIdx, 0xFFFF, none, none⟩

/-- **A cut never ends before it begins** on a block of at most `0xFFFF` instructions: positions
fit in `uint16_t`, so `EndIdx = i + 1` does not wrap. -/
theorem regionCut_beginIdx_le (regions : List BinaryRegion) (q : Option BinaryRegion)
    (codeStart : UInt64) {tb : TranslationBlock} (h : tb.vAddrOffsets.length ≤ 0xFFFF) :
    (regionCut regions q codeStart tb).beginIdx.toNat ≤ (regionCut regions q codeStart tb).endIdx.toNat := by
  cases hne : regions.isEmpty
  · by_cases hcs : tb.vAddr ≥ codeStart
    · cases q with
      | some r =>
        cases hj : findRegionEnd r.endAddr (tb.vAddr - codeStart) tb.vAddrOffsets 0 <;>
          simp [regionCut, hne, hcs, hj]
      | none =>
        cases hk : findRegionStart regions (tb.vAddr - codeStart) tb.vAddrOffsets 0 with
        | none => simp [regionCut, hne, hcs, hk]
        | some p =>
          obtain ⟨k, r⟩ := p
          have hkb := findRegionStart_bound hk
          cases hj : findRegionEnd r.endAddr (tb.vAddr - codeStart) (tb.vAddrOffsets.drop k) k with
          | none => simp [regionCut, hne, hcs, hk, hj]; omega
          | some j =>
            have hjb := findRegionEnd_bound hj
            simp only [List.length_drop] at hjb
            simp [regionCut, hne, hcs, hk, hj]; omega
    · cases q <;> simp [regionCut, hne, hcs]
  · simp [regionCut, hne]

/-! ## (3) The memory-access chain -/

/-- The skew translation: `TB.SkewIndicies.lookup(i)` when the table has `i`, else `i`. -/
def skewIndex (tb : TranslationBlock) (instIdx : Nat) : Nat :=
  (tb.skewIndicies.lookup instIdx).getD instIdx

/-- The merge of a record into the chain's last entry: stores win, and the range becomes
`[min Addr, max (Addr + Size))`, the end computed in `uint64_t` and the size kept in `unsigned`. -/
def mergeAccess (ma : MDMemoryAccess) (isStore : Bool) (addr : UInt64) (size : UInt32) :
    MDMemoryAccess :=
  let newAddr := min ma.addr addr
  let newEndAddr := max (ma.addr + ma.size.toUInt64) (addr + size.toUInt64)
  ⟨ma.isStore || isStore, newAddr, (newEndAddr - newAddr).toUInt32⟩

/-- One record added at the back of the chain. `back` lists the chain from its back, so the last
entry is its head: a record for the same index merges into it, any other is appended. -/
def pushAccess (back : MemoryAccessChain) (instIdx : Nat) (fbMA : MemoryAccess) :
    MemoryAccessChain :=
  match back with
  | (j, ma) :: rest =>
    if j = instIdx then (j, mergeAccess ma fbMA.isStore fbMA.vAddr fbMA.size) :: rest
    else (instIdx, ⟨fbMA.isStore, fbMA.vAddr, fbMA.size⟩) :: back
  | [] => [(instIdx, ⟨fbMA.isStore, fbMA.vAddr, fbMA.size⟩)]

/-- **The chain `tbExec` builds**: none without records, otherwise every record at its
skew-translated index, in order. -/
def buildMemAccesses (tb : TranslationBlock) (fbMAs : List MemoryAccess) :
    Option MemoryAccessChain :=
  if fbMAs.isEmpty then none
  else some (fbMAs.foldl (fun back fbMA => pushAccess back (skewIndex tb fbMA.index.toNat) fbMA)
    []).reverse

/-- Pushing a record keeps the chain sorted, read from its back, when no entry lies above the
record's index. -/
theorem pushAccess_sorted {back : MemoryAccessChain} {instIdx : Nat} (fbMA : MemoryAccess)
    (hs : back.Pairwise (fun a b => b.1 < a.1)) (hle : ∀ e ∈ back, e.1 ≤ instIdx) :
    (pushAccess back instIdx fbMA).Pairwise (fun a b => b.1 < a.1) ∧
      ∀ e ∈ pushAccess back instIdx fbMA, e.1 ≤ instIdx := by
  cases back with
  | nil => simp [pushAccess]
  | cons hd rest =>
    obtain ⟨j, ma⟩ := hd
    rw [List.pairwise_cons] at hs
    simp only [pushAccess]
    split_ifs with hj
    · subst hj
      exact ⟨List.pairwise_cons.mpr ⟨hs.1, hs.2⟩, fun e he => by
        rcases List.mem_cons.mp he with rfl | he
        · exact le_rfl
        · exact hle e (List.mem_cons_of_mem _ he)⟩
    · have hji : j < instIdx := lt_of_le_of_ne (hle _ (List.mem_cons_self _ _)) hj
      refine ⟨List.pairwise_cons.mpr ⟨fun e he => ?_, List.pairwise_cons.mpr hs⟩, fun e he => ?_⟩
      · rcases List.mem_cons.mp he with rfl | he
        · exact hji
        · exact (hs.1 e he).trans hji
      · rcases List.mem_cons.mp he with rfl | he
        · exact le_rfl
        · exact hle e he

/-- Folding records whose translated indices never decrease builds a chain sorted from its back. -/
theorem foldl_pushAccess_sorted (f : MemoryAccess → Nat) :
    ∀ (fbMAs : List MemoryAccess) (back : MemoryAccessChain),
      (fbMAs.map f).Pairwise (· ≤ ·) → back.Pairwise (fun a b => b.1 < a.1) →
      (∀ e ∈ back, ∀ x ∈ fbMAs.map f, e.1 ≤ x) →
      (fbMAs.foldl (fun back fbMA => pushAccess back (f fbMA) fbMA) back).Pairwise
        (fun a b => b.1 < a.1)
  | [], _, _, hs, _ => hs
  | fbMA :: rest, back, hmono, hs, hle => by
    rw [List.map_cons, List.pairwise_cons] at hmono
    obtain ⟨hs', hle'⟩ := pushAccess_sorted fbMA hs (fun e he => hle e he _ (List.mem_cons_self _ _))
    exact foldl_pushAccess_sorted f rest _ hmono.2 hs' fun e he x hx => (hle' e he).trans (hmono.1 x hx)

/-- **`tbExec` builds a strictly sorted chain** from records whose raw indices never decrease and
lie below the block's raw count, when the skew table translates those indices in increasing
order. -/
theorem buildMemAccesses_sorted {tb : TranslationBlock}
    (hskew : ∀ k₁ k₂, k₁ < k₂ → k₂ < tb.rawInsts.length → skewIndex tb k₁ < skewIndex tb k₂)
    {fbMAs : List MemoryAccess} (hsorted : fbMAs.Pairwise (fun a b => a.index.toNat ≤ b.index.toNat))
    (hlt : ∀ r ∈ fbMAs, r.index.toNat < tb.rawInsts.length) :
    ((buildMemAccesses tb fbMAs).getD []).Pairwise (fun a b => a.1 < b.1) := by
  unfold buildMemAccesses
  split_ifs
  · exact List.Pairwise.nil
  · rw [Option.getD_some, List.pairwise_reverse]
    refine foldl_pushAccess_sorted _ fbMAs [] ?_ List.Pairwise.nil (by simp)
    rw [List.pairwise_map]
    refine hsorted.imp_of_mem fun {a b} ha hb hab => ?_
    rcases Nat.lt_or_eq_of_le hab with hab | hab
    · exact (hskew _ _ hab (hlt b hb)).le
    · rw [hab]

/-! ## (4) `tbExec` -/

/-- The end-of-stream sentinel: `Idx == ~uint32_t(0U) && PC == ~uint64_t(0U)`. -/
def isEndSignal (index : UInt32) (pc : UInt64) : Bool :=
  index = 0xFFFFFFFF && pc = 0xFFFFFFFFFFFFFFFF

/-- The block an execution runs: decoded at `pc` on its first execution, with the mode bit
masked off `VAddr` afterwards on ARM and Thumb; unchanged once translated. -/
def translateForExec (t : Target) (tb : TranslationBlock) (pc : UInt64) (nextMCInst : MCInstPtr) :
    TranslationBlock × MCInstPtr :=
  if tb.isTranslated then (tb, nextMCInst)
  else
    let (tb, nextMCInst) := disassemble t { tb with vAddr := pc } nextMCInst
    ({ tb with vAddr := t.maskModeBit tb.vAddr }, nextMCInst)

/-- Translating keeps one offset per instruction. -/
theorem translateForExec_aligned (t : Target) {tb : TranslationBlock} (pc : UInt64)
    (nextMCInst : MCInstPtr) (h : tb.vAddrOffsets.length = tb.mcInsts.length) :
    (translateForExec t tb pc nextMCInst).1.vAddrOffsets.length =
      (translateForExec t tb pc nextMCInst).1.mcInsts.length := by
  unfold translateForExec
  split
  · exact h
  · exact @disassemble_aligned t { tb with vAddr := pc } nextMCInst h

/-- A translated block is run as it is. -/
theorem translateForExec_of_isTranslated (t : Target) {tb : TranslationBlock} (pc : UInt64)
    (nextMCInst : MCInstPtr) (h : tb.isTranslated = true) :
    translateForExec t tb pc nextMCInst = (tb, nextMCInst) := by
  simp [translateForExec, h]

/-- Translating keeps the raw bytes and adds at most one instruction per raw byte. -/
theorem translateForExec_length_le (t : Target) (tb : TranslationBlock) (pc : UInt64)
    (nextMCInst : MCInstPtr) :
    (translateForExec t tb pc nextMCInst).1.mcInsts.length ≤
      tb.mcInsts.length + rawSize tb.rawInsts ∧
    (translateForExec t tb pc nextMCInst).1.rawInsts = tb.rawInsts := by
  unfold translateForExec
  split
  · exact ⟨Nat.le_add_right _ _, rfl⟩
  · exact @disassemble_length_le t { tb with vAddr := pc } nextMCInst

/-- A block with at most one instruction per raw byte keeps that bound through its translation. -/
theorem translateForExec_length_le_rawSize (t : Target) {tb : TranslationBlock} (pc : UInt64)
    (nextMCInst : MCInstPtr) (h : tb.mcInsts.length ≤ rawSize tb.rawInsts) :
    (translateForExec t tb pc nextMCInst).1.mcInsts.length ≤
      rawSize (translateForExec t tb pc nextMCInst).1.rawInsts := by
  obtain ⟨hlen, hraw⟩ := translateForExec_length_le t tb pc nextMCInst
  rw [hraw]
  cases htr : tb.isTranslated
  · have hnil : tb.mcInsts = [] := by simpa [TranslationBlock.isTranslated] using htr
    simpa [hnil] using hlen
  · rw [translateForExec_of_isTranslated t pc nextMCInst htr]; exact h

/-- **A block with an ordered skew table**: it translates the raw indices below the raw count in
increasing order, and it is empty while nothing is decoded. -/
def SkewOrdered (tb : TranslationBlock) : Prop :=
  (∀ k₁ k₂, k₁ < k₂ → k₂ < tb.rawInsts.length → skewIndex tb k₁ < skewIndex tb k₂) ∧
    (tb.mcInsts = [] → tb.skewIndicies = [])

theorem skewOrdered_ofRaw (raw : List RawInstTy) : SkewOrdered (TranslationBlock.ofRaw raw) :=
  ⟨fun _ _ h _ => by simpa [skewIndex, TranslationBlock.ofRaw] using h, fun _ => rfl⟩

/-- **Translating keeps the skew table ordered**: a first decoding starts from an empty table. -/
theorem translateForExec_skewOrdered (t : Target) {tb : TranslationBlock} (pc : UInt64)
    (nextMCInst : MCInstPtr) (h : SkewOrdered tb) :
    SkewOrdered (translateForExec t tb pc nextMCInst).1 := by
  unfold translateForExec
  split
  · exact h
  · rename_i htr
    have hnil : tb.mcInsts = [] := by simpa [TranslationBlock.isTranslated] using htr
    obtain ⟨hinc, hne⟩ := @disassemble_skew t { tb with vAddr := pc } nextMCInst (h.2 hnil)
    have hraw := (disassemble_length_le t { tb with vAddr := pc } nextMCInst).2
    refine ⟨fun k₁ k₂ h₁₂ h₂ => hinc k₁ k₂ h₁₂ (by simpa [hraw] using h₂), fun hm => ?_⟩
    by_contra hs
    exact hne hs hm

/-- **`QemuBroker::tbExec`.** The sentinel sets `IsEndOfStream`. An execution of an unregistered
index is dropped. Otherwise the block is decoded if it is not yet, region handling picks the
slice, and a non-empty slice is queued with the execution's memory-access chain. -/
def tbExec (cfg : BrokerConfig) (st : Broker) (index : UInt32) (pc : UInt64)
    (fbMAs : List MemoryAccess) : Broker :=
  if isEndSignal index pc then { st with isEndOfStream := true }
  else
    match registeredTB st.tbs index.toNat with
    | none => st
    | some tb =>
      let (tb, nextMCInst) := translateForExec cfg.target tb pc st.nextMCInst
      let cut := regionCut cfg.binRegions st.curBinRegion st.codeStartAddress tb
      let st := { st with
        tbs := st.tbs.set index.toNat (some tb)
        nextMCInst := nextMCInst
        curBinRegion := cut.curBinRegion }
      if cut.beginIdx = cut.endIdx then st
      else { st with tbQueue := st.tbQueue ++
        [⟨index.toNat, cut.beginIdx, cut.endIdx, cut.region, buildMemAccesses tb fbMAs⟩] }

/-- The slices `tbExec` queues for the cut of block `index`: none for an empty cut, else one. -/
def cutSlices (index : Nat) (cut : RegionCut) (chain : Option MemoryAccessChain) : List TBSlice :=
  if cut.beginIdx = cut.endIdx then [] else [⟨index, cut.beginIdx, cut.endIdx, cut.region, chain⟩]

theorem tbExec_of_isEndSignal {cfg : BrokerConfig} {st : Broker} {index : UInt32} {pc : UInt64}
    (fbMAs : List MemoryAccess) (h : isEndSignal index pc = true) :
    tbExec cfg st index pc fbMAs = { st with isEndOfStream := true } := by
  simp [tbExec, h]

theorem tbExec_of_unregistered (cfg : BrokerConfig) (st : Broker) {index : UInt32} {pc : UInt64}
    (fbMAs : List MemoryAccess) (h : isEndSignal index pc = false)
    (htb : registeredTB st.tbs index.toNat = none) : tbExec cfg st index pc fbMAs = st := by
  simp [tbExec, h, htb]

/-- **`tbExec` on a registered block**: the block is stored translated, the allocator and the region
tracker advance, and the cut's slices are queued. -/
theorem tbExec_of_registered (cfg : BrokerConfig) (st : Broker) {index : UInt32} {pc : UInt64}
    (fbMAs : List MemoryAccess) {tb : TranslationBlock} (h : isEndSignal index pc = false)
    (htb : registeredTB st.tbs index.toNat = some tb) :
    tbExec cfg st index pc fbMAs =
      { st with
        tbs := st.tbs.set index.toNat (some (translateForExec cfg.target tb pc st.nextMCInst).1)
        nextMCInst := (translateForExec cfg.target tb pc st.nextMCInst).2
        curBinRegion := (regionCut cfg.binRegions st.curBinRegion st.codeStartAddress
          (translateForExec cfg.target tb pc st.nextMCInst).1).curBinRegion
        tbQueue := st.tbQueue ++ cutSlices index.toNat (regionCut cfg.binRegions st.curBinRegion
          st.codeStartAddress (translateForExec cfg.target tb pc st.nextMCInst).1)
          (buildMemAccesses (translateForExec cfg.target tb pc st.nextMCInst).1 fbMAs) } := by
  simp only [tbExec, h, htb, Bool.false_eq_true, if_false, cutSlices]
  split_ifs <;> simp

/-- The dispatch of `recvWorker` on a verified message. -/
def handleMessage (cfg : BrokerConfig) (st : Broker) : Message → Broker
  | .metadata loadAddr => handleMetadata st loadAddr
  | .translatedBlock index instructions => addTB st index instructions
  | .execTB index pc memAccesses => tbExec cfg st index pc memAccesses

/-- A target for the concrete runs of the other files: a decoder that reads every byte as a one-byte instruction, and no
mode bit. -/
def byteTarget : Target := ⟨false, false, fun _ _ => some 1, fun _ _ => some 1⟩

/-- The broker built for `byteTarget` with no region manifest. -/
def byteConfig : BrokerConfig := ⟨byteTarget, []⟩

end McadBroker
