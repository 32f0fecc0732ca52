import McadBroker.Basic

/-! # Disassembling a translation block

`QemuBroker::disassemble` decodes a block's raw instructions on its first execution. The decoder
is external (`MCDisassembler::getInstruction`); the broker only needs, for a byte slice and an
address, failure or the size of the instruction decoded there, so `Decoder` is that function.

* **`decodeRawInst`** — the inner `while (Index < Len)` loop over one raw instruction.
* **`disassembleRawInsts`** — the outer loop: skew bookkeeping, then the inner loop, then `VAddr`
  moves past the raw instruction's bytes.
* **`disassemble`** — decoder selection by the PC's low bit on ARM and Thumb, the masked start
  address, and the two loops.
* **`decodeRawInstWf`** — the inner loop without fuel, by well-founded recursion on `Len - Index`;
  the fuel `disassemble` gives is never what stops it.
* **`firstDecodedAt`** — the position of the first instruction of a raw instruction; the skew
  table finds it while every earlier raw instruction decoded one.
* **`decodedOffsets`** — the true offsets, where the inner loop decodes; the recorded `uint8_t`
  offsets are these cut to a byte (`disassemble_vAddrOffsets`), so they strictly increase in a
  block of at most 256 bytes and wrap past it. -/

namespace McadBroker

/-- The decoder capability `MCDisassembler::getInstruction`: given the bytes from the current
position to the end of the raw instruction and their address, fail, or report the size
`DisAsmSize` of the instruction decoded there. The `MCInst` it fills is opaque to the broker. -/
abbrev Decoder := List UInt8 → UInt64 → Option UInt64

/-- The target: the two triple tests the broker makes, the primary decoder, and the decoder over
the subtarget with `thumb-mode` flipped, which the broker builds for ARM and Thumb triples. -/
structure Target where
  /-- `TheTriple.isARM()`. -/
  isARM : Bool
  /-- `TheTriple.isThumb()`. -/
  isThumb : Bool
  /-- `DisAsm`. -/
  disAsm : Decoder
  /-- `SecondaryDisAsm`. -/
  secondaryDisAsm : Decoder

namespace Target

/-- `TheTriple.isARM() || TheTriple.isThumb()`: the PC's low bit selects the encoding. -/
def armLike (t : Target) : Bool := t.isARM || t.isThumb

/-- The decoder `useDisassembler` selects for a block at `vAddr`: on ARM and Thumb an odd address
means Thumb mode, served by the primary decoder on a Thumb triple; an even one means ARM mode,
served by the primary decoder on an ARM triple. `CurDisAsm` is set anew for every ARM or Thumb
block and never changed on other targets, so it is a function of the address. -/
def curDisAsm (t : Target) (vAddr : UInt64) : Decoder :=
  if t.armLike then
    if vAddr &&& 1 ≠ 0 then (if t.isThumb then t.disAsm else t.secondaryDisAsm)
    else (if t.isARM then t.disAsm else t.secondaryDisAsm)
  else t.disAsm

/-- `VAddr &= ~0b1` on ARM and Thumb: the mode bit masked off. -/
def maskModeBit (t : Target) (vAddr : UInt64) : UInt64 :=
  if t.armLike then vAddr &&& ~~~1 else vAddr

end Target

/-- The values `disassemble`'s loops update: the block's three arrays, the running
`SkewIdxOffset`, and the model's allocator of `MCInst` addresses. -/
structure DisasmState where
  /-- `TB.MCInsts`. -/
  mcInsts : List MCInstPtr
  /-- `TB.VAddrOffsets`. -/
  vAddrOffsets : List UInt8
  /-- `TB.SkewIndicies`. -/
  skewIndicies : List (Nat × Nat)
  /-- `SkewIdxOffset`. -/
  skewIdxOffset : Nat
  /-- The address the next `std::make_unique<MCInst>()` returns. -/
  nextMCInst : MCInstPtr
  deriving DecidableEq, Repr

/-- **The inner `while (Index < Len)` loop** over one raw instruction at `vAddr`: decode at `Index`,
stop at the first failure, count a size of zero as one, record the instruction and its `uint8_t`
offset from `StartVAddr`, and count every instruction after the first as skew. `fuel` bounds the
iterations: each advances `Index` by at least one byte, so the instruction's length is enough.
`Index` is added in `Nat`; the source's `uint64_t` sum wraps only for sizes near `2^64`. -/
def decodeRawInst (dec : Decoder) (rawInst : RawInstTy) (vAddr startVAddr : UInt64) :
    Nat → Nat → Nat → DisasmState → DisasmState
  | 0, _, _, st => st
  | fuel + 1, index, numMCInsts, st =>
    if index < rawInst.length then
      match dec (rawInst.drop index) (vAddr + UInt64.ofNat index) with
      | none => st
      | some disAsmSize =>
        decodeRawInst dec rawInst vAddr startVAddr fuel
          (index + (if disAsmSize = 0 then 1 else disAsmSize.toNat)) (numMCInsts + 1)
          { st with
            mcInsts := st.mcInsts ++ [st.nextMCInst]
            nextMCInst := st.nextMCInst + 1
            vAddrOffsets :=
              st.vAddrOffsets ++ [(vAddr + UInt64.ofNat index - startVAddr).toUInt8]
            skewIdxOffset := if numMCInsts + 1 > 1 then st.skewIdxOffset + 1 else st.skewIdxOffset }
    else st

/-- **One iteration of the inner loop** either stops, or decodes one instruction and continues from
a state with one more `MCInst` and offset, the same table, and one more skew unless it was the
raw instruction's first. -/
theorem decodeRawInst_succ (dec : Decoder) (rawInst : RawInstTy) (vAddr startVAddr : UInt64)
    (fuel index m : Nat) (st : DisasmState) :
    decodeRawInst dec rawInst vAddr startVAddr (fuel + 1) index m st = st ∨
    ∃ index' st', st'.mcInsts.length = st.mcInsts.length + 1 ∧
      st'.vAddrOffsets.length = st.vAddrOffsets.length + 1 ∧ st'.skewIndicies = st.skewIndicies ∧
      st'.skewIdxOffset = (if m + 1 > 1 then st.skewIdxOffset + 1 else st.skewIdxOffset) ∧
      decodeRawInst dec rawInst vAddr startVAddr (fuel + 1) index m st =
        decodeRawInst dec rawInst vAddr startVAddr fuel index' (m + 1) st' := by
  simp only [decodeRawInst]
  split
  · split
    · exact Or.inl rfl
    · refine Or.inr ⟨_, _, ?_, ?_, ?_, ?_, rfl⟩ <;> simp
  · exact Or.inl rfl

/-- **The outer loop over `RawInsts`**: record the skew of raw instruction `RawInstIdx` once one has
accumulated, decode it, and move `VAddr` past its bytes. -/
def disassembleRawInsts (dec : Decoder) (startVAddr : UInt64) :
    List RawInstTy → Nat → UInt64 → DisasmState → DisasmState
  | [], _, _, st => st
  | rawInst :: rest, rawInstIdx, vAddr, st =>
    disassembleRawInsts dec startVAddr rest (rawInstIdx + 1) (vAddr + UInt64.ofNat rawInst.length)
      (decodeRawInst dec rawInst vAddr startVAddr rawInst.length 0 0
        (if st.skewIdxOffset > 0 then
          { st with skewIndicies := st.skewIndicies ++ [(rawInstIdx, rawInstIdx + st.skewIdxOffset)] }
        else st))

/-- The inner loop appends to `MCInsts` and `VAddrOffsets` together. -/
theorem decodeRawInst_aligned (dec : Decoder) (rawInst : RawInstTy) (vAddr startVAddr : UInt64)
    (fuel index numMCInsts : Nat) {st : DisasmState}
    (h : st.vAddrOffsets.length = st.mcInsts.length) :
    (decodeRawInst dec rawInst vAddr startVAddr fuel index numMCInsts st).vAddrOffsets.length =
      (decodeRawInst dec rawInst vAddr startVAddr fuel index numMCInsts st).mcInsts.length := by
  induction fuel generalizing index numMCInsts st with
  | zero => exact h
  | succ fuel ih =>
    rcases decodeRawInst_succ dec rawInst vAddr startVAddr fuel index numMCInsts st with
      hd | ⟨index', st', hlen, hoffs, -, -, hd⟩
    · rw [hd]; exact h
    · rw [hd]; exact ih _ _ (by omega)

theorem disassembleRawInsts_aligned (dec : Decoder) (startVAddr : UInt64) (rawInsts : List RawInstTy)
    (rawInstIdx : Nat) (vAddr : UInt64) {st : DisasmState}
    (h : st.vAddrOffsets.length = st.mcInsts.length) :
    (disassembleRawInsts dec startVAddr rawInsts rawInstIdx vAddr st).vAddrOffsets.length =
      (disassembleRawInsts dec startVAddr rawInsts rawInstIdx vAddr st).mcInsts.length := by
  induction rawInsts generalizing rawInstIdx vAddr st with
  | nil => exact h
  | cons rawInst rest ih => exact ih _ _ (decodeRawInst_aligned _ _ _ _ _ _ _ (by split <;> exact h))

/-- The inner loop decodes at most one instruction per iteration. -/
theorem decodeRawInst_length_le (dec : Decoder) (rawInst : RawInstTy) (vAddr startVAddr : UInt64)
    (fuel index numMCInsts : Nat) (st : DisasmState) :
    (decodeRawInst dec rawInst vAddr startVAddr fuel index numMCInsts st).mcInsts.length ≤
      st.mcInsts.length + fuel := by
  induction fuel generalizing index numMCInsts st with
  | zero => simp [decodeRawInst]
  | succ fuel ih =>
    rcases decodeRawInst_succ dec rawInst vAddr startVAddr fuel index numMCInsts st with
      hd | ⟨index', st', hlen, -, -, -, hd⟩
    · rw [hd]; omega
    · rw [hd]; exact (ih _ _ _).trans (by omega)

/-- Decoding adds at most one instruction per raw byte. -/
theorem disassembleRawInsts_length_le (dec : Decoder) (startVAddr : UInt64)
    (rawInsts : List RawInstTy) (rawInstIdx : Nat) (vAddr : UInt64) (st : DisasmState) :
    (disassembleRawInsts dec startVAddr rawInsts rawInstIdx vAddr st).mcInsts.length ≤
      st.mcInsts.length + rawSize rawInsts := by
  induction rawInsts generalizing rawInstIdx vAddr st with
  | nil => simp [disassembleRawInsts]
  | cons rawInst rest ih =>
    have hdec := decodeRawInst_length_le dec rawInst vAddr startVAddr rawInst.length 0 0
      (if st.skewIdxOffset > 0 then
        { st with skewIndicies := st.skewIndicies ++ [(rawInstIdx, rawInstIdx + st.skewIdxOffset)] }
      else st)
    have hskew : (if st.skewIdxOffset > 0 then
        { st with skewIndicies := st.skewIndicies ++ [(rawInstIdx, rawInstIdx + st.skewIdxOffset)] }
      else st).mcInsts = st.mcInsts := by split <;> rfl
    rw [hskew] at hdec
    simp only [disassembleRawInsts, rawSize]
    exact (ih _ _ _).trans (by omega)

/-- **`QemuBroker::disassemble`.** A translated block is left as it is. Otherwise the decoder is
chosen by the block's address, the start address has its mode bit masked, and the raw
instructions are decoded in order onto the block's arrays. Returns the block and the allocator's
next address. -/
def disassemble (t : Target) (tb : TranslationBlock) (nextMCInst : MCInstPtr) :
    TranslationBlock × MCInstPtr :=
  if tb.isTranslated then (tb, nextMCInst)
  else
    let startVAddr := t.maskModeBit tb.vAddr
    let st := disassembleRawInsts (t.curDisAsm tb.vAddr) startVAddr tb.rawInsts 0 startVAddr
      ⟨tb.mcInsts, tb.vAddrOffsets, tb.skewIndicies, 0, nextMCInst⟩
    ({ tb with
        mcInsts := st.mcInsts
        vAddrOffsets := st.vAddrOffsets
        skewIndicies := st.skewIndicies }, st.nextMCInst)

/-- **Decoding adds at most one instruction per raw byte**, and keeps the raw bytes. -/
theorem disassemble_length_le (t : Target) (tb : TranslationBlock) (nextMCInst : MCInstPtr) :
    (disassemble t tb nextMCInst).1.mcInsts.length ≤
      tb.mcInsts.length + rawSize tb.rawInsts ∧
    (disassemble t tb nextMCInst).1.rawInsts = tb.rawInsts := by
  unfold disassemble
  split
  · exact ⟨Nat.le_add_right _ _, rfl⟩
  · exact ⟨disassembleRawInsts_length_le _ _ _ _ _ _, rfl⟩

/-- **Decoding keeps one offset per instruction.** -/
theorem disassemble_aligned (t : Target) {tb : TranslationBlock} (nextMCInst : MCInstPtr)
    (h : tb.vAddrOffsets.length = tb.mcInsts.length) :
    (disassemble t tb nextMCInst).1.vAddrOffsets.length =
      (disassemble t tb nextMCInst).1.mcInsts.length := by
  unfold disassemble
  split
  · exact h
  · exact disassembleRawInsts_aligned _ _ _ _ _ h


/-! ## The skew table

`SkewIndicies` maps a raw index to the position of its first `MCInst` once some earlier raw
instruction decoded to more than one. The outer loop only appends to the table, one key per raw
index it passes, so it keeps the invariant `SkewInv` over the raw indices behind it. -/

/-- The inner loop leaves the table alone, and raises `SkewIdxOffset` by at most the number of
instructions it decodes. -/
theorem decodeRawInst_skew (dec : Decoder) (rawInst : RawInstTy) (vAddr startVAddr : UInt64)
    (fuel index numMCInsts : Nat) (st : DisasmState) :
    (decodeRawInst dec rawInst vAddr startVAddr fuel index numMCInsts st).skewIndicies =
      st.skewIndicies ∧
    st.skewIdxOffset ≤ (decodeRawInst dec rawInst vAddr startVAddr fuel index numMCInsts st).skewIdxOffset ∧
    (decodeRawInst dec rawInst vAddr startVAddr fuel index numMCInsts st).skewIdxOffset +
      st.mcInsts.length ≤
      st.skewIdxOffset + (decodeRawInst dec rawInst vAddr startVAddr fuel index numMCInsts st).mcInsts.length := by
  induction fuel generalizing index numMCInsts st with
  | zero => simp [decodeRawInst]
  | succ fuel ih =>
    rcases decodeRawInst_succ dec rawInst vAddr startVAddr fuel index numMCInsts st with
      hd | ⟨index', st', hlen, -, htab, hoff, hd⟩
    · rw [hd]; exact ⟨rfl, le_rfl, le_rfl⟩
    · obtain ⟨h1, h2, h3⟩ := ih index' (numMCInsts + 1) st'
      rw [hd]
      refine ⟨h1.trans htab, ?_, ?_⟩ <;> split_ifs at hoff <;> omega

/-- **What the outer loop keeps of the skew table** after the raw instructions below `r`: its keys
are among them, it translates them in increasing order and never past `k + SkewIdxOffset`, the
offset counts only decoded instructions, and the table stays empty while the offset is zero. -/
structure SkewInv (st : DisasmState) (r : Nat) : Prop where
  keys_lt : ∀ p ∈ st.skewIndicies, p.1 < r
  increasing : ∀ k₁ k₂, k₁ < k₂ → k₂ < r →
    (st.skewIndicies.lookup k₁).getD k₁ < (st.skewIndicies.lookup k₂).getD k₂
  le_offset : ∀ k < r, (st.skewIndicies.lookup k).getD k ≤ k + st.skewIdxOffset
  offset_le : st.skewIdxOffset ≤ st.mcInsts.length
  offset_pos : st.skewIndicies ≠ [] → 0 < st.skewIdxOffset

/-- Decoding starts from the invariant: an empty table and no offset. -/
theorem SkewInv.init {st : DisasmState} (htab : st.skewIndicies = []) (hst : st.skewIdxOffset = 0) :
    SkewInv st 0 :=
  ⟨by simp [htab], fun _ _ _ h => absurd h (Nat.not_lt_zero _), fun _ h => absurd h (Nat.not_lt_zero _),
    by simp [hst], fun h => absurd htab h⟩

/-- A table whose keys are all below `r` does not have `r`. -/
theorem lookup_eq_none_of_keys_lt {table : List (Nat × Nat)} {r : Nat}
    (h : ∀ p ∈ table, p.1 < r) : table.lookup r = none :=
  List.lookup_eq_none_iff.mpr fun p hp => by simpa using (h p hp).ne'

/-- Appending a fresh key changes the translation of that key only. -/
theorem lookup_append_fresh {table : List (Nat × Nat)} {r : Nat} (h : ∀ p ∈ table, p.1 < r)
    (v k : Nat) :
    ((table ++ [(r, v)]).lookup k).getD k = if k = r then v else (table.lookup k).getD k := by
  rw [List.lookup_append]
  split_ifs with hk
  · subst hk; simp [lookup_eq_none_of_keys_lt h]
  · have : ([(r, v)] : List (Nat × Nat)).lookup k = none :=
      List.lookup_eq_none_iff.mpr (by simp [hk])
    cases table.lookup k <;> simp [this]

theorem SkewInv.decode {st : DisasmState} {r : Nat} (h : SkewInv st r) (dec : Decoder)
    (rawInst : RawInstTy) (vAddr startVAddr : UInt64) (fuel index numMCInsts : Nat) :
    SkewInv (decodeRawInst dec rawInst vAddr startVAddr fuel index numMCInsts st) r := by
  obtain ⟨ht, hle, hlen⟩ := decodeRawInst_skew dec rawInst vAddr startVAddr fuel index numMCInsts st
  refine ⟨?_, ?_, fun k hk => ?_, by have := h.offset_le; omega, fun hne => ?_⟩
  · rw [ht]; exact h.keys_lt
  · rw [ht]; exact h.increasing
  · rw [ht]; exact (h.le_offset k hk).trans (by omega)
  · rw [ht] at hne; exact lt_of_lt_of_le (h.offset_pos hne) hle

/-- Recording the skew of raw instruction `r` extends the invariant to it: its translation is
`r + SkewIdxOffset`, above every earlier one. -/
theorem SkewInv.record {st : DisasmState} {r : Nat} (h : SkewInv st r) :
    SkewInv (if st.skewIdxOffset > 0 then
      { st with skewIndicies := st.skewIndicies ++ [(r, r + st.skewIdxOffset)] } else st) (r + 1) := by
  obtain ⟨hk, hinc, hoff, hol, hpos⟩ := h
  have hr : (st.skewIndicies.lookup r).getD r = r := by simp [lookup_eq_none_of_keys_lt hk]
  split_ifs with ho
  · refine ⟨fun p hp => ?_, fun k₁ k₂ h₁₂ h₂ => ?_, fun k hk' => ?_, hol, fun _ => ho⟩
    · rcases List.mem_append.mp hp with hp | hp
      · exact Nat.lt_succ_of_lt (hk p hp)
      · simp only [List.mem_singleton] at hp; subst hp; exact Nat.lt_succ_self r
    · dsimp only
      rw [lookup_append_fresh hk, lookup_append_fresh hk]
      by_cases hk₂ : k₂ = r
      · have := hoff k₁ (by omega); simp only [hk₂, if_true, show k₁ ≠ r by omega, if_false]; omega
      · simp only [hk₂, show k₁ ≠ r by omega, if_false]; exact hinc k₁ k₂ h₁₂ (by omega)
    · dsimp only
      rw [lookup_append_fresh hk]
      split_ifs with hkr
      · omega
      · exact hoff k (by omega)
  · refine ⟨fun p hp => Nat.lt_succ_of_lt (hk p hp), fun k₁ k₂ h₁₂ h₂ => ?_, fun k hk' => ?_, hol,
      hpos⟩
    · by_cases hk₂ : k₂ = r
      · subst hk₂; have := hoff k₁ h₁₂; omega
      · exact hinc k₁ k₂ h₁₂ (by omega)
    · by_cases hkr : k = r
      · subst hkr; omega
      · exact hoff k (by omega)

/-- **The outer loop keeps the skew invariant** over every raw instruction it passes. -/
theorem disassembleRawInsts_skew (dec : Decoder) (startVAddr : UInt64) :
    ∀ (rawInsts : List RawInstTy) (r : Nat) (vAddr : UInt64) (st : DisasmState), SkewInv st r →
      SkewInv (disassembleRawInsts dec startVAddr rawInsts r vAddr st) (r + rawInsts.length)
  | [], r, _, st, h => h
  | rawInst :: rest, r, vAddr, st, h => by
    rw [List.length_cons, show r + (rest.length + 1) = r + 1 + rest.length by omega]
    exact disassembleRawInsts_skew dec startVAddr rest (r + 1) _ _
      (h.record.decode dec rawInst vAddr startVAddr rawInst.length 0 0)

/-- **A block decoded from an empty skew table translates its raw indices in increasing order**,
and its table stays empty unless it decoded some instruction. -/
theorem disassemble_skew (t : Target) {tb : TranslationBlock} (nextMCInst : MCInstPtr)
    (h : tb.skewIndicies = []) :
    (∀ k₁ k₂, k₁ < k₂ → k₂ < tb.rawInsts.length →
      ((disassemble t tb nextMCInst).1.skewIndicies.lookup k₁).getD k₁ <
        ((disassemble t tb nextMCInst).1.skewIndicies.lookup k₂).getD k₂) ∧
    ((disassemble t tb nextMCInst).1.skewIndicies ≠ [] → (disassemble t tb nextMCInst).1.mcInsts ≠ []) := by
  unfold disassemble
  split
  · simp only [h, List.lookup_nil, Option.getD_none, ne_eq, not_true_eq_false, false_implies,
      and_true]
    exact fun _ _ h₁₂ _ => h₁₂
  · rw [h]
    have hinv := disassembleRawInsts_skew (t.curDisAsm tb.vAddr) (t.maskModeBit tb.vAddr) tb.rawInsts 0
      (t.maskModeBit tb.vAddr) ⟨tb.mcInsts, tb.vAddrOffsets, [], 0, nextMCInst⟩ (SkewInv.init rfl rfl)
    rw [Nat.zero_add] at hinv
    refine ⟨hinv.increasing, fun hne => ?_⟩
    have := lt_of_lt_of_le (hinv.offset_pos hne) hinv.offset_le
    exact List.ne_nil_of_length_pos this

/-! ## Termination

The inner loop advances `Index` by `DisAsmSize`, or by one when the decoder reports a size of
zero, so `Len - Index` falls on every iteration. `decodeRawInstWf` is the loop without fuel,
accepted by that measure; the fuel'd `decodeRawInst` that `disassemble` runs agrees with it
whenever the fuel reaches the end of the raw instruction, as `Len` does from `Index = 0`. -/

/-- `if (DisAsmSize == 0) DisAsmSize = 1`: every iteration advances `Index` by at least one byte. -/
theorem disAsmStep_pos (disAsmSize : UInt64) :
    0 < (if disAsmSize = 0 then 1 else disAsmSize.toNat) := by
  split_ifs with h
  · exact Nat.one_pos
  · exact Nat.pos_of_ne_zero fun h0 => h (UInt64.toNat.inj h0)

/-- **The inner loop without fuel**, by well-founded recursion on `Len - Index`: the same body as
`decodeRawInst`, accepted because every iteration advances `Index` (`disAsmStep_pos`). -/
def decodeRawInstWf (dec : Decoder) (rawInst : RawInstTy) (vAddr startVAddr : UInt64)
    (index numMCInsts : Nat) (st : DisasmState) : DisasmState :=
  if _h : index < rawInst.length then
    match dec (rawInst.drop index) (vAddr + UInt64.ofNat index) with
    | none => st
    | some disAsmSize =>
      decodeRawInstWf dec rawInst vAddr startVAddr
        (index + (if disAsmSize = 0 then 1 else disAsmSize.toNat)) (numMCInsts + 1)
        { st with
          mcInsts := st.mcInsts ++ [st.nextMCInst]
          nextMCInst := st.nextMCInst + 1
          vAddrOffsets :=
            st.vAddrOffsets ++ [(vAddr + UInt64.ofNat index - startVAddr).toUInt8]
          skewIdxOffset := if numMCInsts + 1 > 1 then st.skewIdxOffset + 1 else st.skewIdxOffset }
  else st
termination_by rawInst.length - index
decreasing_by simp_wf; have := disAsmStep_pos disAsmSize; omega

/-- Fuel that reaches the raw instruction's end is never what stops the inner loop. -/
theorem decodeRawInst_eq_wf (dec : Decoder) (rawInst : RawInstTy) (vAddr startVAddr : UInt64) :
    ∀ (fuel index numMCInsts : Nat) (st : DisasmState), rawInst.length ≤ index + fuel →
      decodeRawInst dec rawInst vAddr startVAddr fuel index numMCInsts st =
        decodeRawInstWf dec rawInst vAddr startVAddr index numMCInsts st
  | 0, index, numMCInsts, st, h => by
    rw [decodeRawInstWf, dif_neg (by omega)]; rfl
  | fuel + 1, index, numMCInsts, st, h => by
    rw [decodeRawInstWf]
    simp only [decodeRawInst]
    by_cases hi : index < rawInst.length
    · rw [if_pos hi, dif_pos hi]
      cases dec (rawInst.drop index) (vAddr + UInt64.ofNat index) with
      | none => rfl
      | some d =>
        exact decodeRawInst_eq_wf dec rawInst vAddr startVAddr fuel _ _ _
          (by have := disAsmStep_pos d; omega)
    · rw [if_neg hi, dif_neg hi]

/-- **Disassembly terminates.** For every decoder, the inner loop run with the raw instruction's
length as fuel computes what the fuel-free loop computes, which ends because `Len - Index` falls on
every iteration; so no iteration is cut off by the fuel, and the call produces at most one `MCInst`
per raw byte. -/
theorem disassemble_terminates (t : Target) (tb : TranslationBlock) (nextMCInst : MCInstPtr) :
    (∀ (dec : Decoder) (rawInst : RawInstTy) (vAddr startVAddr : UInt64)
        (fuel index numMCInsts : Nat) (st : DisasmState), rawInst.length ≤ index + fuel →
      decodeRawInst dec rawInst vAddr startVAddr fuel index numMCInsts st =
        decodeRawInstWf dec rawInst vAddr startVAddr index numMCInsts st) ∧
    (disassemble t tb nextMCInst).1.mcInsts.length ≤ tb.mcInsts.length + rawSize tb.rawInsts :=
  ⟨fun dec rawInst vAddr startVAddr => decodeRawInst_eq_wf dec rawInst vAddr startVAddr,
    (disassemble_length_le t tb nextMCInst).1⟩

/-! ## Where the first instruction of a raw instruction lands

`SkewIdxOffset` counts the instructions decoded past the first of each raw instruction, so it
accounts for raw instructions that decode to several, but not for one that decodes to none: the
inner loop stops at the decoder's first failure, and a raw instruction whose first byte fails
adds nothing while the positions of all later instructions shift down. The table is right, raw
index `k` translating to the position of its first instruction, exactly while every raw
instruction before `k` decoded at least one. -/

/-- Past a raw instruction's first instruction, the inner loop raises `SkewIdxOffset` by one for
every instruction it decodes. -/
theorem decodeRawInst_offset_of_pos (dec : Decoder) (rawInst : RawInstTy)
    (vAddr startVAddr : UInt64) :
    ∀ (fuel index m : Nat) (st : DisasmState), 0 < m →
      st.mcInsts.length ≤
        (decodeRawInst dec rawInst vAddr startVAddr fuel index m st).mcInsts.length ∧
      (decodeRawInst dec rawInst vAddr startVAddr fuel index m st).skewIdxOffset +
          st.mcInsts.length =
        st.skewIdxOffset +
          (decodeRawInst dec rawInst vAddr startVAddr fuel index m st).mcInsts.length
  | 0, _, _, _, _ => ⟨le_rfl, rfl⟩
  | fuel + 1, index, m, st, hm => by
    rcases decodeRawInst_succ dec rawInst vAddr startVAddr fuel index m st with
      h | ⟨index', st', hlen, -, -, hoff, h⟩
    · rw [h]; exact ⟨le_rfl, rfl⟩
    · obtain ⟨h1, h2⟩ := decodeRawInst_offset_of_pos dec rawInst vAddr startVAddr fuel index'
        (m + 1) st' (Nat.succ_pos m)
      rw [if_pos (by omega)] at hoff
      rw [h]
      omega

/-- From a raw instruction's start, the inner loop raises `SkewIdxOffset` by the number of
instructions it decodes past the first. -/
theorem decodeRawInst_offset (dec : Decoder) (rawInst : RawInstTy) (vAddr startVAddr : UInt64)
    (fuel index : Nat) (st : DisasmState) :
    st.mcInsts.length ≤ (decodeRawInst dec rawInst vAddr startVAddr fuel index 0 st).mcInsts.length ∧
    (decodeRawInst dec rawInst vAddr startVAddr fuel index 0 st).skewIdxOffset = st.skewIdxOffset +
      ((decodeRawInst dec rawInst vAddr startVAddr fuel index 0 st).mcInsts.length -
        st.mcInsts.length - 1) := by
  cases fuel with
  | zero => exact ⟨le_rfl, by simp [decodeRawInst]⟩
  | succ fuel =>
    rcases decodeRawInst_succ dec rawInst vAddr startVAddr fuel index 0 st with
      h | ⟨index', st', hlen, -, -, hoff, h⟩
    · rw [h]; simp
    · obtain ⟨h1, h2⟩ := decodeRawInst_offset_of_pos dec rawInst vAddr startVAddr fuel index' (0 + 1)
        st' Nat.one_pos
      rw [if_neg (by omega)] at hoff
      rw [h]
      omega

/-- The outer loop over `xs ++ ys` is the loop over `ys` from where the loop over `xs` stopped. -/
theorem disassembleRawInsts_append (dec : Decoder) (startVAddr : UInt64) :
    ∀ (xs ys : List RawInstTy) (r : Nat) (vAddr : UInt64) (st : DisasmState),
      ∃ vAddr', disassembleRawInsts dec startVAddr (xs ++ ys) r vAddr st =
        disassembleRawInsts dec startVAddr ys (r + xs.length) vAddr'
          (disassembleRawInsts dec startVAddr xs r vAddr st)
  | [], ys, r, vAddr, st => ⟨vAddr, rfl⟩
  | x :: xs, ys, r, vAddr, st => by
    obtain ⟨v', h⟩ := disassembleRawInsts_append dec startVAddr xs ys (r + 1) _ _
    exact ⟨v', by rw [List.cons_append, disassembleRawInsts, h, List.length_cons,
      show r + 1 + xs.length = r + (xs.length + 1) by omega]; rfl⟩

/-- The outer loop only appends to the table, with keys from the first raw index it passes. -/
theorem disassembleRawInsts_table (dec : Decoder) (startVAddr : UInt64) :
    ∀ (xs : List RawInstTy) (r : Nat) (vAddr : UInt64) (st : DisasmState),
      ∃ extra, (disassembleRawInsts dec startVAddr xs r vAddr st).skewIndicies =
        st.skewIndicies ++ extra ∧ ∀ p ∈ extra, r ≤ p.1
  | [], r, vAddr, st => ⟨[], by simp [disassembleRawInsts]⟩
  | x :: xs, r, vAddr, st => by
    obtain ⟨extra, h, hk⟩ := disassembleRawInsts_table dec startVAddr xs (r + 1) _ _
    rw [disassembleRawInsts, h, (decodeRawInst_skew ..).1]
    split_ifs
    · exact ⟨(r, r + st.skewIdxOffset) :: extra, by simp, fun p hp => by
        rcases List.mem_cons.mp hp with rfl | hp
        · exact le_rfl
        · exact Nat.le_of_succ_le (hk p hp)⟩
    · exact ⟨extra, rfl, fun p hp => Nat.le_of_succ_le (hk p hp)⟩

/-- A key the appended part of a table does not hold translates as before. -/
theorem lookup_append_of_lt_keys {table extra : List (Nat × Nat)} {k : Nat}
    (h : ∀ p ∈ extra, k < p.1) : (table ++ extra).lookup k = table.lookup k := by
  have : extra.lookup k = none := List.lookup_eq_none_iff.mpr fun p hp => by simpa using (h p hp).ne
  rw [List.lookup_append, this, Option.or_none]

/-- **One raw instruction of the outer loop**: the table gains the key `r` exactly when an offset
has accumulated, and the offset grows by the instructions decoded past the first. -/
theorem decodeRawInst_after_record (dec : Decoder) (rawInst : RawInstTy) (vAddr startVAddr : UInt64)
    (r : Nat) (st : DisasmState) :
    let st' := decodeRawInst dec rawInst vAddr startVAddr rawInst.length 0 0
      (if st.skewIdxOffset > 0 then
        { st with skewIndicies := st.skewIndicies ++ [(r, r + st.skewIdxOffset)] } else st)
    st.mcInsts.length ≤ st'.mcInsts.length ∧
    st'.skewIdxOffset = st.skewIdxOffset + (st'.mcInsts.length - st.mcInsts.length - 1) ∧
    st'.skewIndicies =
      st.skewIndicies ++ (if st.skewIdxOffset > 0 then [(r, r + st.skewIdxOffset)] else []) := by
  split_ifs
  · have := decodeRawInst_offset dec rawInst vAddr startVAddr rawInst.length 0
      { st with skewIndicies := st.skewIndicies ++ [(r, r + st.skewIdxOffset)] }
    exact ⟨this.1, this.2, (decodeRawInst_skew ..).1⟩
  · have := decodeRawInst_offset dec rawInst vAddr startVAddr rawInst.length 0 st
    exact ⟨this.1, this.2, by rw [(decodeRawInst_skew ..).1, List.append_nil]⟩

section Prefix

variable (dec : Decoder) (startVAddr : UInt64) (rawInsts : List RawInstTy) (st : DisasmState)

/-- The decoding state once the first `k` raw instructions are decoded. -/
def disassemblePrefix (k : Nat) : DisasmState :=
  disassembleRawInsts dec startVAddr (rawInsts.take k) 0 startVAddr st

/-- Decoding the first `k + 1` raw instructions is decoding the first `k`, then raw instruction
`k` as the outer loop does. -/
theorem disassemblePrefix_succ {k : Nat} (hk : k < rawInsts.length) :
    ∃ vAddr, disassemblePrefix dec startVAddr rawInsts st (k + 1) =
      decodeRawInst dec rawInsts[k] vAddr startVAddr rawInsts[k].length 0 0
        (if (disassemblePrefix dec startVAddr rawInsts st k).skewIdxOffset > 0 then
          { disassemblePrefix dec startVAddr rawInsts st k with
            skewIndicies := (disassemblePrefix dec startVAddr rawInsts st k).skewIndicies ++
              [(k, k + (disassemblePrefix dec startVAddr rawInsts st k).skewIdxOffset)] }
        else disassemblePrefix dec startVAddr rawInsts st k) := by
  obtain ⟨v, h⟩ := disassembleRawInsts_append dec startVAddr (rawInsts.take k) [rawInsts[k]] 0
    startVAddr st
  rw [disassemblePrefix, List.take_succ, List.getElem?_eq_getElem hk, Option.toList_some, h,
    List.length_take, Nat.min_eq_left hk.le, Nat.zero_add]
  exact ⟨v, rfl⟩

/-- **While every raw instruction decodes one, the offset counts the extra ones**: after the first
`k` raw instructions, `MCInsts` holds one instruction per raw instruction plus `SkewIdxOffset`. -/
theorem disassemblePrefix_count (hst : st.skewIdxOffset = 0) :
    ∀ k ≤ rawInsts.length,
      (∀ j < k, (disassemblePrefix dec startVAddr rawInsts st j).mcInsts.length <
        (disassemblePrefix dec startVAddr rawInsts st (j + 1)).mcInsts.length) →
      (disassemblePrefix dec startVAddr rawInsts st k).mcInsts.length =
        st.mcInsts.length + k + (disassemblePrefix dec startVAddr rawInsts st k).skewIdxOffset
  | 0, _, _ => by simp [disassemblePrefix, disassembleRawInsts, hst]
  | k + 1, hk, hdec => by
    have ih := disassemblePrefix_count hst k (by omega) fun j hj => hdec j (by omega)
    have hlt := hdec k (Nat.lt_succ_self k)
    obtain ⟨v, h⟩ := disassemblePrefix_succ dec startVAddr rawInsts st hk
    obtain ⟨-, hoff, -⟩ := decodeRawInst_after_record dec rawInsts[k] v startVAddr k
      (disassemblePrefix dec startVAddr rawInsts st k)
    rw [← h] at hoff
    omega

/-- The keys of the table after the first `k` raw instructions are below `k`. -/
theorem disassemblePrefix_keys_lt (hst : st.skewIdxOffset = 0) (htab : st.skewIndicies = [])
    {k : Nat} (hk : k ≤ rawInsts.length) :
    ∀ p ∈ (disassemblePrefix dec startVAddr rawInsts st k).skewIndicies, p.1 < k := by
  have := (disassembleRawInsts_skew dec startVAddr (rawInsts.take k) 0 startVAddr st
    (SkewInv.init htab hst)).keys_lt
  simpa [disassemblePrefix, Nat.min_eq_left hk] using this

/-- The whole run is the run over the rest from where the first `k` raw instructions left it. -/
theorem disassembleRawInsts_eq_prefix {k : Nat} (hk : k ≤ rawInsts.length) :
    ∃ vAddr, disassembleRawInsts dec startVAddr rawInsts 0 startVAddr st =
      disassembleRawInsts dec startVAddr (rawInsts.drop k) k vAddr
        (disassemblePrefix dec startVAddr rawInsts st k) := by
  obtain ⟨v, h⟩ := disassembleRawInsts_append dec startVAddr (rawInsts.take k) (rawInsts.drop k) 0
    startVAddr st
  rw [List.take_append_drop, List.length_take, Nat.min_eq_left hk, Nat.zero_add] at h
  exact ⟨v, h⟩

/-- **The table translates raw index `k` to the count decoded before it**, when every raw
instruction before `k` decoded one: the key `k` holds `k + SkewIdxOffset` as the offset stood
when `k` was reached, or is absent while that offset was zero, and the raw instructions after
`k` only add larger keys. -/
theorem disassembleRawInsts_translation (hst : st.skewIdxOffset = 0) (htab : st.skewIndicies = [])
    {k : Nat} (hk : k < rawInsts.length)
    (hdec : ∀ j < k, (disassemblePrefix dec startVAddr rawInsts st j).mcInsts.length <
      (disassemblePrefix dec startVAddr rawInsts st (j + 1)).mcInsts.length) :
    ((disassembleRawInsts dec startVAddr rawInsts 0 startVAddr st).skewIndicies.lookup k).getD k +
        st.mcInsts.length = (disassemblePrefix dec startVAddr rawInsts st k).mcInsts.length := by
  have hcount := disassemblePrefix_count dec startVAddr rawInsts st hst k hk.le hdec
  have hlt := disassemblePrefix_keys_lt dec startVAddr rawInsts st hst htab hk.le
  obtain ⟨v, hsucc⟩ := disassemblePrefix_succ dec startVAddr rawInsts st hk
  obtain ⟨-, -, htbl⟩ := decodeRawInst_after_record dec rawInsts[k] v startVAddr k
    (disassemblePrefix dec startVAddr rawInsts st k)
  rw [← hsucc] at htbl
  obtain ⟨v', hall⟩ :=
    disassembleRawInsts_eq_prefix dec startVAddr rawInsts st (Nat.succ_le_of_lt hk)
  obtain ⟨extra, hext, hkeys⟩ := disassembleRawInsts_table dec startVAddr (rawInsts.drop (k + 1))
    (k + 1) v' (disassemblePrefix dec startVAddr rawInsts st (k + 1))
  rw [hall, hext, lookup_append_of_lt_keys hkeys, htbl]
  split_ifs
  · rw [lookup_append_fresh hlt, if_pos rfl]; omega
  · rw [List.append_nil, lookup_eq_none_of_keys_lt hlt, Option.getD_none]; omega

end Prefix

/-- Where decoding puts the first instruction of raw instruction `k`: the number of `MCInst`s the
block holds once its first `k` raw instructions are decoded. -/
def firstDecodedAt (t : Target) (tb : TranslationBlock) (nextMCInst : MCInstPtr) (k : Nat) : Nat :=
  (disassemblePrefix (t.curDisAsm tb.vAddr) (t.maskModeBit tb.vAddr) tb.rawInsts
    ⟨tb.mcInsts, tb.vAddrOffsets, tb.skewIndicies, 0, nextMCInst⟩ k).mcInsts.length

/-- **The skew translation finds the first instruction of every raw instruction after raw
instructions that each decoded one.** -/
theorem skew_translation_finds_first_decoded (t : Target) {tb : TranslationBlock}
    (nextMCInst : MCInstPtr) (hm : tb.mcInsts = []) (hs : tb.skewIndicies = []) {k : Nat}
    (hk : k < tb.rawInsts.length)
    (hdec : ∀ j < k, firstDecodedAt t tb nextMCInst j < firstDecodedAt t tb nextMCInst (j + 1)) :
    ((disassemble t tb nextMCInst).1.skewIndicies.lookup k).getD k = firstDecodedAt t tb nextMCInst k := by
  have h := disassembleRawInsts_translation (t.curDisAsm tb.vAddr) (t.maskModeBit tb.vAddr)
    tb.rawInsts ⟨tb.mcInsts, tb.vAddrOffsets, tb.skewIndicies, 0, nextMCInst⟩ rfl hs hk hdec
  rw [disassemble, if_neg (by simp [TranslationBlock.isTranslated, hm])]
  simpa [firstDecodedAt, hm] using h


/-- A decoder that reads only the one-byte `nop` `0x90` and fails on every other byte. -/
def nopDecoder : Decoder := fun bytes _ => if bytes.head? = some 0x90 then some 1 else none

/-- A target decoding with `nopDecoder`. -/
def nopTarget : Target := ⟨false, false, nopDecoder, nopDecoder⟩

theorem skew_translation_finds_first_decoded_two_nops :
    firstDecodedAt nopTarget (TranslationBlock.ofRaw [[0x90, 0x90], [0x90]]) 0 1 = 2 ∧
      ((disassemble nopTarget (TranslationBlock.ofRaw [[0x90, 0x90], [0x90]]) 0).1.skewIndicies.lookup
          1).getD 1 = firstDecodedAt nopTarget (TranslationBlock.ofRaw [[0x90, 0x90], [0x90]]) 0 1 :=
  ⟨by decide, skew_translation_finds_first_decoded nopTarget 0 rfl rfl (by decide) (by decide)⟩

/-- **A raw instruction that decodes nothing skews every later translation.** Raw instruction 0,
the byte `0xFF`, fails to decode; raw instruction 1 decodes one `nop`, placed at position 0, but
the table has no entry for it, so it translates to 1, past the block's only instruction. -/
theorem failed_raw_instruction_skews_translation :
    nopDecoder [0xFF] 0 = none ∧
      firstDecodedAt nopTarget (TranslationBlock.ofRaw [[0xFF], [0x90]]) 0 1 = 0 ∧
      firstDecodedAt nopTarget (TranslationBlock.ofRaw [[0xFF], [0x90]]) 0 2 = 1 ∧
      (disassemble nopTarget (TranslationBlock.ofRaw [[0xFF], [0x90]]) 0).1.mcInsts = [0] ∧
      ((disassemble nopTarget (TranslationBlock.ofRaw [[0xFF], [0x90]]) 0).1.skewIndicies.lookup
          1).getD 1 = 1 := by
  decide

/-! ## Offsets

`VAddr + Index - StartVAddr` is computed in `uint64_t` and stored in `VAddrOffsets`, a vector of
`uint8_t`. The true offsets, the distances from the block's start at which the inner loop decodes,
are `decodedOffsets`; in every block the recorded offsets are these cut to `uint8_t`. In a block of
at most 256 bytes the two agree and strictly increase; in a longer one they wrap. -/

/-- **Where the inner loop decodes**: the values of `Index` at which it records an instruction,
from `index` on, for the same fuel. -/
def decodePositions (dec : Decoder) (rawInst : RawInstTy) (vAddr : UInt64) : Nat → Nat → List Nat
  | 0, _ => []
  | fuel + 1, index =>
    if index < rawInst.length then
      match dec (rawInst.drop index) (vAddr + UInt64.ofNat index) with
      | none => []
      | some disAsmSize =>
        index :: decodePositions dec rawInst vAddr fuel
          (index + (if disAsmSize = 0 then 1 else disAsmSize.toNat))
    else []

/-- **The true offsets of a block's instructions**: for each raw instruction, `d` bytes into the
block, the positions the inner loop decodes at, moved by `d`. -/
def decodedOffsets (dec : Decoder) : List RawInstTy → UInt64 → Nat → List Nat
  | [], _, _ => []
  | rawInst :: rest, vAddr, d =>
    (decodePositions dec rawInst vAddr rawInst.length 0).map (d + ·) ++
      decodedOffsets dec rest (vAddr + UInt64.ofNat rawInst.length) (d + rawInst.length)

/-- The offset stored for a decode `index` bytes into a raw instruction that starts `d` bytes into
the block is the distance cut to `uint8_t`. -/
theorem vAddrOffset_eq_ofNat {startVAddr vAddr : UInt64} {d : Nat}
    (hv : vAddr.toNat = (startVAddr.toNat + d) % 18446744073709551616) (index : Nat) :
    (vAddr + UInt64.ofNat index - startVAddr).toUInt8 = UInt8.ofNat (d + index) := by
  apply UInt8.toNat.inj
  have hs : startVAddr.toNat < 18446744073709551616 := startVAddr.toBitVec.isLt
  show (UInt8.ofNat (vAddr + UInt64.ofNat index - startVAddr).toNat).toNat = _
  rw [uint8_toNat_ofNat, uint8_toNat_ofNat, uint64_toNat_sub, uint64_toNat_add, hv]
  change ((18446744073709551616 - startVAddr.toNat) +
      ((startVAddr.toNat + d) % 18446744073709551616 + index % 18446744073709551616) %
        18446744073709551616) % 18446744073709551616 % 256 = _
  omega

/-- Moving `VAddr` past `n` bytes moves its distance from `StartVAddr` by `n`. -/
theorem vAddr_add_toNat {startVAddr vAddr : UInt64} {d : Nat}
    (hv : vAddr.toNat = (startVAddr.toNat + d) % 18446744073709551616) (n : Nat) :
    (vAddr + UInt64.ofNat n).toNat = (startVAddr.toNat + (d + n)) % 18446744073709551616 := by
  rw [uint64_toNat_add, hv]
  show ((startVAddr.toNat + d) % 18446744073709551616 + n % 18446744073709551616) %
    18446744073709551616 = _
  omega

/-- The inner loop records, at each position it decodes at, the distance cut to `uint8_t`. -/
theorem decodeRawInst_vAddrOffsets (dec : Decoder) (rawInst : RawInstTy) {vAddr startVAddr : UInt64}
    {d : Nat} (hv : vAddr.toNat = (startVAddr.toNat + d) % 18446744073709551616) :
    ∀ (fuel index m : Nat) (st : DisasmState),
      (decodeRawInst dec rawInst vAddr startVAddr fuel index m st).vAddrOffsets =
        st.vAddrOffsets ++ (decodePositions dec rawInst vAddr fuel index).map fun i => UInt8.ofNat (d + i)
  | 0, _, _, _ => by simp [decodeRawInst, decodePositions]
  | fuel + 1, index, m, st => by
    simp only [decodeRawInst, decodePositions]
    split
    · cases dec (rawInst.drop index) (vAddr + UInt64.ofNat index) with
      | none => simp
      | some disAsmSize =>
        simp only [decodeRawInst_vAddrOffsets dec rawInst hv fuel, vAddrOffset_eq_ofNat hv,
          List.map_cons, List.append_assoc, List.singleton_append]
    · simp

/-- The outer loop records the true offsets of the raw instructions it decodes, cut to `uint8_t`. -/
theorem disassembleRawInsts_vAddrOffsets (dec : Decoder) (startVAddr : UInt64) :
    ∀ (rawInsts : List RawInstTy) (r : Nat) (vAddr : UInt64) (st : DisasmState) (d : Nat),
      vAddr.toNat = (startVAddr.toNat + d) % 18446744073709551616 →
      (disassembleRawInsts dec startVAddr rawInsts r vAddr st).vAddrOffsets =
        st.vAddrOffsets ++ (decodedOffsets dec rawInsts vAddr d).map UInt8.ofNat
  | [], _, _, _, _, _ => by simp [disassembleRawInsts, decodedOffsets]
  | rawInst :: rest, r, vAddr, st, d, hv => by
    have hskew : (if st.skewIdxOffset > 0 then
        { st with skewIndicies := st.skewIndicies ++ [(r, r + st.skewIdxOffset)] }
      else st).vAddrOffsets = st.vAddrOffsets := by split <;> rfl
    rw [disassembleRawInsts, disassembleRawInsts_vAddrOffsets dec startVAddr rest _ _ _ _
      (vAddr_add_toNat hv rawInst.length), decodeRawInst_vAddrOffsets dec rawInst hv, hskew]
    simp [decodedOffsets, List.map_map, Function.comp_def]

/-- **The recorded offsets are the true offsets cut to `uint8_t`**, in a block of any length. -/
theorem disassemble_vAddrOffsets (t : Target) {tb : TranslationBlock} (nextMCInst : MCInstPtr)
    (hm : tb.mcInsts = []) (ho : tb.vAddrOffsets = []) :
    (disassemble t tb nextMCInst).1.vAddrOffsets =
      (decodedOffsets (t.curDisAsm tb.vAddr) tb.rawInsts (t.maskModeBit tb.vAddr) 0).map UInt8.ofNat := by
  rw [disassemble, if_neg (by simp [TranslationBlock.isTranslated, hm])]
  simpa [ho] using disassembleRawInsts_vAddrOffsets (t.curDisAsm tb.vAddr) (t.maskModeBit tb.vAddr)
    tb.rawInsts 0 (t.maskModeBit tb.vAddr) ⟨tb.mcInsts, tb.vAddrOffsets, tb.skewIndicies, 0, nextMCInst⟩ 0
    (by rw [Nat.add_zero]; exact (Nat.mod_eq_of_lt (t.maskModeBit tb.vAddr).toBitVec.isLt).symm)

/-- The inner loop decodes at increasing positions, from `index` on and inside the raw instruction. -/
theorem decodePositions_sorted (dec : Decoder) (rawInst : RawInstTy) (vAddr : UInt64) :
    ∀ fuel index, (∀ i ∈ decodePositions dec rawInst vAddr fuel index, index ≤ i ∧ i < rawInst.length) ∧
      (decodePositions dec rawInst vAddr fuel index).Pairwise (· < ·)
  | 0, _ => by simp [decodePositions]
  | fuel + 1, index => by
    simp only [decodePositions]
    split
    · rename_i hi
      cases dec (rawInst.drop index) (vAddr + UInt64.ofNat index) with
      | none => simp
      | some disAsmSize =>
        obtain ⟨hlt, hs⟩ := decodePositions_sorted dec rawInst vAddr fuel
          (index + (if disAsmSize = 0 then 1 else disAsmSize.toNat))
        have hstep := disAsmStep_pos disAsmSize
        refine ⟨fun i hi' => ?_, List.pairwise_cons.mpr ⟨fun i hi' => ?_, hs⟩⟩
        · rcases List.mem_cons.mp hi' with rfl | hi'
          · exact ⟨le_rfl, hi⟩
          · have := hlt i hi'; omega
        · have := hlt i hi'; omega
    · simp

/-- **The true offsets strictly increase**, each inside the block. -/
theorem decodedOffsets_sorted (dec : Decoder) :
    ∀ (rawInsts : List RawInstTy) (vAddr : UInt64) (d : Nat),
      (∀ o ∈ decodedOffsets dec rawInsts vAddr d, d ≤ o ∧ o < d + rawSize rawInsts) ∧
        (decodedOffsets dec rawInsts vAddr d).Pairwise (· < ·)
  | [], _, _ => by simp [decodedOffsets]
  | rawInst :: rest, vAddr, d => by
    obtain ⟨hlt, hs⟩ := decodePositions_sorted dec rawInst vAddr rawInst.length 0
    obtain ⟨hlt', hs'⟩ := decodedOffsets_sorted dec rest (vAddr + UInt64.ofNat rawInst.length)
      (d + rawInst.length)
    simp only [decodedOffsets, rawSize, List.mem_append, List.mem_map]
    refine ⟨fun o ho => ?_, List.pairwise_append.mpr ⟨?_, hs', ?_⟩⟩
    · rcases ho with ⟨i, hi, rfl⟩ | ho
      · have := hlt i hi; omega
      · have := hlt' o ho; omega
    · exact List.pairwise_map.mpr (hs.imp fun h => by omega)
    · intro _ ha b hb
      obtain ⟨i, hi, rfl⟩ := List.mem_map.mp ha
      have := hlt i hi; have := hlt' b hb; omega

/-- **The offsets of a block of at most 256 bytes strictly increase**, each below the block's
length: every iteration advances `Index` by at least a byte, and no distance reaches the `uint8_t`
limit. -/
theorem disassemble_offsets_increasing (t : Target) {tb : TranslationBlock} (nextMCInst : MCInstPtr)
    (hm : tb.mcInsts = []) (ho : tb.vAddrOffsets = []) (hsmall : rawSize tb.rawInsts ≤ 256) :
    (disassemble t tb nextMCInst).1.vAddrOffsets.Pairwise (fun a b => a.toNat < b.toNat) ∧
      ∀ o ∈ (disassemble t tb nextMCInst).1.vAddrOffsets, o.toNat < rawSize tb.rawInsts := by
  obtain ⟨hlt, hs⟩ := decodedOffsets_sorted (t.curDisAsm tb.vAddr) tb.rawInsts (t.maskModeBit tb.vAddr) 0
  have hid : ∀ o ∈ decodedOffsets (t.curDisAsm tb.vAddr) tb.rawInsts (t.maskModeBit tb.vAddr) 0,
      (UInt8.ofNat o).toNat = o := fun o ho => by
    have := hlt o ho; rw [uint8_toNat_ofNat]; omega
  rw [disassemble_vAddrOffsets t nextMCInst hm ho, List.pairwise_map]
  refine ⟨hs.imp_of_mem fun ha hb hab => by rwa [hid _ ha, hid _ hb], ?_⟩
  intro _ hx
  obtain ⟨o, ho, rfl⟩ := List.mem_map.mp hx
  have := hlt o ho; rw [hid o ho]; omega

theorem disassemble_offsets_increasing_two_nops :
    (disassemble nopTarget (TranslationBlock.ofRaw [[0x90, 0x90], [0x90]]) 0).1.vAddrOffsets.Pairwise
        (fun a b => a.toNat < b.toNat) ∧
      ∀ o ∈ (disassemble nopTarget (TranslationBlock.ofRaw [[0x90, 0x90], [0x90]]) 0).1.vAddrOffsets,
        o.toNat < rawSize (TranslationBlock.ofRaw [[0x90, 0x90], [0x90]]).rawInsts :=
  disassemble_offsets_increasing nopTarget 0 rfl rfl (by decide)


/-- A decoder that decodes instructions of up to 256 bytes, the whole slice when it is shorter. -/
def wideDecoder : Decoder := fun bytes _ => some (UInt64.ofNat (min 256 bytes.length))

/-- A target decoding with `wideDecoder`. -/
def wideTarget : Target := ⟨false, false, wideDecoder, wideDecoder⟩

set_option maxRecDepth 2000 in
/-- **An instruction 256 bytes into the block gets offset 0.** A raw instruction of 257 bytes
decodes to an instruction of 256 bytes at offset 0 and one of a byte at offset 256, stored as
`uint8_t` 0: the offsets are not the distances, and not increasing. -/
theorem vAddrOffset_wraps_at_256 :
    wideDecoder (List.replicate 257 0x90) 0 = some 256 ∧
      (disassemble wideTarget (TranslationBlock.ofRaw [List.replicate 257 0x90]) 0).1.mcInsts =
        [0, 1] ∧
      (disassemble wideTarget (TranslationBlock.ofRaw [List.replicate 257 0x90]) 0).1.vAddrOffsets =
        [0, 0] := by
  decide

end McadBroker
