import Mathlib.Data.List.Basic

/-! # The data model of the QEMU broker

The broker (`src/plugins/qemu-broker/Broker.cpp`) keeps three kinds of data: translation blocks
received from the emulator, slices of those blocks queued for the simulator, and the memory-access
chains attached to the slices. This file models them with the source's own field widths:

* **`TranslationBlock`** — raw instruction bytes, the decoded `MCInst` objects (as heap addresses),
  the skew table, the start address and the per-instruction `uint8_t` offsets.
* **`TBSlice`** — `[BeginIdx, EndIdx)` over one block as two `uint16_t`, the region it closes and
  its memory-access chain; `TBSlice.size` and `TBSlice.split` as the source computes them.
* **`lowerBound`** — `llvm::lower_bound` as libstdc++ runs it (a binary search), used by `split`.
* **`BinaryRegion`** and **`RegionDescriptor`** — the two repository types whose headers are not
  among the sources, modelled from the spec. -/

namespace McadBroker

/-! ## (1) Fixed-width integers

`BeginIdx` and `EndIdx` are `uint16_t`, the broker's counters and access sizes `uint32_t` and its
addresses `uint64_t`; it converts sizes and sums between them. These lemmas move their arithmetic
and comparisons to `Nat`, where `omega` decides them. -/

@[simp] theorem uint16_toNat_ofNat (n : Nat) : (UInt16.ofNat n).toNat = n % 65536 :=
  BitVec.toNat_ofNat n 16

theorem uint16_toNat_lt (a : UInt16) : a.toNat < 65536 := a.toBitVec.isLt

theorem uint16_toNat_ofNat_of_lt {n : Nat} (h : n < 65536) : (UInt16.ofNat n).toNat = n := by
  simp [Nat.mod_eq_of_lt h]

/-- A point below a `uint16_t` index does not wrap. -/
theorem uint16_toNat_ofNat_of_lt_toNat {n : Nat} (e : UInt16) (h : n < e.toNat) :
    (UInt16.ofNat n).toNat = n :=
  uint16_toNat_ofNat_of_lt (Nat.lt_trans h (uint16_toNat_lt e))

theorem uint16_le_iff (a b : UInt16) : a ≤ b ↔ a.toNat ≤ b.toNat := Iff.rfl

theorem uint16_lt_iff (a b : UInt16) : a < b ↔ a.toNat < b.toNat := Iff.rfl

theorem uint16_le_of_lt {a b : UInt16} (h : a < b) : a ≤ b :=
  (uint16_le_iff a b).mpr (Nat.le_of_lt ((uint16_lt_iff a b).mp h))

theorem uint16_eq_iff (a b : UInt16) : a = b ↔ a.toNat = b.toNat :=
  ⟨congrArg UInt16.toNat, UInt16.toNat.inj⟩

@[simp] theorem uint8_toNat_ofNat (n : Nat) : (UInt8.ofNat n).toNat = n % 256 :=
  BitVec.toNat_ofNat n 8

@[simp] theorem uint32_toNat_ofNat (n : Nat) : (UInt32.ofNat n).toNat = n % 4294967296 :=
  BitVec.toNat_ofNat n 32

/-- `x -= n` in `uint32_t` for `n` at most `x`, in `Nat`. -/
theorem uint32_toNat_sub_ofNat {a : UInt32} {n : Nat} (h : n ≤ a.toNat) :
    (a - UInt32.ofNat n).toNat = a.toNat - n := by
  have ha : a.toNat < 4294967296 := a.toBitVec.isLt
  have hn : (UInt32.ofNat n).toNat = n := by rw [uint32_toNat_ofNat]; omega
  rw [UInt32.toNat_sub_of_le _ _ (by show (UInt32.ofNat n).toNat ≤ a.toNat; omega), hn]

/-- `x + y` in `uint32_t`, in `Nat`. -/
theorem uint32_toNat_add (a b : UInt32) : (a + b).toNat = (a.toNat + b.toNat) % 4294967296 := by
  show (a.toBitVec + b.toBitVec).toNat = _
  rw [BitVec.toNat_add]; rfl

/-- `x + 1` in `uint32_t`, in `Nat`. -/
theorem uint32_toNat_add_one (a : UInt32) : (a + 1).toNat = (a.toNat + 1) % 4294967296 := by
  show (a.toBitVec + 1#32).toNat = _
  rw [BitVec.toNat_add]; rfl

theorem uint32_toNat_lt_of_ne_max {a : UInt32} (h : a ≠ 0xFFFFFFFF) : a.toNat < 4294967295 := by
  have hlt := a.toBitVec.isLt
  have hne : a.toNat ≠ 4294967295 := fun h' => h (UInt32.toNat.inj h')
  change a.toBitVec.toNat < _
  change a.toBitVec.toNat ≠ _ at hne
  omega

/-- `std::min` and `std::max` over `uint64_t` compare as `Nat` does. -/
theorem uint64_toNat_min (a b : UInt64) : (min a b).toNat = min a.toNat b.toNat := by
  show (if a ≤ b then a else b).toNat = _
  split_ifs with h
  · exact (Nat.min_eq_left h).symm
  · exact (Nat.min_eq_right (Nat.le_of_lt (Nat.lt_of_not_le h))).symm

theorem uint64_toNat_max (a b : UInt64) : (max a b).toNat = max a.toNat b.toNat := by
  show (if a ≤ b then b else a).toNat = _
  split_ifs with h
  · exact (Nat.max_eq_right h).symm
  · exact (Nat.max_eq_left (Nat.le_of_lt (Nat.lt_of_not_le h))).symm

/-- `x + y` in `uint64_t`, in `Nat`. -/
theorem uint64_toNat_add (a b : UInt64) :
    (a + b).toNat = (a.toNat + b.toNat) % 18446744073709551616 := by
  show (a.toBitVec + b.toBitVec).toNat = _
  rw [BitVec.toNat_add]; rfl

/-- `x - y` in `uint64_t`, in `Nat`. -/
theorem uint64_toNat_sub (a b : UInt64) :
    (a - b).toNat = (18446744073709551616 - b.toNat + a.toNat) % 18446744073709551616 := by
  show (a.toBitVec - b.toBitVec).toNat = _
  rw [BitVec.toNat_sub]; rfl

/-- `unsigned` widened to `uint64_t` and `uint64_t` cut to `unsigned`. -/
theorem uint32_toNat_toUInt64 (a : UInt32) : a.toUInt64.toNat = a.toNat := rfl

theorem uint64_toNat_toUInt32 (a : UInt64) : a.toUInt32.toNat = a.toNat % 4294967296 :=
  uint32_toNat_ofNat a.toNat

/-! ## (2) Memory accesses -/

/-- `mca::MDMemoryAccess`: one memory access of an instruction, as the simulator's load/store
unit reads it. -/
structure MDMemoryAccess where
  /-- Whether the access writes memory. -/
  isStore : Bool
  /-- The accessed virtual address. -/
  addr : UInt64
  /-- The access size in bytes (`unsigned`). -/
  size : UInt32
  deriving DecidableEq, Repr

/-- `MemoryAccessEntry`: an instruction index in the block and the access made there. -/
abbrev MemoryAccessEntry := Nat × MDMemoryAccess

/-- `MemoryAccessChain`: the entries of one slice; the source keeps them sorted by index. -/
abbrev MemoryAccessChain := List MemoryAccessEntry

/-! ## (3) Regions -/

/-- Modelled from the spec: `qemu_broker::BinaryRegion` (`BinaryRegions.h` is not among the
sources). A named region of the load-relative address space; the broker reads its description
and its closing address `EndAddr`, the address of the region's last instruction. -/
structure BinaryRegion where
  /-- `Description`, reported with the end of the region. -/
  description : String
  /-- The load-relative start address that `lookup` matches. -/
  startAddr : UInt64
  /-- `EndAddr`: the load-relative address of the instruction that closes the region. -/
  endAddr : UInt64
  deriving DecidableEq, Repr

/-- Modelled from the spec: `BinaryRegions::lookup`, the region whose start address is the given
load-relative address; on overlapping starts the first in manifest order wins. -/
def BinaryRegions.lookup (regions : List BinaryRegion) (addr : UInt64) : Option BinaryRegion :=
  regions.find? (·.startAddr = addr)

/-- Modelled from the spec: `Broker::RegionDescriptor` (`Brokers/Broker.h` is not among the
sources): whether a fetch ended a region (or the stream), and the region's description. -/
structure RegionDescriptor where
  /-- The first constructor argument of `RegionDescriptor`. -/
  isEnd : Bool
  /-- The description, empty unless a region ended. -/
  description : String
  deriving DecidableEq, Repr

/-! ## (4) Translation blocks -/

/-- The address of a heap `MCInst`. The model allocates them from a counter, so two decoded
instructions never share an address. -/
abbrev MCInstPtr := Nat

/-- `RawInstTy`: the bytes of one emulator-visible instruction. -/
abbrev RawInstTy := List UInt8

/-- The number of raw bytes of a block's instructions. -/
def rawSize : List RawInstTy → Nat
  | [] => 0
  | rawInst :: rest => rawInst.length + rawSize rest

/-- **`TranslationBlock`.** `MCInsts` owns the decoded instructions (`unique_ptr<MCInst>`), here
their addresses; `SkewIndicies` is the `DenseMap` from raw index to decoded index, as an
association list; `VAddrOffsets` holds `uint8_t` offsets. -/
structure TranslationBlock where
  /-- `RawInsts`. -/
  rawInsts : List RawInstTy
  /-- `MCInsts`, the decoded instructions in order. -/
  mcInsts : List MCInstPtr
  /-- `SkewIndicies`: raw index ↦ index in `MCInsts`, present only after a skew. -/
  skewIndicies : List (Nat × Nat)
  /-- `VAddr`, the start address of the block. -/
  vAddr : UInt64
  /-- `VAddrOffsets`, one per decoded instruction. -/
  vAddrOffsets : List UInt8
  deriving DecidableEq, Repr

/-- `TranslationBlock(Size)` filled by `addTB`: raw bytes only, nothing decoded, `VAddr = 0`. -/
def TranslationBlock.ofRaw (raw : List RawInstTy) : TranslationBlock := ⟨raw, [], [], 0, []⟩

/-- `operator bool`: a block is translated once it holds a decoded instruction. -/
def TranslationBlock.isTranslated (tb : TranslationBlock) : Bool := !tb.mcInsts.isEmpty

/-- The block in slot `i` of `TBs`, if the slot exists and holds one (`i < TBs.size() && TBs[i]`). -/
def registeredTB (tbs : List (Option TranslationBlock)) (i : Nat) : Option TranslationBlock :=
  (tbs.get? i).join

/-- Storing a block in an existing slot registers it there and nowhere else. -/
theorem registeredTB_set {tbs : List (Option TranslationBlock)} {i : Nat} (tb : TranslationBlock)
    (hi : i < tbs.length) (j : Nat) :
    registeredTB (tbs.set i (some tb)) j = if i = j then some tb else registeredTB tbs j := by
  simp only [registeredTB, List.get?_eq_getElem?, List.getElem?_set, hi, if_true]
  split_ifs <;> rfl

theorem length_of_registeredTB {tbs : List (Option TranslationBlock)} {i : Nat}
    {tb : TranslationBlock} (h : registeredTB tbs i = some tb) : i < tbs.length := by
  by_contra hge
  simp [registeredTB, List.get?_eq_getElem?, List.getElem?_eq_none (Nat.le_of_not_lt hge)] at h

end McadBroker
