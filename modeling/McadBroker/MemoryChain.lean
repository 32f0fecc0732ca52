import McadBroker.Handlers
import Mathlib.Data.List.SplitBy

/-! # The memory-access chain of an execution, run by run

`tbExec` builds a slice's chain by pushing each record of the `ExecTB` message at its
skew-translated index, merging it into the chain's last entry when that entry has the same index.
This file describes the chain by the records' maximal runs of one translated index:

* **`chainRuns`** — the runs, by `List.splitBy`; **`runEntry`** — the entry a run merges into.
* **`buildMemAccesses_eq_runs`** — the chain is one entry per run, in order: the fold over the
  records follows `splitBy`'s loop, the chain's back being the run in progress.
* For a block with an ordered skew table and records in raw order, the chain is strictly sorted
  and each entry stands at the translated index of every record of its run.
* **`IsHull`** — the access a run should merge into, read as integers. Each chain entry is its
  run's hull when no record's end passes `2^64` and each run's range fits in `unsigned`;
  `mergeAccess` keeps the size in `unsigned`, so two accesses of one instruction more than 4 GiB
  apart do not get their hull. -/

namespace McadBroker

/-! ## (1) Runs of records -/

/-- The records of an `ExecTB` message in maximal runs of consecutive records with the same
translated index. -/
def chainRuns (tb : TranslationBlock) (fbMAs : List MemoryAccess) : List (List MemoryAccess) :=
  fbMAs.splitBy fun a b => skewIndex tb a.index.toNat == skewIndex tb b.index.toNat

/-- The chain entry of a run of records: at the translated index of its first record, that
record's access with every later one merged in by `mergeAccess`, in order. -/
def runEntry (tb : TranslationBlock) : List MemoryAccess → Option MemoryAccessEntry
  | [] => none
  | r :: rest => some (skewIndex tb r.index.toNat,
      rest.foldl (fun ma r' => mergeAccess ma r'.isStore r'.vAddr r'.size) ⟨r.isStore, r.vAddr, r.size⟩)

/-- A record with the run's translated index merges into the run's entry. -/
theorem runEntry_append (tb : TranslationBlock) {run : List MemoryAccess} {r : MemoryAccess}
    {rest : List MemoryAccess} (hrun : run = r :: rest) (a : MemoryAccess) :
    runEntry tb (run ++ [a]) = (runEntry tb run).map fun e =>
      (e.1, mergeAccess e.2 a.isStore a.vAddr a.size) := by
  subst hrun
  simp [runEntry, List.foldl_append]

/-- **`tbExec`'s fold follows `splitBy`'s loop**: with the run being assembled at the chain's back,
pushing the remaining records builds, reversed, one entry per run. -/
theorem foldl_pushAccess_loop (tb : TranslationBlock) :
    ∀ (l : List MemoryAccess) (ag : MemoryAccess) (g : List MemoryAccess)
      (gs : List (List MemoryAccess)),
      (∀ x ∈ g, skewIndex tb x.index.toNat = skewIndex tb ag.index.toNat) →
      (l.foldl (fun back fbMA => pushAccess back (skewIndex tb fbMA.index.toNat) fbMA)
          (((ag :: g).reverse :: gs).filterMap (runEntry tb))).reverse =
        (List.splitBy.loop (fun a b => skewIndex tb a.index.toNat == skewIndex tb b.index.toNat)
          l ag g gs).filterMap (runEntry tb)
  | [], ag, g, gs, _ => by rw [List.foldl_nil, List.splitBy.loop, List.filterMap_reverse]
  | a :: l, ag, g, gs, hg => by
    obtain ⟨r, rest, hr⟩ : ∃ r rest, (ag :: g).reverse = r :: rest :=
      List.exists_cons_of_ne_nil (by simp)
    have hr_key : skewIndex tb r.index.toNat = skewIndex tb ag.index.toNat := by
      have : r ∈ ag :: g := List.mem_reverse.mp (hr ▸ List.mem_cons_self r rest)
      rcases List.mem_cons.mp this with rfl | hmem
      · rfl
      · exact hg r hmem
    rw [List.foldl_cons, List.splitBy.loop]
    by_cases h : skewIndex tb ag.index.toNat = skewIndex tb a.index.toNat
    · rw [show (skewIndex tb ag.index.toNat == skewIndex tb a.index.toNat) = true by simp [h]]
      rw [← foldl_pushAccess_loop tb l a (ag :: g) gs fun x hx => ?_]
      · rw [List.reverse_cons a (ag :: g), hr, List.filterMap_cons, List.filterMap_cons,
          runEntry_append tb rfl]
        simp only [runEntry, pushAccess, hr_key, h, if_true, Option.map_some']
      · rcases List.mem_cons.mp hx with rfl | hx
        · exact h
        · exact (hg x hx).trans h
    · rw [show (skewIndex tb ag.index.toNat == skewIndex tb a.index.toNat) = false by simp [h]]
      rw [← foldl_pushAccess_loop tb l a [] ((ag :: g).reverse :: gs) (by simp)]
      rw [hr, List.filterMap_cons]
      simp only [runEntry, pushAccess, hr_key, h, if_false, List.reverse_singleton, List.foldl_nil,
        List.filterMap_cons]

/-- **The chain `tbExec` builds is one entry per run** of records at one translated index, each
merged into the entry of the run's first record. -/
theorem buildMemAccesses_eq_runs (tb : TranslationBlock) (fbMAs : List MemoryAccess) :
    (buildMemAccesses tb fbMAs).getD [] = (chainRuns tb fbMAs).filterMap (runEntry tb) := by
  cases fbMAs with
  | nil => rfl
  | cons a l =>
    rw [buildMemAccesses, if_neg (by simp), Option.getD_some, chainRuns, List.splitBy,
      ← foldl_pushAccess_loop tb l a [] [] (by simp)]
    rfl

/-- The records of a run share the translated index of its first record. -/
theorem chain'_beq_key {α : Type} (key : α → Nat) :
    ∀ (r : α) (rest : List α), (r :: rest).Chain' (fun a b => (key a == key b) = true) →
      ∀ x ∈ rest, key x = key r
  | _, [], _ => by simp
  | r, y :: rest, h => by
    rw [List.chain'_cons] at h
    have hy : key y = key r := (beq_iff_eq.mp h.1).symm
    intro x hx
    rcases List.mem_cons.mp hx with rfl | hx
    · exact hy
    · exact (chain'_beq_key key y rest h.2 x hx).trans hy

/-- A property every run's entry has holds entry by entry along the chain. -/
theorem forall₂_runEntry (tb : TranslationBlock) {P : MemoryAccessEntry → List MemoryAccess → Prop} :
    ∀ runs : List (List MemoryAccess), (∀ run ∈ runs, run ≠ []) →
      (∀ run ∈ runs, ∀ e, runEntry tb run = some e → P e run) →
      List.Forall₂ P (runs.filterMap (runEntry tb)) runs
  | [], _, _ => List.Forall₂.nil
  | run :: runs, hne, hP => by
    obtain ⟨r, rest, rfl⟩ := List.exists_cons_of_ne_nil (hne _ (List.mem_cons_self _ _))
    simp only [List.filterMap_cons, runEntry]
    exact List.Forall₂.cons (hP _ (List.mem_cons_self _ _) _ rfl)
      (forall₂_runEntry tb runs (fun run h => hne run (List.mem_cons_of_mem _ h))
        fun run h => hP run (List.mem_cons_of_mem _ h))

/-- Every chain entry stands at the translated index of each record of its run. -/
theorem runs_forall₂ (tb : TranslationBlock) (fbMAs : List MemoryAccess) :
    List.Forall₂ (fun e run => run ≠ [] ∧ ∀ r ∈ run, skewIndex tb r.index.toNat = e.1)
      ((chainRuns tb fbMAs).filterMap (runEntry tb)) (chainRuns tb fbMAs) := by
  refine forall₂_runEntry tb _ (fun _ => List.ne_nil_of_mem_splitBy _) fun run hrun e he => ?_
  obtain ⟨r, rest, rfl⟩ := List.exists_cons_of_ne_nil (List.ne_nil_of_mem_splitBy _ hrun)
  simp only [runEntry, Option.some.injEq] at he
  subst he
  refine ⟨List.cons_ne_nil r rest, fun x hx => ?_⟩
  rcases List.mem_cons.mp hx with rfl | hx
  · rfl
  · exact chain'_beq_key (fun a : MemoryAccess => skewIndex tb a.index.toNat) r rest
      (List.chain'_of_mem_splitBy hrun) x hx

/-! ## (2) The chain is sorted by translated index -/

/-- **The chain of an execution is strictly sorted, one entry per run of records at its
translated index.** For a block whose skew table is ordered (every registered block), decoded on
this execution if it was not yet, and records with non-decreasing raw indices below the block's
raw count: the chain's indices strictly increase, and the entry built from a run stands at the
translated index of every record of that run. -/
theorem chain_strictly_sorted_at_translations (t : Target) {tb : TranslationBlock} (pc : UInt64)
    (nextMCInst : MCInstPtr) (htb : SkewOrdered tb) {fbMAs : List MemoryAccess}
    (hsorted : fbMAs.Pairwise (fun a b => a.index.toNat ≤ b.index.toNat))
    (hlt : ∀ r ∈ fbMAs, r.index.toNat < tb.rawInsts.length) :
    ((buildMemAccesses (translateForExec t tb pc nextMCInst).1 fbMAs).getD []).Pairwise
        (fun a b => a.1 < b.1) ∧
      List.Forall₂ (fun e run => run ≠ [] ∧
          ∀ r ∈ run, skewIndex (translateForExec t tb pc nextMCInst).1 r.index.toNat = e.1)
        ((buildMemAccesses (translateForExec t tb pc nextMCInst).1 fbMAs).getD [])
        (chainRuns (translateForExec t tb pc nextMCInst).1 fbMAs) := by
  have hraw := (translateForExec_length_le t tb pc nextMCInst).2
  refine ⟨buildMemAccesses_sorted (translateForExec_skewOrdered t pc nextMCInst htb).1 hsorted
    fun r hr => hraw ▸ hlt r hr, ?_⟩
  rw [buildMemAccesses_eq_runs]
  exact runs_forall₂ _ fbMAs

theorem chain_strictly_sorted_two_runs :
    ((buildMemAccesses (translateForExec byteTarget (TranslationBlock.ofRaw [[0x90, 0x90], [0x90]])
        0x1000 0).1 [⟨0, false, 0x20, 4⟩, ⟨0, true, 0x24, 4⟩, ⟨1, false, 0x40, 8⟩]).getD []).Pairwise
        (fun a b => a.1 < b.1) ∧
      List.Forall₂ (fun e run => run ≠ [] ∧ ∀ r ∈ run, skewIndex (translateForExec byteTarget
          (TranslationBlock.ofRaw [[0x90, 0x90], [0x90]]) 0x1000 0).1 r.index.toNat = e.1)
        ((buildMemAccesses (translateForExec byteTarget (TranslationBlock.ofRaw [[0x90, 0x90], [0x90]])
          0x1000 0).1 [⟨0, false, 0x20, 4⟩, ⟨0, true, 0x24, 4⟩, ⟨1, false, 0x40, 8⟩]).getD [])
        (chainRuns (translateForExec byteTarget (TranslationBlock.ofRaw [[0x90, 0x90], [0x90]])
          0x1000 0).1 [⟨0, false, 0x20, 4⟩, ⟨0, true, 0x24, 4⟩, ⟨1, false, 0x40, 8⟩]) :=
  chain_strictly_sorted_at_translations byteTarget 0x1000 0 (skewOrdered_ofRaw _) (by decide)
    (by decide)

example : (buildMemAccesses (translateForExec byteTarget (TranslationBlock.ofRaw [[0x90, 0x90], [0x90]])
    0x1000 0).1 [⟨0, false, 0x20, 4⟩, ⟨0, true, 0x24, 4⟩, ⟨1, false, 0x40, 8⟩]) =
      some [(0, ⟨true, 0x20, 8⟩), (2, ⟨false, 0x40, 8⟩)] := by decide

/-! ## (3) The merged range

`mergeAccess` computes the hull of the run in `uint64_t` and keeps its size in `unsigned`. Read as
integers, the entry of a run is the run's hull when neither conversion loses anything; `IsHull`
says what the hull is, independently of the code. -/

/-- **The hull of a run of records**: what the run should merge into, a store if any record is one,
from the lowest address to the highest end, as integers. -/
structure IsHull (run : List MemoryAccess) (ma : MDMemoryAccess) : Prop where
  isStore_eq : ma.isStore = run.any (·.isStore)
  addr_le : ∀ x ∈ run, ma.addr.toNat ≤ x.vAddr.toNat
  addr_mem : ∃ x ∈ run, ma.addr.toNat = x.vAddr.toNat
  end_le : ∀ x ∈ run, x.vAddr.toNat + x.size.toNat ≤ ma.addr.toNat + ma.size.toNat
  end_mem : ∃ x ∈ run, ma.addr.toNat + ma.size.toNat = x.vAddr.toNat + x.size.toNat

theorem IsHull.single (r : MemoryAccess) : IsHull [r] ⟨r.isStore, r.vAddr, r.size⟩ :=
  ⟨by simp, by simp, by simp, by simp, by simp⟩

/-- **`mergeAccess` read as integers**: without a wrap of either end in `uint64_t` or of the size
in `unsigned`, the merged access starts at the lower address and ends at the higher end. -/
theorem mergeAccess_toNat (ma : MDMemoryAccess) (isStore : Bool) (addr : UInt64) (size : UInt32)
    (h₁ : ma.addr.toNat + ma.size.toNat < 18446744073709551616)
    (h₂ : addr.toNat + size.toNat < 18446744073709551616)
    (hfit : max (ma.addr.toNat + ma.size.toNat) (addr.toNat + size.toNat) -
      min ma.addr.toNat addr.toNat < 4294967296) :
    (mergeAccess ma isStore addr size).addr.toNat = min ma.addr.toNat addr.toNat ∧
    (mergeAccess ma isStore addr size).addr.toNat + (mergeAccess ma isStore addr size).size.toNat =
      max (ma.addr.toNat + ma.size.toNat) (addr.toNat + size.toNat) := by
  have hmin := uint64_toNat_min ma.addr addr
  have hmax : (max (ma.addr + ma.size.toUInt64) (addr + size.toUInt64)).toNat =
      max (ma.addr.toNat + ma.size.toNat) (addr.toNat + size.toNat) := by
    rw [uint64_toNat_max, uint64_toNat_add, uint64_toNat_add, uint32_toNat_toUInt64,
      uint32_toNat_toUInt64, Nat.mod_eq_of_lt h₁, Nat.mod_eq_of_lt h₂]
  have hle : min ma.addr addr ≤ max (ma.addr + ma.size.toUInt64) (addr + size.toUInt64) := by
    show (min ma.addr addr).toNat ≤ (max (ma.addr + ma.size.toUInt64) (addr + size.toUInt64)).toNat
    rw [hmin, hmax]; omega
  have hsize : (mergeAccess ma isStore addr size).size.toNat =
      max (ma.addr.toNat + ma.size.toNat) (addr.toNat + size.toNat) - min ma.addr.toNat addr.toNat := by
    show (max (ma.addr + ma.size.toUInt64) (addr + size.toUInt64) - min ma.addr addr).toUInt32.toNat = _
    rw [uint64_toNat_toUInt32, UInt64.toNat_sub_of_le _ _ hle, hmin, hmax, Nat.mod_eq_of_lt hfit]
  have haddr : (mergeAccess ma isStore addr size).addr.toNat = min ma.addr.toNat addr.toNat := hmin
  exact ⟨haddr, by rw [hsize, haddr]; omega⟩

/-- **One merge extends the hull** to a record whose end does not wrap, while the merged range
fits in `unsigned`. -/
theorem IsHull.merge {run : List MemoryAccess} {ma : MDMemoryAccess} (h : IsHull run ma)
    (hend : ∀ x ∈ run ++ [r], x.vAddr.toNat + x.size.toNat < 18446744073709551616)
    (hfit : ∀ x ∈ run ++ [r], ∀ y ∈ run ++ [r],
      y.vAddr.toNat + y.size.toNat - x.vAddr.toNat < 4294967296) :
    IsHull (run ++ [r]) (mergeAccess ma r.isStore r.vAddr r.size) := by
  obtain ⟨xa, hxa, hxa'⟩ := h.addr_mem
  obtain ⟨xe, hxe, hxe'⟩ := h.end_mem
  have hr : r ∈ run ++ [r] := List.mem_append_right _ (List.mem_singleton_self r)
  have hlift : ∀ {x}, x ∈ run → x ∈ run ++ [r] := fun hx => List.mem_append_left _ hx
  have hfitm : max (ma.addr.toNat + ma.size.toNat) (r.vAddr.toNat + r.size.toNat) -
      min ma.addr.toNat r.vAddr.toNat < 4294967296 := by
    have := hfit xa (hlift hxa) xe (hlift hxe); have := hfit r hr r hr
    have := hfit xa (hlift hxa) r hr; have := hfit r hr xe (hlift hxe); omega
  obtain ⟨haddr, hend'⟩ := mergeAccess_toNat ma r.isStore r.vAddr r.size
    (hxe' ▸ hend xe (hlift hxe)) (hend r hr) hfitm
  refine ⟨by simp [mergeAccess, h.isStore_eq, List.any_append], fun x hx => ?_, ?_, fun x hx => ?_, ?_⟩
  · rw [haddr]
    rcases List.mem_append.mp hx with hx | hx
    · exact (Nat.min_le_left _ _).trans (h.addr_le x hx)
    · rw [List.mem_singleton.mp hx]; exact Nat.min_le_right _ _
  · rw [haddr]
    rcases Nat.le_total ma.addr.toNat r.vAddr.toNat with hle | hle
    · exact ⟨xa, hlift hxa, by rw [Nat.min_eq_left hle, hxa']⟩
    · exact ⟨r, hr, Nat.min_eq_right hle⟩
  · rw [hend']
    rcases List.mem_append.mp hx with hx | hx
    · exact (h.end_le x hx).trans (Nat.le_max_left _ _)
    · rw [List.mem_singleton.mp hx]; exact Nat.le_max_right _ _
  · rw [hend']
    rcases Nat.le_total (ma.addr.toNat + ma.size.toNat) (r.vAddr.toNat + r.size.toNat) with hle | hle
    · exact ⟨r, hr, Nat.max_eq_right hle⟩
    · exact ⟨xe, hlift hxe, by rw [Nat.max_eq_left hle, hxe']⟩

/-- Merging the rest of a run into the hull of its first records gives the hull of the run. -/
theorem foldl_mergeAccess_isHull :
    ∀ (rest run : List MemoryAccess) (ma : MDMemoryAccess), IsHull run ma →
      (∀ x ∈ run ++ rest, x.vAddr.toNat + x.size.toNat < 18446744073709551616) →
      (∀ x ∈ run ++ rest, ∀ y ∈ run ++ rest,
        y.vAddr.toNat + y.size.toNat - x.vAddr.toNat < 4294967296) →
      IsHull (run ++ rest) (rest.foldl (fun ma r => mergeAccess ma r.isStore r.vAddr r.size) ma)
  | [], run, ma, h, _, _ => by simpa using h
  | r :: rest, run, ma, h, hend, hfit => by
    have hsub : ∀ {x}, x ∈ run ++ [r] → x ∈ run ++ r :: rest := fun hx => by
      rcases List.mem_append.mp hx with hx | hx
      · exact List.mem_append_left _ hx
      · exact List.mem_append_right _ (List.mem_cons.mpr (.inl (List.mem_singleton.mp hx)))
    rw [List.foldl_cons, show run ++ r :: rest = run ++ [r] ++ rest by simp] at *
    exact foldl_mergeAccess_isHull rest (run ++ [r]) _
      (h.merge (fun x hx => hend x (by simpa using hsub hx))
        fun x hx y hy => hfit x (by simpa using hsub hx) y (by simpa using hsub hy)) hend hfit

/-- The entry of a run is its hull, when no end wraps and the run's range fits in `unsigned`. -/
theorem runEntry_isHull {tb : TranslationBlock} {run : List MemoryAccess} {e : MemoryAccessEntry}
    (h : runEntry tb run = some e)
    (hend : ∀ x ∈ run, x.vAddr.toNat + x.size.toNat < 18446744073709551616)
    (hfit : ∀ x ∈ run, ∀ y ∈ run, y.vAddr.toNat + y.size.toNat - x.vAddr.toNat < 4294967296) :
    IsHull run e.2 := by
  cases run with
  | nil => cases h
  | cons r rest =>
    simp only [runEntry, Option.some.injEq] at h
    subst h
    exact foldl_mergeAccess_isHull rest [r] _ (IsHull.single r) hend hfit

/-- **Each chain entry is the hull of its run** when the merge's two integers do not wrap: no
record's end passes `2^64`, and each run's range, from its lowest address to its highest end, fits
in the `unsigned` size. The entry is then a store if any record of the run is one, starts at the
run's lowest address and ends at its highest end. -/
theorem chain_entries_are_hulls (tb : TranslationBlock) {fbMAs : List MemoryAccess}
    (hend : ∀ x ∈ fbMAs, x.vAddr.toNat + x.size.toNat < 18446744073709551616)
    (hfit : ∀ run ∈ chainRuns tb fbMAs, ∀ x ∈ run, ∀ y ∈ run,
      y.vAddr.toNat + y.size.toNat - x.vAddr.toNat < 4294967296) :
    List.Forall₂ (fun e run => IsHull run e.2) ((buildMemAccesses tb fbMAs).getD [])
      (chainRuns tb fbMAs) := by
  rw [buildMemAccesses_eq_runs]
  refine forall₂_runEntry tb _ (fun _ => List.ne_nil_of_mem_splitBy _) fun run hrun e he =>
    runEntry_isHull he (fun x hx => hend x ?_) (hfit run hrun)
  have := List.mem_flatten.mpr ⟨run, hrun, hx⟩
  rwa [chainRuns, List.flatten_splitBy] at this

theorem chain_entries_are_hulls_two_runs :
    List.Forall₂ (fun e run => IsHull run e.2)
      ((buildMemAccesses (translateForExec byteTarget (TranslationBlock.ofRaw [[0x90, 0x90], [0x90]])
        0x1000 0).1 [⟨0, false, 0x20, 4⟩, ⟨0, true, 0x24, 4⟩, ⟨1, false, 0x40, 8⟩]).getD [])
      (chainRuns (translateForExec byteTarget (TranslationBlock.ofRaw [[0x90, 0x90], [0x90]])
        0x1000 0).1 [⟨0, false, 0x20, 4⟩, ⟨0, true, 0x24, 4⟩, ⟨1, false, 0x40, 8⟩]) :=
  chain_entries_are_hulls _ (by decide) (by decide)

/-- **Two accesses of one instruction 8 GiB apart merge into a wrapped size.** A string move
between `0x1000` and `0x200001000` records two 8-byte accesses at raw index 0; the merged entry
keeps `Addr = 0x1000`, but `NewEndAddr - NewAddr = 0x200000008` is cut to the `unsigned` `8`, so
the entry covers `[0x1000, 0x1008)` and not the hull `[0x1000, 0x200001008)`. -/
theorem merge_far_apart_wraps_size :
    buildMemAccesses (translateForExec byteTarget (TranslationBlock.ofRaw [[0x90]]) 0x1000 0).1
        [⟨0, false, 0x1000, 8⟩, ⟨0, true, 0x200001000, 8⟩] =
      some [(0, ⟨true, 0x1000, 8⟩)] := by
  decide

end McadBroker
