import McadBroker.Origins

/-! # Memory accesses and the instructions they belong to

`tbExec` gives each queued slice the memory-access chain of its execution, indexed by decoded
position. `TBSlice::split` hands the entries below a split point to the front piece. The delivery
loop publishes the chain's front entry when its index is the position it reads, filing it in
`MemAccessCat` under the sequence number of that delivery and recording that number in `IndexMap`
under the instruction's pointer. This file follows each chain from the `ExecTB` that built it to the
delivery block that publishes it.

* **`DeliveryRow`** and **`deliverSlicesRows`** — the delivery block one iteration at a time: the
  slice and position it served, what it wrote, its sequence number, and the access it published.
  `deliverSlices_eq_rows` shows the block is exactly these rows.
* **`Custody`** — the chain a slice was queued with, carried as ghost state (`custodyGhost`).
  `ChainFrom` relates a pending slice's chain to it; every step keeps it (`tstep_metadataHold`).
* **`memory_access_reaches_its_instruction`** — while a slice's custody is intact, each entry of
  its chain is published by the row that delivers its instruction, under that row's sequence
  number; `IndexMap` points there unless a later row of the call publishes for the same instruction.
* **`same_instruction_twice_keeps_last_sequence_number`** — one block executed twice and delivered
  in one call: `IndexMap` files the instruction under its second delivery. -/

namespace McadBroker

/-! ## (1) The delivery block, row by row -/

/-- One iteration of the delivery loop: the selected slice it served (its place in
`SelectedSlices`), the position `i` it read, the entry it wrote to `MCIS`, the value
`TotalNumTraces` took, and the access it published, if the chain's front entry was for `i`. -/
structure DeliveryRow where
  /-- The place of the slice in `SelectedSlices`. -/
  slice : Nat
  /-- The position `i` in the block's `MCInsts`. -/
  pos : Nat
  /-- `MCInsts[i]`, written to `MCIS`. -/
  inst : Option MCInstPtr
  /-- `TotalNumTraces` after `++TotalNumTraces`: the sequence number of this delivery. -/
  seq : UInt32
  /-- The access `setMemoryAccessMD` was called with. -/
  access : Option MDMemoryAccess
  deriving DecidableEq, Repr

/-- **The rows of the delivery loop over one slice**, computed as `deliverLoop` runs from position
`i` with `Size` left, the chain `mas`, and `TotalNumTraces = tnt`. -/
def deliverLoopRows (k : Nat) (insts : List MCInstPtr) (endI : Nat) :
    Nat → Nat → MemoryAccessChain → UInt32 → List DeliveryRow
  | 0, _, _, _ => []
  | size + 1, i, mas, tnt =>
    if i = endI then []
    else
      match mas with
      | (j, mda) :: rest =>
        if j = i then
          ⟨k, i, insts.get? i, tnt + 1, some mda⟩ :: deliverLoopRows k insts endI size (i + 1) rest (tnt + 1)
        else ⟨k, i, insts.get? i, tnt + 1, none⟩ :: deliverLoopRows k insts endI size (i + 1) mas (tnt + 1)
      | [] => ⟨k, i, insts.get? i, tnt + 1, none⟩ :: deliverLoopRows k insts endI size (i + 1) [] (tnt + 1)

/-- The `setMemoryAccessMD` calls of a list of rows, in order. -/
def publishRows (mde : Option MDExchanger) (rows : List DeliveryRow) : Option MDExchanger :=
  rows.foldl (fun mde row =>
    match row.access with
    | some mda => setMemoryAccessMD mde row.inst row.seq mda
    | none => mde) mde

theorem publishRows_append (mde : Option MDExchanger) (xs ys : List DeliveryRow) :
    publishRows mde (xs ++ ys) = publishRows (publishRows mde xs) ys := List.foldl_append _ _ _ _

theorem uint32_add_ofNat (a : UInt32) (n m : Nat) :
    a + UInt32.ofNat n + UInt32.ofNat m = a + UInt32.ofNat (n + m) := by
  apply UInt32.toNat.inj
  simp only [uint32_toNat_add, uint32_toNat_ofNat]
  omega

theorem uint32_add_zero (a : UInt32) : a + 0 = a := by
  apply UInt32.toNat.inj
  have := a.toBitVec.isLt
  change (a.toBitVec.toNat + 0) % 4294967296 = a.toBitVec.toNat
  omega

theorem uint32_add_one_add_ofNat (a : UInt32) (n : Nat) :
    a + 1 + UInt32.ofNat n = a + UInt32.ofNat (n + 1) := by
  apply UInt32.toNat.inj
  simp only [uint32_toNat_add, uint32_toNat_ofNat, show (1 : UInt32).toNat = 1 from rfl]
  omega

/-- **The delivery loop is its rows**: it writes their entries, advances the counter once per row,
and makes their `setMemoryAccessMD` calls. -/
theorem deliverLoop_eq_rows (k : Nat) (insts : List MCInstPtr) (endI : Nat) :
    ∀ (size i : Nat) (mas : MemoryAccessChain) (d : Delivered),
      deliverLoop insts endI size i mas d =
        (size - (deliverLoopRows k insts endI size i mas d.totalNumTraces).length,
          ⟨d.out ++ (deliverLoopRows k insts endI size i mas d.totalNumTraces).map DeliveryRow.inst,
            d.totalNumTraces +
              UInt32.ofNat (deliverLoopRows k insts endI size i mas d.totalNumTraces).length,
            publishRows d.mde (deliverLoopRows k insts endI size i mas d.totalNumTraces)⟩)
  | 0, i, mas, d => by simp [deliverLoop, deliverLoopRows, publishRows, uint32_add_zero]
  | size + 1, i, mas, d => by
    by_cases hi : i = endI
    · simp [deliverLoop, deliverLoopRows, hi, publishRows, uint32_add_zero]
    · rcases mas with _ | ⟨⟨j, mda⟩, rest⟩
      · simp only [deliverLoop, deliverLoopRows, hi, if_false]
        rw [deliverLoop_eq_rows k insts endI size (i + 1) [] _]
        simp [publishRows, uint32_add_one_add_ofNat]
      · simp only [deliverLoop, deliverLoopRows, hi, if_false]
        split_ifs with hj
        · rw [deliverLoop_eq_rows k insts endI size (i + 1) rest _]
          simp [publishRows, uint32_add_one_add_ofNat, hj]
        · rw [deliverLoop_eq_rows k insts endI size (i + 1) _ _]
          simp [publishRows, uint32_add_one_add_ofNat]

/-- The rows of the delivery loop over selected slice `sl`, the `k`-th. -/
def sliceRows (tbs : List (Option TranslationBlock)) (k : Nat) (sl : TBSlice) (size : Nat)
    (tnt : UInt32) : List DeliveryRow :=
  deliverLoopRows k (sliceInsts tbs sl.index) (min (sliceInsts tbs sl.index).length sl.endIdx.toNat)
    size sl.beginIdx.toNat (sl.memoryAccesses.getD []) tnt

/-- **The rows of the delivery block**: each selected slice's loop, from the size and the counter
the previous one left. -/
def deliverSlicesRows (tbs : List (Option TranslationBlock)) :
    Nat → List TBSlice → Nat → UInt32 → List DeliveryRow
  | _, [], _, _ => []
  | k, sl :: rest, size, tnt =>
    sliceRows tbs k sl size tnt ++ deliverSlicesRows tbs (k + 1) rest
      (size - (sliceRows tbs k sl size tnt).length)
      (tnt + UInt32.ofNat (sliceRows tbs k sl size tnt).length)

/-- **The delivery block is its rows.** -/
theorem deliverSlices_eq_rows (tbs : List (Option TranslationBlock)) :
    ∀ (sls : List TBSlice) (k size : Nat) (d : Delivered),
      deliverSlices tbs sls size d =
        (size - (deliverSlicesRows tbs k sls size d.totalNumTraces).length,
          ⟨d.out ++ (deliverSlicesRows tbs k sls size d.totalNumTraces).map DeliveryRow.inst,
            d.totalNumTraces +
              UInt32.ofNat (deliverSlicesRows tbs k sls size d.totalNumTraces).length,
            publishRows d.mde (deliverSlicesRows tbs k sls size d.totalNumTraces)⟩)
  | [], k, size, d => by simp [deliverSlices, deliverSlicesRows, publishRows, uint32_add_zero]
  | sl :: rest, k, size, d => by
    simp only [deliverSlices, deliverSlicesRows]
    rw [deliverLoop_eq_rows k, deliverSlices_eq_rows tbs rest (k + 1)]
    simp only [sliceRows, List.length_append, List.map_append, List.append_assoc, Nat.sub_sub,
      uint32_add_ofNat, publishRows_append]

/-- The rows the delivery block of a system runs: none unless the consumer is between its two
blocks. -/
def deliveryRows (sys : System) : List DeliveryRow :=
  match sys.consumer with
  | .delivering totalSize selected =>
    deliverSlicesRows sys.broker.tbs 0 selected totalSize sys.broker.totalNumTraces
  | .idle => []

/-- **The delivery block of a system is its rows.** -/
theorem deliver_eq_rows {sys : System} {totalSize : Nat} {selected : List TBSlice}
    (hc : sys.consumer = .delivering totalSize selected) :
    deliverSlices sys.broker.tbs selected totalSize ⟨[], sys.broker.totalNumTraces, sys.mde⟩ =
      (totalSize - (deliveryRows sys).length,
        ⟨(deliveryRows sys).map DeliveryRow.inst,
          sys.broker.totalNumTraces + UInt32.ofNat (deliveryRows sys).length,
          publishRows sys.mde (deliveryRows sys)⟩) := by
  simp only [deliveryRows, hc, deliverSlices_eq_rows _ _ 0, List.nil_append]

/-! ## (2) What the rows say -/

section LoopRows

variable {k : Nat} {insts : List MCInstPtr} {endI : Nat}

@[simp] theorem deliverLoopRows_at_end {size : Nat} {mas : MemoryAccessChain} {tnt : UInt32} :
    deliverLoopRows k insts endI size endI mas tnt = [] := by
  cases size <;> simp [deliverLoopRows]

/-- **One iteration of the loop**: short of `End`, the row for `i`, then the loop from `i + 1`.
The row publishes the chain's front entry when that entry is for `i`, and the loop goes on with
the rest of the chain; otherwise it publishes nothing and the chain stays as it is. -/
theorem deliverLoopRows_succ {size i : Nat} (mas : MemoryAccessChain) (tnt : UInt32) (h : i ≠ endI) :
    ∃ acc mas', deliverLoopRows k insts endI (size + 1) i mas tnt =
        ⟨k, i, insts.get? i, tnt + 1, acc⟩ :: deliverLoopRows k insts endI size (i + 1) mas' (tnt + 1) ∧
      ((∃ a, acc = some a ∧ mas = (i, a) :: mas') ∨
        (acc = none ∧ mas' = mas ∧ ∀ a rest, mas ≠ (i, a) :: rest)) := by
  rcases mas with _ | ⟨⟨j, mda⟩, rest⟩ <;> simp only [deliverLoopRows, h, if_false]
  · exact ⟨none, [], rfl, .inr ⟨rfl, rfl, by simp⟩⟩
  · split_ifs with hj
    · subst hj
      exact ⟨some mda, rest, rfl, .inl ⟨mda, rfl, rfl⟩⟩
    · exact ⟨none, _, rfl, .inr ⟨rfl, rfl, fun _ _ he => hj (Prod.mk.inj (List.cons.inj he).1).1⟩⟩

/-- Row `j` of a slice's loop serves position `i + j` and takes sequence number `tnt + j + 1`. -/
theorem deliverLoopRows_get? : ∀ {size i : Nat} {mas : MemoryAccessChain} {tnt : UInt32} {j : Nat}
    {row : DeliveryRow}, (deliverLoopRows k insts endI size i mas tnt).get? j = some row →
    row.slice = k ∧ row.pos = i + j ∧ row.inst = insts.get? (i + j) ∧
      row.seq.toNat = (tnt.toNat + j + 1) % 4294967296
  | 0, _, _, _, _, _, h => by simp [deliverLoopRows] at h
  | size + 1, i, mas, tnt, j, row, h => by
    by_cases hie : i = endI
    · subst hie; simp at h
    obtain ⟨acc, mas', heq, -⟩ := @deliverLoopRows_succ k insts endI size i mas tnt hie
    rw [heq, List.get?_eq_getElem?] at h
    cases j with
    | zero =>
      simp only [List.getElem?_cons_zero, Option.some.injEq] at h
      subst h
      exact ⟨rfl, rfl, by simp, uint32_toNat_add_one tnt⟩
    | succ j =>
      rw [List.getElem?_cons_succ, ← List.get?_eq_getElem?] at h
      obtain ⟨h1, h2, h3, h4⟩ := deliverLoopRows_get? h
      rw [uint32_toNat_add_one] at h4
      exact ⟨h1, by omega, by rw [h3]; congr 1; omega, by rw [h4]; omega⟩

theorem mem_deliverLoopRows {size i : Nat} {mas : MemoryAccessChain} {tnt : UInt32}
    {row : DeliveryRow} (h : row ∈ deliverLoopRows k insts endI size i mas tnt) :
    row.slice = k ∧ i ≤ row.pos ∧ row.inst = insts.get? row.pos := by
  obtain ⟨j, hj⟩ := List.mem_iff_get?.mp h
  obtain ⟨h1, h2, h3, -⟩ := deliverLoopRows_get? hj
  exact ⟨h1, by omega, by rw [h3, h2]⟩

theorem deliverLoopRows_length_le : ∀ {size i : Nat} {mas : MemoryAccessChain} {tnt : UInt32},
    (deliverLoopRows k insts endI size i mas tnt).length ≤ size
  | 0, _, _, _ => by simp [deliverLoopRows]
  | size + 1, i, mas, tnt => by
    by_cases hie : i = endI
    · subst hie; simp
    obtain ⟨acc, mas', heq, -⟩ := @deliverLoopRows_succ k insts endI size i mas tnt hie
    rw [heq, List.length_cons]
    exact Nat.succ_le_succ deliverLoopRows_length_le

/-- A loop that starts at or below `End` reads only positions below it. -/
theorem deliverLoopRows_pos_lt : ∀ {size i : Nat} {mas : MemoryAccessChain} {tnt : UInt32}
    {row : DeliveryRow}, i ≤ endI → row ∈ deliverLoopRows k insts endI size i mas tnt → row.pos < endI
  | 0, _, _, _, _, _, h => by simp [deliverLoopRows] at h
  | size + 1, i, mas, tnt, row, hi, h => by
    by_cases hie : i = endI
    · subst hie; simp at h
    obtain ⟨acc, mas', heq, -⟩ := @deliverLoopRows_succ k insts endI size i mas tnt hie
    rw [heq, List.mem_cons] at h
    rcases h with rfl | h
    · show i < endI; omega
    · exact deliverLoopRows_pos_lt (by omega) h

/-- The (slice, position) pairs of a slice's loop: `k` and consecutive positions from `i`. -/
theorem deliverLoopRows_keys : ∀ {size i : Nat} {mas : MemoryAccessChain} {tnt : UInt32},
    (deliverLoopRows k insts endI size i mas tnt).map (fun row => (row.slice, row.pos)) =
      (List.range' i (deliverLoopRows k insts endI size i mas tnt).length).map (Prod.mk k)
  | 0, _, _, _ => by simp [deliverLoopRows]
  | size + 1, i, mas, tnt => by
    by_cases hie : i = endI
    · subst hie; simp
    obtain ⟨acc, mas', heq, -⟩ := @deliverLoopRows_succ k insts endI size i mas tnt hie
    simp only [heq, List.map_cons, List.length_cons, List.range'_succ]
    rw [deliverLoopRows_keys]

/-- On a sorted chain with no entry below `i`, an entry for `i` is the front one. -/
theorem eq_cons_of_mem_sorted {mas : MemoryAccessChain} {i : Nat} {a : MDMemoryAccess}
    (hs : mas.Pairwise (fun a b => a.1 < b.1)) (hge : ∀ e ∈ mas, i ≤ e.1) (h : (i, a) ∈ mas) :
    ∃ rest, mas = (i, a) :: rest := by
  cases mas with
  | nil => simp at h
  | cons e rest =>
    rcases List.mem_cons.mp h with rfl | h
    · exact ⟨rest, rfl⟩
    · have := (List.pairwise_cons.mp hs).1 _ h
      have := hge e (List.mem_cons_self _ _)
      simp only at *; omega

/-- **Front-only matching publishes a sorted chain's entries at their positions**: on a chain sorted
by index with no entry below the start, the loop publishes an access at a position exactly when the
chain has it there. -/
theorem deliverLoopRows_access : ∀ {size i : Nat} {mas : MemoryAccessChain} {tnt : UInt32}
    {row : DeliveryRow}, mas.Pairwise (fun a b => a.1 < b.1) → (∀ e ∈ mas, i ≤ e.1) →
    row ∈ deliverLoopRows k insts endI size i mas tnt →
    ∀ a, row.access = some a ↔ (row.pos, a) ∈ mas
  | 0, _, _, _, _, _, _, h => by simp [deliverLoopRows] at h
  | size + 1, i, mas, tnt, row, hs, hge, h => by
    by_cases hie : i = endI
    · subst hie; simp at h
    obtain ⟨acc, mas', heq, hstep⟩ := @deliverLoopRows_succ k insts endI size i mas tnt hie
    rw [heq, List.mem_cons] at h
    rcases hstep with ⟨a', rfl, rfl⟩ | ⟨rfl, hmas, hno⟩
    · -- the front entry, for `i`, is published; the rest of the chain lies above `i`
      rw [List.pairwise_cons] at hs
      intro a
      rcases h with rfl | h
      · simp only [Option.some.injEq, List.mem_cons, Prod.mk.injEq, true_and]
        exact ⟨fun h => .inl h.symm,
          fun h => h.elim Eq.symm fun hin => absurd (hs.1 _ hin) (lt_irrefl _)⟩
      · have hpos := (mem_deliverLoopRows h).2.1
        rw [deliverLoopRows_access hs.2 (fun e he => hs.1 e he) h a, List.mem_cons, Prod.mk.injEq]
        exact ⟨.inr, fun h' => h'.elim (fun h'' => absurd h''.1 (by omega)) id⟩
    · -- no entry for `i`: nothing is published here, and the chain lies above `i`
      have hnot : ∀ a, (i, a) ∉ mas := fun a ha =>
        let ⟨rest, he⟩ := eq_cons_of_mem_sorted hs hge ha
        hno a rest he
      have habove : ∀ e ∈ mas, i + 1 ≤ e.1 := fun e he => by
        rcases Nat.lt_or_eq_of_le (hge e he) with hlt | hei
        · exact hlt
        · exact absurd (show (i, e.2) ∈ mas by rw [hei]; exact he) (hnot e.2)
      rw [hmas] at h
      rcases h with rfl | h
      · intro a
        simp only [reduceCtorEq, false_iff]
        exact hnot a
      · exact deliverLoopRows_access hs habove h

end LoopRows

section SlicesRows

variable {tbs : List (Option TranslationBlock)}

/-- Every row of the delivery block belongs to the loop of one selected slice. -/
theorem mem_deliverSlicesRows : ∀ {sls : List TBSlice} {k size : Nat} {tnt : UInt32}
    {row : DeliveryRow}, row ∈ deliverSlicesRows tbs k sls size tnt →
    ∃ j sl size' tnt', sls.get? j = some sl ∧ row ∈ sliceRows tbs (k + j) sl size' tnt'
  | [], _, _, _, _, h => by simp [deliverSlicesRows] at h
  | sl :: rest, k, size, tnt, row, h => by
    rcases List.mem_append.mp h with h | h
    · exact ⟨0, sl, size, tnt, rfl, h⟩
    · obtain ⟨j, sl', size', tnt', hj, hrow⟩ := mem_deliverSlicesRows h
      exact ⟨j + 1, sl', size', tnt', hj, by rwa [show k + (j + 1) = k + 1 + j by omega]⟩

theorem deliverSlicesRows_length_le : ∀ {sls : List TBSlice} {k size : Nat} {tnt : UInt32},
    (deliverSlicesRows tbs k sls size tnt).length ≤ size
  | [], _, _, _ => by simp [deliverSlicesRows]
  | sl :: rest, k, size, tnt => by
    simp only [deliverSlicesRows, List.length_append]
    have h₁ : (sliceRows tbs k sl size tnt).length ≤ size := deliverLoopRows_length_le
    have h₂ := @deliverSlicesRows_length_le rest (k + 1) (size - (sliceRows tbs k sl size tnt).length)
      (tnt + UInt32.ofNat (sliceRows tbs k sl size tnt).length)
    omega

/-- **Row `p` of the delivery block takes sequence number `TotalNumTraces + p + 1`.** -/
theorem deliverSlicesRows_seq : ∀ {sls : List TBSlice} {k size : Nat} {tnt : UInt32} {p : Nat}
    {row : DeliveryRow}, (deliverSlicesRows tbs k sls size tnt).get? p = some row →
    row.seq.toNat = (tnt.toNat + p + 1) % 4294967296
  | [], _, _, _, _, _, h => by simp [deliverSlicesRows] at h
  | sl :: rest, k, size, tnt, p, row, h => by
    simp only [deliverSlicesRows, List.get?_eq_getElem?] at h
    by_cases hp : p < (sliceRows tbs k sl size tnt).length
    · rw [List.getElem?_append_left hp] at h
      exact (deliverLoopRows_get? (by rwa [List.get?_eq_getElem?])).2.2.2
    · rw [List.getElem?_append_right (by omega)] at h
      have := deliverSlicesRows_seq (by rwa [List.get?_eq_getElem?])
      rw [this, uint32_toNat_add, uint32_toNat_ofNat]
      omega

/-- **No two rows serve the same position of the same slice.** -/
theorem deliverSlicesRows_nodup : ∀ {sls : List TBSlice} {k size : Nat} {tnt : UInt32},
    ((deliverSlicesRows tbs k sls size tnt).map fun row => (row.slice, row.pos)).Nodup
  | [], _, _, _ => by simp [deliverSlicesRows]
  | sl :: rest, k, size, tnt => by
    simp only [deliverSlicesRows, List.map_append]
    refine List.pairwise_append.mpr ⟨?_, deliverSlicesRows_nodup, fun a ha b hb => ?_⟩
    · rw [sliceRows, deliverLoopRows_keys]
      exact List.pairwise_map.mpr ((List.nodup_range' _ _).imp fun h h' => h (Prod.mk.inj h').2)
    · obtain ⟨r, hr, rfl⟩ := List.mem_map.mp ha
      obtain ⟨r', hr', rfl⟩ := List.mem_map.mp hb
      obtain ⟨j, sl', size', tnt', -, hr''⟩ := mem_deliverSlicesRows hr'
      have h1 := (mem_deliverLoopRows hr).1
      have h2 := (mem_deliverLoopRows hr'').1
      intro heq
      have := congrArg Prod.fst heq
      simp only at this
      omega

end SlicesRows

/-! ## (3) The exchanger the rows fill -/

theorem publishRows_none (rows : List DeliveryRow) : publishRows none rows = none := by
  induction rows with
  | nil => rfl
  | cons row rows ih =>
    simp only [publishRows, List.foldl_cons] at ih ⊢
    cases row.access <;> exact ih

/-- Rows that publish under other sequence numbers and other instructions leave those entries. -/
theorem publishRows_frame {m m' : MDExchanger} {rows : List DeliveryRow} {s : UInt32}
    {x : Option MCInstPtr} (h : publishRows (some m) rows = some m') :
    ((∀ r ∈ rows, r.access.isSome → r.seq ≠ s) → m'.memAccessCat s = m.memAccessCat s) ∧
    ((∀ r ∈ rows, r.access.isSome → r.inst ≠ x) → m'.indexMap x = m.indexMap x) := by
  induction rows generalizing m with
  | nil => cases h; exact ⟨fun _ => rfl, fun _ => rfl⟩
  | cons row rows ih =>
    simp only [publishRows, List.foldl_cons] at h
    cases ha : row.access with
    | none => rw [ha] at h; exact ⟨fun hs => (ih h).1 fun r hr => hs r (List.mem_cons_of_mem _ hr),
        fun hx => (ih h).2 fun r hr => hx r (List.mem_cons_of_mem _ hr)⟩
    | some mda =>
      rw [ha] at h
      have ih' := ih h
      refine ⟨fun hs => ?_, fun hx => ?_⟩
      · rw [ih'.1 fun r hr => hs r (List.mem_cons_of_mem _ hr)]
        exact Function.update_noteq (hs row (List.mem_cons_self _ _) (by simp [ha])).symm _ _
      · rw [ih'.2 fun r hr => hx r (List.mem_cons_of_mem _ hr)]
        exact Function.update_noteq (hx row (List.mem_cons_self _ _) (by simp [ha])).symm _ _

/-- **A published access stays filed** when no later row publishes under its sequence number, and
its instruction keeps that number when no later row publishes for the same instruction. -/
theorem publishRows_published {mde : Option MDExchanger} {m' : MDExchanger}
    {rows : List DeliveryRow} {p : Nat} {row : DeliveryRow} {a : MDMemoryAccess}
    (h : publishRows mde rows = some m') (hp : rows.get? p = some row) (ha : row.access = some a) :
    ((∀ q r, p < q → rows.get? q = some r → r.access.isSome → r.seq ≠ row.seq) →
      m'.memAccessCat row.seq = some a) ∧
    ((∀ q r, p < q → rows.get? q = some r → r.access.isSome → r.inst ≠ row.inst) →
      m'.indexMap row.inst = some row.seq) := by
  obtain ⟨hlt, hpr⟩ := List.get?_eq_some.mp hp
  -- the rows after `row` are those at the positions above `p`
  have hpost : ∀ r ∈ rows.drop (p + 1), ∃ q, p < q ∧ rows.get? q = some r := fun r hr => by
    obtain ⟨n, hn⟩ := List.mem_iff_get?.mp hr
    rw [List.get?_eq_getElem?, List.getElem?_drop] at hn
    exact ⟨p + 1 + n, by omega, by rwa [List.get?_eq_getElem?]⟩
  rw [← List.take_append_drop p rows, List.drop_eq_getElem_cons hlt,
    show rows[p] = row from hpr, publishRows_append] at h
  cases hpre : publishRows mde (rows.take p) with
  | none => rw [hpre, publishRows_none] at h; cases h
  | some m₁ =>
    rw [hpre] at h
    simp only [publishRows, List.foldl_cons, ha, setMemoryAccessMD, Option.map_some'] at h
    have hf := publishRows_frame (x := row.inst) (s := row.seq) h
    refine ⟨fun hs => ?_, fun hx => ?_⟩
    · rw [hf.1 fun r hr => let ⟨q, hpq, hq⟩ := hpost r hr; hs q r hpq hq]; simp
    · rw [hf.2 fun r hr => let ⟨q, hpq, hq⟩ := hpost r hr; hx q r hpq hq]; simp

/-! ## (4) The chain a slice was queued with -/

/-- **The custody of a slice's chain**: the chain `tbExec` queued the slice with (empty for none),
the slice's `BeginIdx` then, whether the `ExecTB` records had non-decreasing raw indices below the
block's raw count, and whether no split has dropped the chain since. -/
structure Custody where
  /-- The chain when the slice was queued. -/
  chain : MemoryAccessChain
  /-- `BeginIdx` when the slice was queued. -/
  beginIdx : Nat
  /-- The records were sorted by raw index and inside the block. -/
  recordsSorted : Bool
  /-- No split cut the slice with its entries below the split point and none above. -/
  handedOver : Bool
  deriving DecidableEq, Repr

/-- **An intact custody**: sorted records, no entry below the slice's start, and no dropped chain. -/
def Custody.Intact (g : Custody) : Prop :=
  g.recordsSorted = true ∧ (∀ x ∈ g.chain, g.beginIdx ≤ x.1) ∧ g.handedOver = true

/-- Whether an `ExecTB` carries records with non-decreasing raw indices, each below the raw count
of the block it executes. -/
def recordsSorted (st : Broker) : Message → Bool
  | .execTB index _ memAccesses =>
    match registeredTB st.tbs index.toNat with
    | some tb =>
      decide (memAccesses.Pairwise fun a b => a.index.toNat ≤ b.index.toNat) &&
        memAccesses.all fun r => decide (r.index.toNat < tb.rawInsts.length)
    | none => false
  | _ => false

/-- The custodies of the slices a message queues. -/
def newCustodies (cfg : BrokerConfig) (st : Broker) (m : Message) : List Custody :=
  ((handleMessage cfg st m).tbQueue.drop st.tbQueue.length).map fun sl =>
    ⟨sl.memoryAccesses.getD [], sl.beginIdx.toNat, recordsSorted st m, true⟩

/-- Whether a split drops the chain: the front piece gets none (`lower_bound` reached the chain's
end) although the slice had entries. -/
def TBSlice.splitDropsChain (s : TBSlice) (p : UInt16) : Bool :=
  (s.split p).1.memoryAccesses.isNone && !(s.memoryAccesses.getD []).isEmpty

/-- **Custodies as ghost state**: a front piece keeps the custody, marked when the split dropped
the chain. -/
def custodyGhost : Ghost Custody :=
  ⟨newCustodies, fun cur p g => { g with handedOver := g.handedOver && !cur.splitDropsChain p }⟩

/-- **A slice and the chain it was queued with**: the slice does not end before it begins, and for
an intact custody, every queued entry inside the slice is still in its chain, which is sorted and
has no entry below the slice's start. -/
def ChainFrom (sl : TBSlice) (g : Custody) : Prop :=
  sl.beginIdx.toNat ≤ sl.endIdx.toNat ∧
    (g.Intact → ∀ x ∈ g.chain, sl.beginIdx.toNat ≤ x.1 → x.1 < sl.endIdx.toNat →
      x ∈ sl.memoryAccesses.getD [] ∧ (sl.memoryAccesses.getD []).Pairwise (fun a b => a.1 < b.1) ∧
        ∀ y ∈ sl.memoryAccesses.getD [], sl.beginIdx.toNat ≤ y.1)

/-- **Splits keep every slice beside its chain's custody**: the remainder keeps the entries at and
above the split point, and the front piece those below, unless the split drops them. -/
theorem splitKeeps_chainFrom : SplitKeeps custodyGhost ChainFrom := by
  intro cur g s h hs
  obtain ⟨hbe, hchain⟩ := h
  rw [TBSlice.size_of_le ((uint16_le_iff _ _).mpr hbe)] at hs
  have hp : (UInt16.ofNat (cur.beginIdx.toNat + s)).toNat = cur.beginIdx.toNat + s :=
    uint16_toNat_ofNat_of_lt (by have := uint16_toNat_lt cur.endIdx; omega)
  generalize UInt16.ofNat (cur.beginIdx.toNat + s) = p at hp ⊢
  constructor
  · -- the remainder `[p, EndIdx)` keeps the entries at and above `p`
    refine ⟨by simp only [TBSlice.split_snd_beginIdx, TBSlice.split_snd_endIdx]; omega,
      fun hg x hx hbx hxe => ?_⟩
    simp only [TBSlice.split_snd_beginIdx, TBSlice.split_snd_endIdx] at hbx hxe
    obtain ⟨hxc, hsorted, -⟩ := hchain hg x hx (by omega) hxe
    cases hm : cur.memoryAccesses with
    | none => simp [hm] at hxc
    | some c =>
      rw [hm, Option.getD_some] at hxc hsorted
      simp only [TBSlice.split_snd_memoryAccesses, TBSlice.split_snd_beginIdx, hm,
        splitChain_of_sorted hsorted p ⟨x, hxc, hbx⟩, Option.getD_some]
      exact ⟨(mem_takeWhile_or_dropWhile hsorted _ hxc).2 hbx,
        hsorted.sublist (List.dropWhile_sublist _), fun y hy => le_of_mem_dropWhile hsorted hy⟩
  · -- the front piece `[BeginIdx, p)` keeps those below `p`, unless the split dropped them
    refine ⟨by simp only [TBSlice.split_fst_beginIdx, TBSlice.split_fst_endIdx]; omega,
      fun hg x hx hbx hxe => ?_⟩
    obtain ⟨hrec, hbeg, hho⟩ := hg
    simp only [custodyGhost, Bool.and_eq_true, Bool.not_eq_true'] at hho hrec hbeg hx
    simp only [TBSlice.split_fst_beginIdx, TBSlice.split_fst_endIdx] at hbx hxe
    obtain ⟨hxc, hsorted, hall⟩ := hchain ⟨hrec, hbeg, hho.1⟩ x hx hbx (by omega)
    cases hm : cur.memoryAccesses with
    | none => simp [hm] at hxc
    | some c =>
      rw [hm, Option.getD_some] at hxc hsorted hall
      have habove : ∃ e ∈ c, p.toNat ≤ e.1 := by
        by_contra hno
        push_neg at hno
        have hdrop := hho.2
        simp [TBSlice.splitDropsChain, hm, splitChain_of_forall_lt hsorted p hno] at hdrop
        exact List.ne_nil_of_mem hxc hdrop
      simp only [TBSlice.split_fst_memoryAccesses, TBSlice.split_fst_beginIdx, hm,
        splitChain_of_sorted hsorted p habove, Option.getD_some]
      exact ⟨(mem_takeWhile_or_dropWhile hsorted _ hxc).1 hxe,
        hsorted.sublist (List.takeWhile_sublist _),
        fun y hy => hall y ((List.takeWhile_sublist _).subset hy)⟩

/-! ## (5) The handlers -/

theorem mem_cutSlices_chain {index : Nat} {cut : RegionCut} {chain : Option MemoryAccessChain}
    {sl : TBSlice} (h : sl ∈ cutSlices index cut chain) : sl.memoryAccesses = chain := by
  unfold cutSlices at h
  split_ifs at h
  · simp at h
  · simp only [List.mem_singleton] at h; subst h; rfl

/-- **The chain `tbExec` queues a slice with** is the one it builds from the execution's records
over the block as translated. -/
theorem handleMessage_newChains (cfg : BrokerConfig) (st : Broker) (m : Message) :
    ∀ sl ∈ (handleMessage cfg st m).tbQueue.drop st.tbQueue.length,
      ∃ index pc memAccesses tb, m = .execTB index pc memAccesses ∧
        registeredTB st.tbs index.toNat = some tb ∧
        sl.memoryAccesses = buildMemAccesses (translateForExec cfg.target tb pc st.nextMCInst).1 memAccesses := by
  intro sl hsl
  cases m with
  | metadata => simp [handleMessage, handleMetadata] at hsl
  | translatedBlock => simp [handleMessage, addTB] at hsl
  | execTB index pc memAccesses =>
    simp only [handleMessage] at hsl
    cases hend : isEndSignal index pc
    · cases htb : registeredTB st.tbs index.toNat with
      | none => rw [tbExec_of_unregistered cfg st memAccesses hend htb] at hsl; simp at hsl
      | some tb =>
        rw [tbExec_of_registered cfg st memAccesses hend htb, List.drop_left] at hsl
        exact ⟨index, pc, memAccesses, tb, rfl, htb, mem_cutSlices_chain hsl⟩
    · rw [tbExec_of_isEndSignal memAccesses hend] at hsl; simp at hsl

/-- Every registered block has an ordered skew table. -/
def SkewsOrdered (tbs : List (Option TranslationBlock)) : Prop :=
  ∀ j tb, registeredTB tbs j = some tb → SkewOrdered tb

theorem handleMessage_skewsOrdered (cfg : BrokerConfig) (st : Broker) (m : Message)
    (h : SkewsOrdered st.tbs) : SkewsOrdered (handleMessage cfg st m).tbs := by
  intro j tb hj
  cases m with
  | metadata => exact h j tb hj
  | translatedBlock index instructions =>
    rcases registeredTB_addTB hj with ⟨rfl, -⟩ | hj
    · exact skewOrdered_ofRaw instructions
    · exact h j tb hj
  | execTB index pc memAccesses =>
    simp only [handleMessage] at hj
    cases hend : isEndSignal index pc
    · cases htb : registeredTB st.tbs index.toNat with
      | none => rw [tbExec_of_unregistered cfg st memAccesses hend htb] at hj; exact h j tb hj
      | some tb₀ =>
        rw [tbExec_of_registered cfg st memAccesses hend htb] at hj
        simp only at hj
        rw [registeredTB_set _ (length_of_registeredTB htb)] at hj
        split_ifs at hj
        · cases hj; exact translateForExec_skewOrdered _ _ _ (h _ _ htb)
        · exact h j tb hj
    · rw [tbExec_of_isEndSignal memAccesses hend] at hj; exact h j tb hj

/-- **A queued slice stands beside its custody**: its chain is the custody's, sorted when the
records were. -/
theorem chainFrom_newCustody (cfg : BrokerConfig) {st : Broker} {m : Message}
    (hskews : SkewsOrdered st.tbs) {sl : TBSlice}
    (hsl : sl ∈ (handleMessage cfg st m).tbQueue.drop st.tbQueue.length)
    (hbe : sl.beginIdx.toNat ≤ sl.endIdx.toNat) :
    ChainFrom sl ⟨sl.memoryAccesses.getD [], sl.beginIdx.toNat, recordsSorted st m, true⟩ := by
  refine ⟨hbe, fun hg x hx _ _ => ⟨hx, ?_, hg.2.1⟩⟩
  have hrec := hg.1
  obtain ⟨index, pc, memAccesses, tb, rfl, htb, hchain⟩ := handleMessage_newChains cfg st m sl hsl
  simp only [recordsSorted, htb, Bool.and_eq_true, decide_eq_true_eq, List.all_eq_true] at hrec
  have hraw := (translateForExec_length_le cfg.target tb pc st.nextMCInst).2
  rw [hchain]
  exact buildMemAccesses_sorted (translateForExec_skewOrdered _ _ _ (hskews _ _ htb)).1 hrec.1
    fun r hr => by rw [hraw]; exact hrec.2 r hr

/-! ## (6) The traced system -/

/-- **The metadata invariant**: registered blocks are bounded and have ordered skew tables, and
every queued and every selected slice stands beside its chain's custody. -/
structure MetadataHold (t : Traced Custody) : Prop where
  blocks : BlocksBounded t.sys.broker.tbs
  skews : SkewsOrdered t.sys.broker.tbs
  ghosts : GhostsHold (fun _ => ChainFrom) t

theorem metadataHold_init (mde : Option MDExchanger) : MetadataHold (Traced.init mde) :=
  ⟨fun j tb h => by simp [Traced.init, System.init, Broker.init, registeredTB] at h,
    fun j tb h => by simp [Traced.init, System.init, Broker.init, registeredTB] at h,
    ghostsHold_init _ mde⟩

/-- **Every step keeps the metadata invariant**, given that a `TranslatedBlock` carries at most
`0xFFFF` raw bytes. -/
theorem tstep_metadataHold {cfg : BrokerConfig} {t t' : Traced Custody} {e : Event}
    (hstep : tstep custodyGhost cfg t e = some t') (hraw : e.rawBytes ≤ 0xFFFF)
    (h : MetadataHold t) : MetadataHold t' := by
  by_cases he : ∀ m, e ≠ .recv m
  · obtain ⟨htbs, hg⟩ := tstep_fetch_ghostsHold (fun _ => splitKeeps_chainFrom) hstep he h.ghosts
    exact ⟨by rw [htbs]; exact h.blocks, by rw [htbs]; exact h.skews, hg⟩
  push_neg at he
  obtain ⟨m, rfl⟩ := he
  obtain ⟨hb, hskews, hq, hs⟩ := h
  rw [tstep_recv, Option.some.injEq] at hstep
  subst hstep
  obtain ⟨hb', -, new, hnew, hord⟩ := handleMessage_origins cfg t.sys.broker m hb hraw
  refine ⟨hb', handleMessage_skewsOrdered cfg t.sys.broker m hskews, ?_, hs⟩
  show List.Forall₂ ChainFrom (handleMessage cfg t.sys.broker m).tbQueue
    (t.queueGhosts ++ newCustodies cfg t.sys.broker m)
  have hdrop : (handleMessage cfg t.sys.broker m).tbQueue.drop t.sys.broker.tbQueue.length = new := by
    rw [hnew, List.drop_left]
  rw [newCustodies, hnew, List.drop_left]
  refine List.rel_append hq (List.forall₂_map_right_iff.mpr (List.forall₂_same.mpr fun sl hsl => ?_))
  exact chainFrom_newCustody cfg hskews (hdrop ▸ hsl) (hord sl hsl).1

/-- **Every run keeps the metadata invariant** when no block has more than `0xFFFF` raw bytes. -/
theorem trun_metadataHold {cfg : BrokerConfig} : ∀ {evs : List Event} {t t' : Traced Custody},
    (∀ e ∈ evs, e.rawBytes ≤ 0xFFFF) → MetadataHold t →
    trun custodyGhost cfg t evs = some t' → MetadataHold t'
  | [], t, t', _, h, hrun => by cases hrun; exact h
  | e :: evs, t, t', hraw, h, hrun => by
    simp only [trun] at hrun
    cases hs : tstep custodyGhost cfg t e with
    | none => rw [hs] at hrun; cases hrun
    | some t₁ =>
      rw [hs] at hrun
      exact trun_metadataHold (fun e' he' => hraw e' (List.mem_cons_of_mem _ he'))
        (tstep_metadataHold hs (hraw e (List.mem_cons_self _ _)) h) hrun

/-! ## (7) Metadata reaches its instruction -/

theorem forall₂_get? {α β : Type} {R : α → β → Prop} :
    ∀ {l₁ : List α} {l₂ : List β}, List.Forall₂ R l₁ l₂ →
      ∀ {j a b}, l₁.get? j = some a → l₂.get? j = some b → R a b
  | _, _, .nil, _, _, _, h, _ => by simp at h
  | _, _, .cons hr _, 0, _, _, h₁, h₂ => by
    simp only [List.get?_eq_getElem?, List.getElem?_cons_zero, Option.some.injEq] at h₁ h₂
    subst h₁ h₂; exact hr
  | _, _, .cons _ hrest, j + 1, _, _, h₁, h₂ => by
    simp only [List.get?_eq_getElem?, List.getElem?_cons_succ] at h₁ h₂
    exact forall₂_get? hrest (by rwa [List.get?_eq_getElem?]) (by rwa [List.get?_eq_getElem?])

/-- **A row of an intact slice publishes the queued entry at its position**: an instruction row
reads a position inside the slice, where the chain still holds that entry. -/
theorem sliceRows_access {tbs : List (Option TranslationBlock)} {k : Nat} {sl : TBSlice}
    {g : Custody} (h : ChainFrom sl g) (hg : g.Intact) {size : Nat} {tnt : UInt32}
    {row : DeliveryRow} (hrow : row ∈ sliceRows tbs k sl size tnt) {a : MDMemoryAccess}
    (ha : (row.pos, a) ∈ g.chain) {ptr : MCInstPtr} (hptr : row.inst = some ptr) :
    row.access = some a := by
  obtain ⟨hbe, hchain⟩ := h
  obtain ⟨-, hbeg, hinst⟩ := mem_deliverLoopRows hrow
  have hlt : row.pos < (sliceInsts tbs sl.index).length := by
    have h' := hinst.symm.trans hptr
    rw [List.get?_eq_getElem?] at h'
    exact (List.getElem?_eq_some_iff.mp h').1
  -- an instruction row lies below `End = min(|MCInsts|, EndIdx)`
  have hend : row.pos < sl.endIdx.toNat := by
    by_cases hb : sl.beginIdx.toNat ≤ min (sliceInsts tbs sl.index).length sl.endIdx.toNat
    · have := deliverLoopRows_pos_lt hb hrow; omega
    · omega
  obtain ⟨hxc, hsorted, hall⟩ := hchain hg _ ha hbeg hend
  exact (deliverLoopRows_access hsorted hall hrow a).mpr hxc

/-- **The rows of slices beside intact custodies publish the queued entries**: a row that writes an
instruction at a position whose entry its slice's custody holds publishes that entry. -/
theorem deliverSlicesRows_access {tbs : List (Option TranslationBlock)} {sls : List TBSlice}
    {gs : List Custody} (h : List.Forall₂ ChainFrom sls gs) {size : Nat} {tnt : UInt32}
    {row : DeliveryRow} (hrow : row ∈ deliverSlicesRows tbs 0 sls size tnt) {g : Custody}
    {a : MDMemoryAccess} {ptr : MCInstPtr} (hg : gs.get? row.slice = some g) (hint : g.Intact)
    (ha : (row.pos, a) ∈ g.chain) (hptr : row.inst = some ptr) : row.access = some a := by
  obtain ⟨j, sl, size', tnt', hj, hrow'⟩ := mem_deliverSlicesRows hrow
  have hslice : row.slice = j := by rw [(mem_deliverLoopRows hrow').1]; simp
  rw [hslice] at hg
  exact sliceRows_access (forall₂_get? h hj hg) hint hrow' ha hptr

/-- **Memory-access metadata reaches its instruction.** On every run in which no `TranslatedBlock`
carries more than `0xFFFF` raw bytes, a consumer about to run the delivery block of a call for
fewer than `2^32` instructions runs the rows `deliveryRows`: they are what it writes, no two of them
serve the same position of the same slice, and row `p` takes sequence number
`TotalNumTraces + p + 1`. When the row writes an instruction at position `i` of a slice whose queued
chain had the entry `(i, a)` — the slice's `ExecTB` records sorted and inside the block, no entry
below the slice's start, no split that dropped the chain — the row publishes `a`: after the call
`MemAccessCat` holds `a` under the row's sequence number, and `IndexMap` files the instruction
under that number unless a later row of the call publishes for the same instruction. -/
theorem memory_access_reaches_its_instruction (cfg : BrokerConfig) (mde : Option MDExchanger)
    {evs : List Event} {t : Traced Custody} (hraw : ∀ e ∈ evs, e.rawBytes ≤ 0xFFFF)
    (hrun : trun custodyGhost cfg (Traced.init mde) evs = some t) {totalSize : Nat}
    {selected : List TBSlice} (hc : t.sys.consumer = .delivering totalSize selected)
    (hsize : totalSize < 4294967296) :
    (deliverSlices t.sys.broker.tbs selected totalSize
        ⟨[], t.sys.broker.totalNumTraces, t.sys.mde⟩).2.out = (deliveryRows t.sys).map DeliveryRow.inst ∧
    ((deliveryRows t.sys).map fun row => (row.slice, row.pos)).Nodup ∧
    ∀ p row, (deliveryRows t.sys).get? p = some row →
      row.seq.toNat = (t.sys.broker.totalNumTraces.toNat + p + 1) % 4294967296 ∧
      ∀ g a ptr, t.selectedGhosts.get? row.slice = some g → g.Intact → (row.pos, a) ∈ g.chain →
        row.inst = some ptr →
        row.access = some a ∧
        ∀ m', (t.sys.deliver totalSize selected).mde = some m' →
          m'.memAccessCat row.seq = some a ∧
          ((∀ q row', p < q → (deliveryRows t.sys).get? q = some row' → row'.inst = some ptr →
            row'.access = none) → m'.indexMap (some ptr) = some row.seq) := by
  have hsel := (trun_metadataHold hraw (metadataHold_init mde) hrun).ghosts.2
  rw [hc] at hsel
  have hrows : deliveryRows t.sys =
      deliverSlicesRows t.sys.broker.tbs 0 selected totalSize t.sys.broker.totalNumTraces := by
    simp [deliveryRows, hc]
  have hseq : ∀ {q row'}, (deliveryRows t.sys).get? q = some row' →
      row'.seq.toNat = (t.sys.broker.totalNumTraces.toNat + q + 1) % 4294967296 :=
    fun h => deliverSlicesRows_seq (hrows ▸ h)
  have hlen : (deliveryRows t.sys).length ≤ totalSize := hrows ▸ deliverSlicesRows_length_le
  refine ⟨by rw [deliver_eq_rows hc], hrows ▸ deliverSlicesRows_nodup,
    fun p row hp => ⟨hseq hp, fun g a ptr hg hint ha hptr => ?_⟩⟩
  have hacc := deliverSlicesRows_access hsel (hrows ▸ List.mem_iff_get?.mpr ⟨p, hp⟩) hg hint ha hptr
  refine ⟨hacc, fun m' hm' => ?_⟩
  have hmde : publishRows t.sys.mde (deliveryRows t.sys) = some m' := by
    rw [← hm']
    simp only [System.deliver, deliver_eq_rows hc]
  obtain ⟨hcat, hidx⟩ := publishRows_published hmde hp hacc
  refine ⟨hcat fun q r hpq hq _ heq => ?_, fun hlater => ?_⟩
  · -- the rows of one call, fewer than `2^32`, take distinct sequence numbers
    have h1 := hseq hq
    have h2 := hseq hp
    have hq' := (List.get?_eq_some.mp hq).1
    rw [heq] at h1
    omega
  · rw [← hptr]
    refine hidx fun q r hpq hq hsome heq => ?_
    rw [hlater q r hpq hq (heq.trans hptr)] at hsome
    simp at hsome

/-- Metadata tables with nothing filed. -/
def emptyExchanger : MDExchanger := ⟨fun _ => none, fun _ => none⟩

/-- A block of two instructions executed with one load at raw index 1, and a call's first block
that selects the whole block. -/
def accessEvents : List Event :=
  [.recv (.translatedBlock 0 [[0x90], [0x90]]), .recv (.execTB 0 0x1000 [⟨1, false, 0x20, 8⟩]),
    .fetchBegin 2 2]

/-- The traced state after `accessEvents`: the slice is selected with its chain `[(1, load)]`, and
its custody is intact. -/
def accessTraced : Traced Custody :=
  ⟨⟨⟨[some ⟨[[0x90], [0x90]], [0, 1], [], 0x1000, [0, 1]⟩], [], false, none, 0, 0, 2⟩,
      .delivering 2 [⟨0, 0, 0xFFFF, none, some [(1, ⟨false, 0x20, 8⟩)]⟩], some emptyExchanger⟩,
    [], [⟨[(1, ⟨false, 0x20, 8⟩)], 0, true, true⟩]⟩

/-- The theorem on a run whose slice carries one access: the second row publishes it. -/
theorem memory_access_reaches_its_instruction_one_block :
    trun custodyGhost byteConfig (Traced.init (some emptyExchanger)) accessEvents = some accessTraced ∧
    (deliverSlices accessTraced.sys.broker.tbs [⟨0, 0, 0xFFFF, none, some [(1, ⟨false, 0x20, 8⟩)]⟩] 2
        ⟨[], accessTraced.sys.broker.totalNumTraces, accessTraced.sys.mde⟩).2.out =
      (deliveryRows accessTraced.sys).map DeliveryRow.inst ∧
    ((deliveryRows accessTraced.sys).map fun row => (row.slice, row.pos)).Nodup ∧
    ∀ p row, (deliveryRows accessTraced.sys).get? p = some row →
      row.seq.toNat = (accessTraced.sys.broker.totalNumTraces.toNat + p + 1) % 4294967296 ∧
      ∀ g a ptr, accessTraced.selectedGhosts.get? row.slice = some g → g.Intact →
        (row.pos, a) ∈ g.chain → row.inst = some ptr →
        row.access = some a ∧
        ∀ m', (accessTraced.sys.deliver 2 [⟨0, 0, 0xFFFF, none, some [(1, ⟨false, 0x20, 8⟩)]⟩]).mde =
            some m' →
          m'.memAccessCat row.seq = some a ∧
          ((∀ q row', p < q → (deliveryRows accessTraced.sys).get? q = some row' →
            row'.inst = some ptr → row'.access = none) → m'.indexMap (some ptr) = some row.seq) :=
  ⟨rfl, @memory_access_reaches_its_instruction byteConfig (some emptyExchanger) accessEvents
    accessTraced (by decide) rfl 2 _ rfl (by decide)⟩

/-- A block of one instruction executed twice, with a store and then a load at raw index 0, and a
call that selects both slices and delivers them. -/
def twiceEvents : List Event :=
  [.recv (.translatedBlock 0 [[0x90]]), .recv (.execTB 0 0x1000 [⟨0, true, 0x10, 4⟩]),
    .recv (.execTB 0 0x1000 [⟨0, false, 0x20, 8⟩]), .fetchBegin 2 2, .fetchEnd]

/-- **`IndexMap` keeps an instruction's last delivery.** Both slices are queued with their chains
intact and deliver `MCInsts[0]` in one call, publishing the store under sequence number 1 and the
load under 2. `IndexMap` is keyed by the instruction, so `MemAccessCat[IndexMap[out[0]]]` is the
load, not the store the first slice's chain held for `out[0]`. -/
theorem same_instruction_twice_keeps_last_sequence_number :
    (run byteConfig (System.init (some emptyExchanger)) (twiceEvents.take 3)).map (·.broker.tbQueue) =
      some [⟨0, 0, 0xFFFF, none, some [(0, ⟨true, 0x10, 4⟩)]⟩,
        ⟨0, 0, 0xFFFF, none, some [(0, ⟨false, 0x20, 8⟩)]⟩] ∧
    (run byteConfig (System.init (some emptyExchanger)) (twiceEvents.take 4)).map deliveryRows =
      some [⟨0, 0, some 0, 1, some ⟨true, 0x10, 4⟩⟩, ⟨1, 0, some 0, 2, some ⟨false, 0x20, 8⟩⟩] ∧
    (run byteConfig (System.init (some emptyExchanger)) twiceEvents).map
        (fun s => s.mde.map fun m => (m.memAccessCat 1, m.indexMap (some 0),
          (m.indexMap (some 0)).bind m.memAccessCat)) =
      some (some (some ⟨true, 0x10, 4⟩, some 2, some ⟨false, 0x20, 8⟩)) :=
  ⟨rfl, rfl, rfl⟩

end McadBroker
