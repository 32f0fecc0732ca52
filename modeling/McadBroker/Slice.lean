import McadBroker.Basic

/-! # Slices of translation blocks

`TBSlice` is the unit of the broker's queue: `[BeginIdx, EndIdx)` over the decoded instructions of
block `Index`, the region it closes (non-null only for the slice that ends a region) and its
memory-access chain (null when the execution carried no access).

* **`TBSlice.size`** — `EndIdx - BeginIdx` as the source computes it: the `uint16_t` operands are
  promoted to `int` and the result is returned as `size_t`.
* **`lowerBound`** — libstdc++'s `std::lower_bound`, the halving search `TBSlice::split` runs over
  the chain; `lowerBound_eq_length_takeWhile` says what it finds on a chain sorted by index.
* **`TBSlice.split`** — cuts `[BeginIdx, SplitPoint)` off the front. The chain entries below the
  split point move to the front piece only when `lower_bound` stops before the chain's end. -/

namespace McadBroker

/-- **`TBSlice`.** `Region` is the `BinaryRegion` pointer (non-null when the slice closes that
region); `MemoryAccesses` is the chain pointer, `none` for `nullptr`. -/
structure TBSlice where
  /-- `Index`: the slot of the block in `TBs`. -/
  index : Nat
  /-- `BeginIdx`. -/
  beginIdx : UInt16
  /-- `EndIdx`; `0xFFFF` when the slice runs to the end of the block. -/
  endIdx : UInt16
  /-- `Region`. -/
  region : Option BinaryRegion
  /-- `MemoryAccesses`. -/
  memoryAccesses : Option MemoryAccessChain
  deriving DecidableEq, Repr

namespace TBSlice

/-- `size()`: `EndIdx - BeginIdx` computed in `int` and returned as `size_t` (modulo `2^64`). -/
def size (s : TBSlice) : Nat :=
  (((s.endIdx.toNat : Int) - s.beginIdx.toNat) % 18446744073709551616).toNat

/-- On an ordered slice `size()` is the plain difference. -/
theorem size_of_le {s : TBSlice} (h : s.beginIdx ≤ s.endIdx) :
    s.size = s.endIdx.toNat - s.beginIdx.toNat := by
  rw [uint16_le_iff] at h
  have := uint16_toNat_lt s.endIdx
  unfold size
  rw [Int.emod_eq_of_lt (by omega) (by omega)]
  omega

/-- `release()`: frees the chain. -/
def release (s : TBSlice) : TBSlice := { s with memoryAccesses := none }

end TBSlice

/-! ## (1) `lower_bound` -/

/-- **libstdc++'s `std::lower_bound` loop** over `xs[first, first + len)`: halve the range, keep the
upper half when `comp` holds at the middle. `fuel` bounds the halvings; `len` of them always end
the search, since every step shrinks `len`. -/
def lowerBoundAux {α : Type} (comp : α → Bool) (xs : List α) : Nat → Nat → Nat → Nat
  | 0, first, _ => first
  | fuel + 1, first, len =>
    if len = 0 then first
    else
      let middle := first + len / 2
      if (xs.get? middle).any comp then lowerBoundAux comp xs fuel (middle + 1) (len - len / 2 - 1)
      else lowerBoundAux comp xs fuel first (len / 2)

/-- `llvm::lower_bound(xs, value, Compare)`: the position of the first element on which
`comp` (here `Compare(·, value)`) fails, found by the halving search. -/
def lowerBound {α : Type} (comp : α → Bool) (xs : List α) : Nat :=
  lowerBoundAux comp xs xs.length 0 xs.length

/-- On a list whose `comp`-true elements all come first, `comp` holds at a position exactly when
the position lies in the leading `comp`-true run. -/
theorem any_get?_iff_lt_takeWhile {α : Type} (comp : α → Bool) (xs : List α)
    (hsorted : xs.Pairwise (fun a b => comp b = true → comp a = true)) {m : Nat}
    (hm : m < xs.length) : (xs.get? m).any comp = true ↔ m < (xs.takeWhile comp).length := by
  induction xs generalizing m with
  | nil => simp at hm
  | cons a t ih =>
    rw [List.pairwise_cons] at hsorted
    cases m with
    | zero => cases ha : comp a <;> simp [List.takeWhile_cons, ha]
    | succ j =>
      have hj : j < t.length := by simpa using hm
      rw [List.get?_cons_succ, ih hsorted.2 hj]
      cases ha : comp a
      · have hfalse : (t.get? j).any comp = false := by
          rw [List.get?_eq_get hj]
          cases hcx : comp (t.get ⟨j, hj⟩)
          · exact hcx
          · exact absurd (hsorted.1 _ (List.get_mem t j hj) hcx) (by simp [ha])
        rw [← ih hsorted.2 hj, hfalse]
        simp [List.takeWhile_cons, ha]
      · simp [List.takeWhile_cons, ha]

/-- **The halving search finds the end of the leading run.** On a list whose `comp`-true elements
all come first, the search over a range that contains the run's end returns that end. -/
theorem lowerBoundAux_eq {α : Type} (comp : α → Bool) (xs : List α)
    (hsorted : xs.Pairwise (fun a b => comp b = true → comp a = true)) :
    ∀ fuel first len, len ≤ fuel → first + len ≤ xs.length →
      first ≤ (xs.takeWhile comp).length → (xs.takeWhile comp).length ≤ first + len →
      lowerBoundAux comp xs fuel first len = (xs.takeWhile comp).length := by
  intro fuel
  induction fuel with
  | zero => intro first len hlen _ hlo hhi; simp only [lowerBoundAux]; omega
  | succ fuel ih =>
    intro first len hlen hin hlo hhi
    simp only [lowerBoundAux]
    split_ifs with hzero hmid
    · omega
    · have hlt := (any_get?_iff_lt_takeWhile comp xs hsorted (by omega)).mp hmid
      exact ih _ _ (by omega) (by omega) (by omega) (by omega)
    · have hge : ¬ first + len / 2 < (xs.takeWhile comp).length :=
        fun h => hmid ((any_get?_iff_lt_takeWhile comp xs hsorted (by omega)).mpr h)
      exact ih _ _ (by omega) (by omega) hlo (by omega)

/-- **`lower_bound` on a partitioned list** is the length of the leading `comp`-true run. -/
theorem lowerBound_eq_length_takeWhile {α : Type} (comp : α → Bool) (xs : List α)
    (hsorted : xs.Pairwise (fun a b => comp b = true → comp a = true)) :
    lowerBound comp xs = (xs.takeWhile comp).length :=
  lowerBoundAux_eq comp xs hsorted _ _ _ le_rfl (by omega) (Nat.zero_le _)
    (by have h := congrArg List.length (List.takeWhile_append_dropWhile comp xs)
        rw [List.length_append] at h
        omega)

/-! ## (2) `TBSlice::split` -/

/-- The chain half of **`TBSlice::split`** (`if (MemoryAccesses) {...}`): the chain of the front
piece and the chain left with the receiver. The entries before `lower_bound` of the split point
move to the front only when `lower_bound` is not the chain's end; otherwise the front piece gets
no chain and the receiver keeps the whole one. -/
def splitChain (mas : Option MemoryAccessChain) (splitPoint : UInt16) :
    Option MemoryAccessChain × Option MemoryAccessChain :=
  match mas with
  | some mas =>
    let cut := lowerBound (fun e => decide (e.1 < splitPoint.toNat)) mas
    if cut ≠ mas.length then (some (mas.take cut), some (mas.drop cut)) else (none, some mas)
  | none => (none, none)

/-- **`TBSlice::split(SplitPoint)`**: the front piece `[BeginIdx, SplitPoint)` (same block, same
region) and the receiver updated to `[SplitPoint, EndIdx)`. The source asserts
`BeginIdx < SplitPoint < EndIdx`; that is a duty of the caller here. -/
def TBSlice.split (s : TBSlice) (splitPoint : UInt16) : TBSlice × TBSlice :=
  (⟨s.index, s.beginIdx, splitPoint, s.region, (splitChain s.memoryAccesses splitPoint).1⟩,
    { s with beginIdx := splitPoint, memoryAccesses := (splitChain s.memoryAccesses splitPoint).2 })

namespace TBSlice

variable (s : TBSlice) (p : UInt16)

@[simp] theorem split_fst_index : (s.split p).1.index = s.index := rfl
@[simp] theorem split_fst_beginIdx : (s.split p).1.beginIdx = s.beginIdx := rfl
@[simp] theorem split_fst_endIdx : (s.split p).1.endIdx = p := rfl
@[simp] theorem split_fst_region : (s.split p).1.region = s.region := rfl
@[simp] theorem split_snd_index : (s.split p).2.index = s.index := rfl
@[simp] theorem split_snd_beginIdx : (s.split p).2.beginIdx = p := rfl
@[simp] theorem split_snd_endIdx : (s.split p).2.endIdx = s.endIdx := rfl
@[simp] theorem split_snd_region : (s.split p).2.region = s.region := rfl
@[simp] theorem split_fst_memoryAccesses :
    (s.split p).1.memoryAccesses = (splitChain s.memoryAccesses p).1 := rfl
@[simp] theorem split_snd_memoryAccesses :
    (s.split p).2.memoryAccesses = (splitChain s.memoryAccesses p).2 := rfl

end TBSlice


/-! ## (3) Splitting a sorted chain

On a chain sorted by index, the entries below a split point form a prefix. `split` hands that
prefix to the front piece when some entry lies at or above the split point; when none does,
`lower_bound` is the chain's end and the front piece gets no chain. -/

section SortedChain

variable {c : MemoryAccessChain}

/-- On a sorted chain, every entry the leading run below `p` leaves behind is at or above `p`. -/
theorem le_of_mem_dropWhile (hc : c.Pairwise (fun a b => a.1 < b.1)) {p : Nat} {e : MemoryAccessEntry}
    (he : e ∈ c.dropWhile fun e => decide (e.1 < p)) : p ≤ e.1 := by
  induction c with
  | nil => simp at he
  | cons a t ih =>
    rw [List.pairwise_cons] at hc
    by_cases ha : a.1 < p
    · rw [List.dropWhile_cons_of_pos (by simpa using ha)] at he
      exact ih hc.2 he
    · rw [List.dropWhile_cons_of_neg (by simpa using ha)] at he
      rcases List.mem_cons.mp he with rfl | he
      · omega
      · have := hc.1 e he; omega

/-- On a sorted chain an entry below `p` lies in the leading run, and one at or above `p` after it. -/
theorem mem_takeWhile_or_dropWhile (hc : c.Pairwise (fun a b => a.1 < b.1)) (p : Nat)
    {e : MemoryAccessEntry} (he : e ∈ c) :
    (e.1 < p → e ∈ c.takeWhile fun e => decide (e.1 < p)) ∧
    (p ≤ e.1 → e ∈ c.dropWhile fun e => decide (e.1 < p)) := by
  rw [← List.takeWhile_append_dropWhile (fun e => decide (e.1 < p)) c, List.mem_append] at he
  constructor
  · intro hlt
    rcases he with he | he
    · exact he
    · exact absurd (le_of_mem_dropWhile hc he) (by omega)
  · intro hle
    rcases he with he | he
    · exact absurd (by simpa using List.mem_takeWhile_imp he) (by omega)
    · exact he

theorem lowerBound_eq_length_takeWhile_of_sorted (hc : c.Pairwise (fun a b => a.1 < b.1)) (p : Nat) :
    lowerBound (fun e => decide (e.1 < p)) c = (c.takeWhile fun e => decide (e.1 < p)).length :=
  lowerBound_eq_length_takeWhile _ c (hc.imp fun {a b} hab hb => by simp at hb ⊢; omega)

/-- **`split` hands a sorted chain over at the split point** when some entry lies at or above it:
the front piece gets the entries below it, the receiver keeps the others. -/
theorem splitChain_of_sorted (hc : c.Pairwise (fun a b => a.1 < b.1)) (p : UInt16)
    (h : ∃ e ∈ c, p.toNat ≤ e.1) :
    splitChain (some c) p = (some (c.takeWhile fun e => decide (e.1 < p.toNat)),
      some (c.dropWhile fun e => decide (e.1 < p.toNat))) := by
  have hsplit := List.takeWhile_append_dropWhile (fun e : MemoryAccessEntry => decide (e.1 < p.toNat)) c
  have hne : (c.takeWhile fun e => decide (e.1 < p.toNat)).length ≠ c.length := by
    obtain ⟨e, he, hle⟩ := h
    have hdrop := ((mem_takeWhile_or_dropWhile hc p.toNat he).2 hle)
    intro hlen
    have hl := congrArg List.length hsplit
    rw [List.length_append] at hl
    have hnil : (c.dropWhile fun e => decide (e.1 < p.toNat)) = [] :=
      List.length_eq_zero.mp (by omega)
    rw [hnil] at hdrop
    simp at hdrop
  simp only [splitChain, lowerBound_eq_length_takeWhile_of_sorted hc, ne_eq, hne, not_false_eq_true,
    if_true, Prod.mk.injEq, Option.some.injEq]
  generalize (c.takeWhile fun e => decide (e.1 < p.toNat)) = tw at hsplit ⊢
  generalize (c.dropWhile fun e => decide (e.1 < p.toNat)) = dw at hsplit ⊢
  subst hsplit
  exact ⟨List.take_left' rfl, List.drop_left' rfl⟩

/-- **`split` drops a sorted chain whose entries all lie below the split point**: `lower_bound`
is the chain's end, the front piece gets no chain and the receiver keeps the whole one. -/
theorem splitChain_of_forall_lt (hc : c.Pairwise (fun a b => a.1 < b.1)) (p : UInt16)
    (h : ∀ e ∈ c, e.1 < p.toNat) : splitChain (some c) p = (none, some c) := by
  have htake : (c.takeWhile fun e => decide (e.1 < p.toNat)) = c :=
    List.takeWhile_eq_self_iff.mpr fun e he => by simpa using h e he
  simp [splitChain, lowerBound_eq_length_takeWhile_of_sorted hc, htake]

/-- On a sorted chain, the leading run below `q` is the entries below `q`. -/
theorem takeWhile_eq_filter_of_sorted (hc : c.Pairwise (fun a b => a.1 < b.1)) (q : Nat) :
    c.takeWhile (fun e => decide (e.1 < q)) = c.filter (fun e => decide (e.1 < q)) := by
  induction c with
  | nil => rfl
  | cons a t ih =>
    rw [List.pairwise_cons] at hc
    by_cases ha : a.1 < q
    · simp [List.takeWhile_cons, List.filter_cons, ha, ih hc.2]
    · have hnil : t.filter (fun e => decide (e.1 < q)) = [] :=
        List.filter_eq_nil_iff.mpr fun e he => by have := hc.1 e he; simp; omega
      simp [List.takeWhile_cons, List.filter_cons, ha, hnil]

/-- On a sorted chain, what the leading run below `q` leaves is the entries at or above `q`. -/
theorem dropWhile_eq_filter_of_sorted (hc : c.Pairwise (fun a b => a.1 < b.1)) (q : Nat) :
    c.dropWhile (fun e => decide (e.1 < q)) = c.filter (fun e => decide (q ≤ e.1)) := by
  induction c with
  | nil => rfl
  | cons a t ih =>
    rw [List.pairwise_cons] at hc
    by_cases ha : a.1 < q
    · simp [List.dropWhile_cons, List.filter_cons, ha, ih hc.2]
    · have hall : t.filter (fun e => decide (q ≤ e.1)) = t :=
        List.filter_eq_self.mpr fun e he => by have := hc.1 e he; simp; omega
      simp [List.dropWhile_cons, List.filter_cons, ha, hall, Nat.le_of_not_lt ha]

/-- **`split` partitions a sorted chain that reaches the split point.** When the chain is null,
empty, or has an entry at or above the split point, the front piece is `[BeginIdx, SplitPoint)` of
the same block with exactly the entries below the split point, the receiver is
`[SplitPoint, EndIdx)` with exactly the others, and the two chains together are the chain. -/
theorem split_partitions_chain {s : TBSlice} {p : UInt16}
    (hs : (s.memoryAccesses.getD []).Pairwise (fun a b => a.1 < b.1))
    (hreach : s.memoryAccesses.getD [] = [] ∨ ∃ e ∈ s.memoryAccesses.getD [], p.toNat ≤ e.1) :
    (s.split p).1.index = s.index ∧ (s.split p).1.beginIdx = s.beginIdx ∧
      (s.split p).1.endIdx = p ∧ (s.split p).2.index = s.index ∧
      (s.split p).2.beginIdx = p ∧ (s.split p).2.endIdx = s.endIdx ∧
    (s.split p).1.memoryAccesses.getD [] =
      (s.memoryAccesses.getD []).filter (fun e => e.1 < p.toNat) ∧
    (s.split p).2.memoryAccesses.getD [] =
      (s.memoryAccesses.getD []).filter (fun e => p.toNat ≤ e.1) ∧
    (s.split p).1.memoryAccesses.getD [] ++ (s.split p).2.memoryAccesses.getD [] =
      s.memoryAccesses.getD [] := by
  refine ⟨rfl, rfl, rfl, rfl, rfl, rfl, ?_⟩
  cases hm : s.memoryAccesses with
  | none => simp [hm, splitChain]
  | some c =>
    rw [hm, Option.getD_some] at hs hreach
    rcases hreach with rfl | hreach
    · simp [hm, splitChain, lowerBound, lowerBoundAux]
    · simp only [TBSlice.split_fst_memoryAccesses, TBSlice.split_snd_memoryAccesses, hm,
        splitChain_of_sorted hs p hreach, Option.getD_some]
      exact ⟨takeWhile_eq_filter_of_sorted hs _, dropWhile_eq_filter_of_sorted hs _,
        List.takeWhile_append_dropWhile _ _⟩

/-- A slice over `[0, 4)` with accesses at instructions 1 and 3. -/
def twoAccessSlice : TBSlice := ⟨0, 0, 4, none, some [(1, ⟨false, 0x20, 8⟩), (3, ⟨true, 0x40, 4⟩)]⟩

theorem split_partitions_chain_two_entries :
    (twoAccessSlice.split 2).1.index = twoAccessSlice.index ∧
      (twoAccessSlice.split 2).1.beginIdx = twoAccessSlice.beginIdx ∧
      (twoAccessSlice.split 2).1.endIdx = 2 ∧ (twoAccessSlice.split 2).2.index = twoAccessSlice.index ∧
      (twoAccessSlice.split 2).2.beginIdx = 2 ∧
      (twoAccessSlice.split 2).2.endIdx = twoAccessSlice.endIdx ∧
    (twoAccessSlice.split 2).1.memoryAccesses.getD [] =
      (twoAccessSlice.memoryAccesses.getD []).filter (fun e => e.1 < (2 : UInt16).toNat) ∧
    (twoAccessSlice.split 2).2.memoryAccesses.getD [] =
      (twoAccessSlice.memoryAccesses.getD []).filter (fun e => (2 : UInt16).toNat ≤ e.1) ∧
    (twoAccessSlice.split 2).1.memoryAccesses.getD [] ++
        (twoAccessSlice.split 2).2.memoryAccesses.getD [] = twoAccessSlice.memoryAccesses.getD [] :=
  split_partitions_chain (by decide) (Or.inr ⟨(3, ⟨true, 0x40, 4⟩), by decide, by decide⟩)

/-- **`split` keeps a chain below the split point with the receiver.** When every entry lies below
the split point, `lower_bound` is the chain's end: the front piece gets no chain although the
entries below the split point are all of it, and the receiver `[SplitPoint, EndIdx)` keeps them,
every one below its own `BeginIdx`. -/
theorem split_below_point_keeps_chain {s : TBSlice} {p : UInt16} {c : MemoryAccessChain}
    (hm : s.memoryAccesses = some c) (hs : c.Pairwise (fun a b => a.1 < b.1)) (hne : c ≠ [])
    (hlt : ∀ e ∈ c, e.1 < p.toNat) :
    (s.split p).1.memoryAccesses = none ∧
      (s.split p).1.memoryAccesses.getD [] ≠ c.filter (fun e => e.1 < p.toNat) ∧
      (s.split p).2.memoryAccesses = some c ∧ ∀ e ∈ c, e.1 < (s.split p).2.beginIdx.toNat := by
  have hfilter : c.filter (fun e => e.1 < p.toNat) = c :=
    List.filter_eq_self.mpr fun e he => by simpa using hlt e he
  simp only [TBSlice.split_fst_memoryAccesses, TBSlice.split_snd_memoryAccesses,
    TBSlice.split_snd_beginIdx, hm, splitChain_of_forall_lt hs p hlt, hfilter]
  exact ⟨trivial, fun h => hne h.symm, trivial, hlt⟩

/-- The theorem on a slice `[0, 4)` whose one entry, at index 1, lies below the split point 2. -/
theorem split_below_point_keeps_chain_one_entry :
    ([(1, ⟨false, 0x20, 8⟩)] : MemoryAccessChain).Pairwise (fun a b => a.1 < b.1) ∧
    ((⟨0, 0, 4, none, some [(1, ⟨false, 0x20, 8⟩)]⟩ : TBSlice).split 2).1.memoryAccesses = none ∧
    ((⟨0, 0, 4, none, some [(1, ⟨false, 0x20, 8⟩)]⟩ : TBSlice).split 2).1.memoryAccesses.getD [] ≠
      ([(1, ⟨false, 0x20, 8⟩)] : MemoryAccessChain).filter (fun e => e.1 < (2 : UInt16).toNat) ∧
    ((⟨0, 0, 4, none, some [(1, ⟨false, 0x20, 8⟩)]⟩ : TBSlice).split 2).2.memoryAccesses =
      some [(1, ⟨false, 0x20, 8⟩)] ∧
    ∀ e ∈ ([(1, ⟨false, 0x20, 8⟩)] : MemoryAccessChain),
      e.1 < ((⟨0, 0, 4, none, some [(1, ⟨false, 0x20, 8⟩)]⟩ : TBSlice).split 2).2.beginIdx.toNat :=
  ⟨by decide, split_below_point_keeps_chain rfl (by decide) (by simp) (by decide)⟩

end SortedChain

end McadBroker
