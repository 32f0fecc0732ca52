import McadBroker.Ghost
import McadBroker.Stream

/-! # Slices within their blocks are delivered exactly

The selection loop charges a slice `min(|MCInsts|, size())`. A slice that ends within its block
is charged what it holds (`charge_of_inBlock`), and so are both pieces a split
cuts from it. On a queue of such slices the fetch engine does what it is for. However the sizes of
consecutive calls cut it, the calls hand out the queue's stream in order. A call returns fewer
instructions than it asked for only at the end of a region or of the queue.

* **`TBSlice.InBlock`** — `BeginIdx ≤ EndIdx ≤ |MCInsts|` for a registered block.
* **`SelectInv`** — what the selection loop keeps on such a queue: the selected slices and the
  queue still denote the stream the loop started from, and the budget plus the selected
  instructions is the size.
* **`deliverSlices_inBlock`** — the delivery block writes exactly the selected instructions.
* **`fetchRegion_short_only_at_region_end`** — one call, as a prefix of the stream.
* **`fetchRun_delivers_queueStream`** — consecutive calls deliver the stream piece by piece. -/

namespace McadBroker

/-! ## (1) Slices within their blocks -/

/-- A slice of a registered block that lies within it: `BeginIdx ≤ EndIdx ≤ |MCInsts|`. -/
def TBSlice.InBlock (tbs : List (Option TranslationBlock)) (sl : TBSlice) : Prop :=
  (registeredTB tbs sl.index).isSome ∧ sl.beginIdx.toNat ≤ sl.endIdx.toNat ∧
    sl.endIdx.toNat ≤ (sliceInsts tbs sl.index).length

instance (tbs : List (Option TranslationBlock)) : DecidablePred (TBSlice.InBlock tbs) :=
  fun _ => inferInstanceAs (Decidable (_ ∧ _ ∧ _))

/-- The instructions a slice's stream holds. -/
def sliceInstsOf (tbs : List (Option TranslationBlock)) (sl : TBSlice) : List MCInstPtr :=
  ((sliceInsts tbs sl.index).drop sl.beginIdx.toNat).take (deliverable tbs sl)

/-- The end of the region the last of the slices closes, as a stream item. -/
def regionEndItem (selected : List TBSlice) : List StreamItem :=
  ((selected.getLast? >>= (·.region)).map fun r => .regionEnd r.description).toList

theorem sliceStream_eq (tbs : List (Option TranslationBlock)) (sl : TBSlice) :
    sliceStream tbs sl =
      (sliceInstsOf tbs sl).map (StreamItem.inst ∘ some) ++ regionEndItem [sl] := by
  simp only [sliceStream, sliceInstsOf, regionEndItem, List.getLast?_singleton, Option.bind_eq_bind,
    Option.some_bind]

theorem regionEndItem_concat (selected : List TBSlice) (sl : TBSlice) :
    regionEndItem (selected ++ [sl]) = regionEndItem [sl] := by
  simp only [regionEndItem, List.getLast?_concat, List.getLast?_singleton]

/-- While the loop runs, the slices selected so far close no region. -/
theorem regionEndItem_of_endOfRegion {selected : List TBSlice} (h : endOfRegion selected = false) :
    regionEndItem selected = [] := by
  unfold endOfRegion at h
  unfold regionEndItem
  cases hl : selected.getLast? with
  | none => rfl
  | some sl =>
    rw [hl] at h
    cases hr : sl.region with
    | none => simp only [Option.bind_eq_bind, Option.some_bind, hr, Option.map_none', Option.toList_none]
    | some r =>
      have hsome : sl.region.isSome = false := h
      rw [hr] at hsome
      cases hsome

/-- The region end a call reports is the one its selection closes. -/
theorem regionEndItem_eq_descriptor (selected : List TBSlice) :
    regionEndItem selected = if (fetchRegionDescriptor selected).isEnd then
      [.regionEnd (fetchRegionDescriptor selected).description] else [] := by
  unfold regionEndItem fetchRegionDescriptor
  cases selected.getLast? >>= (·.region) <;> rfl

section InBlock

variable {tbs : List (Option TranslationBlock)}

/-- A slice within its block is charged what it holds: `EndIdx - BeginIdx`. -/
theorem charge_of_inBlock {sl : TBSlice} (h : sl.InBlock tbs) :
    charge tbs sl = sl.endIdx.toNat - sl.beginIdx.toNat ∧
      deliverable tbs sl = sl.endIdx.toNat - sl.beginIdx.toNat := by
  obtain ⟨-, hbe, hend⟩ := h
  rw [charge, deliverable, TBSlice.size_of_le ((uint16_le_iff _ _).mpr hbe)]
  omega

theorem length_sliceInstsOf {sl : TBSlice} (h : sl.InBlock tbs) :
    (sliceInstsOf tbs sl).length = deliverable tbs sl := by
  have := (charge_of_inBlock h).2
  obtain ⟨-, -, hend⟩ := h
  simp only [sliceInstsOf, List.length_take, List.length_drop]
  omega

/-- **A split inside a slice within its block** cuts its stream in two: the front piece
`[BeginIdx, BeginIdx + S)` without a region, holding `S` instructions, and the remainder. Both
pieces lie within the block. -/
theorem split_inBlock {cur : TBSlice} (h : cur.InBlock tbs) {s : Nat}
    (hs : s < cur.endIdx.toNat - cur.beginIdx.toNat) :
    let p := UInt16.ofNat (cur.beginIdx.toNat + s)
    TBSlice.InBlock tbs { (cur.split p).1 with region := none } ∧
      deliverable tbs { (cur.split p).1 with region := none } = s ∧
      TBSlice.InBlock tbs (cur.split p).2 ∧
      sliceStream tbs { (cur.split p).1 with region := none } ++ sliceStream tbs (cur.split p).2 =
        sliceStream tbs cur := by
  obtain ⟨hreg, hbe, hend⟩ := h
  have hp : (UInt16.ofNat (cur.beginIdx.toNat + s)).toNat = cur.beginIdx.toNat + s :=
    uint16_toNat_ofNat_of_lt_toNat cur.endIdx (by omega)
  simp only [TBSlice.InBlock, deliverable, sliceStream, TBSlice.split_fst_index,
    TBSlice.split_fst_beginIdx, TBSlice.split_fst_endIdx, TBSlice.split_snd_index,
    TBSlice.split_snd_beginIdx, TBSlice.split_snd_endIdx, TBSlice.split_snd_region, hp,
    Option.map_none', Option.toList_none, List.append_nil]
  generalize sliceInsts tbs cur.index = insts at *
  generalize cur.beginIdx.toNat = b at *
  generalize cur.endIdx.toNat = e at *
  refine ⟨⟨hreg, by omega, by omega⟩, by omega, ⟨hreg, by omega, hend⟩, ?_⟩
  -- the front piece's instructions, then the remainder's, are the slice's
  rw [Nat.min_eq_right (by omega : b + s ≤ insts.length), Nat.min_eq_right hend,
    Nat.add_sub_cancel_left, ← List.append_assoc, ← List.map_append, ← List.drop_drop,
    ← List.take_add, show s + (e - (b + s)) = e - b by omega]

end InBlock

/-! ## (2) The selection loop -/

/-- **What the selection loop keeps** for a call of size `size` on a queue whose stream is
`stream`. -/
structure SelectInv (tbs : List (Option TranslationBlock)) (size : Nat) (stream : List StreamItem)
    (sel : Selection) : Prop where
  /-- Queued slices lie within their blocks. -/
  queue : ∀ sl ∈ sel.tbQueue, sl.InBlock tbs
  /-- So do the selected ones. -/
  selected : ∀ sl ∈ sel.selectedSlices, sl.InBlock tbs
  /-- The budget left plus the instructions selected is the size. -/
  budget : sel.s + (sel.selectedSlices.flatMap (sliceInstsOf tbs)).length = size
  /-- The selected instructions, the end of the region the selection closes, and the queue's
  stream are the stream the loop started from. -/
  items : (sel.selectedSlices.flatMap (sliceInstsOf tbs)).map (StreamItem.inst ∘ some) ++
      regionEndItem sel.selectedSlices ++ queueStream tbs sel.tbQueue = stream

section Selection

variable {tbs : List (Option TranslationBlock)} {size : Nat} {stream : List StreamItem}

theorem selectInv_init {queue : List TBSlice} (hq : ∀ sl ∈ queue, sl.InBlock tbs) :
    SelectInv tbs size (queueStream tbs queue) ⟨queue, size, []⟩ :=
  ⟨hq, (fun _ h => by cases h), rfl, rfl⟩

/-- Selecting one more slice within its block keeps the invariant, when its stream and the new
queue's follow the instructions selected so far. -/
theorem selectInv_select {selected queue : List TBSlice} {x : TBSlice} {s : Nat}
    (hsel : ∀ sl ∈ selected, sl.InBlock tbs) (hx : x.InBlock tbs) (hq : ∀ sl ∈ queue, sl.InBlock tbs)
    (hbudget : s + (selected.flatMap (sliceInstsOf tbs)).length + deliverable tbs x = size)
    (hitems : (selected.flatMap (sliceInstsOf tbs)).map (StreamItem.inst ∘ some) ++
      (sliceStream tbs x ++ queueStream tbs queue) = stream) :
    SelectInv tbs size stream ⟨queue, s, selected ++ [x]⟩ := by
  refine ⟨hq, fun sl h => ?_, ?_, ?_⟩
  · rcases List.mem_append.mp h with h | h
    exacts [hsel sl h, (List.mem_singleton.mp h) ▸ hx]
  · simp only [List.flatMap_append, List.length_append, List.flatMap_singleton, length_sliceInstsOf hx]
    omega
  · rw [← hitems, sliceStream_eq, regionEndItem_concat, List.flatMap_append, List.flatMap_singleton]
    simp only [List.map_append, List.append_assoc]

/-- **One iteration keeps the invariant**: the head is selected whole when its charge fits the
budget, and otherwise split where the budget ends. -/
theorem selectStep_inv {sel : Selection} (hrun : sel.running = true)
    (h : SelectInv tbs size stream sel) : SelectInv tbs size stream (selectStep tbs sel) := by
  obtain ⟨queue, s, selected⟩ := sel
  obtain ⟨hq, hsel, hbudget, hitems⟩ := h
  dsimp only at hq hsel hbudget hitems
  simp only [Selection.running, Bool.and_eq_true, Bool.not_eq_true', decide_eq_true_eq] at hrun
  obtain ⟨⟨hs, hne⟩, hend⟩ := hrun
  rw [regionEndItem_of_endOfRegion hend, List.append_nil] at hitems
  cases queue with
  | nil => simp at hne
  | cons cur rest =>
    have hcur := hq cur (List.mem_cons_self _ _)
    have hrest : ∀ sl ∈ rest, sl.InBlock tbs := fun sl h => hq sl (List.mem_cons_of_mem _ h)
    obtain ⟨tb, htb⟩ := Option.isSome_iff_exists.mp hcur.1
    have hcharge : min tb.mcInsts.length cur.size = cur.endIdx.toNat - cur.beginIdx.toNat := by
      have := (charge_of_inBlock hcur).1
      simpa only [charge, sliceInsts, htb, Option.map_some', Option.getD_some] using this
    simp only [queueStream, List.flatMap_cons] at hitems
    simp only [selectStep, htb, hcharge]
    split_ifs with hsplit
    · -- the budget ends inside the head: its front piece is selected, the remainder stays
      obtain ⟨hfront, hdel, hrem, hstream⟩ := split_inBlock hcur hsplit
      dsimp only at hdel
      refine selectInv_select hsel hfront (fun sl h => ?_) (by omega) ?_
      · rcases List.mem_cons.mp h with rfl | h
        exacts [hrem, hrest sl h]
      · rw [← hitems, ← hstream]
        simp only [queueStream, List.flatMap_cons, List.append_assoc]
    · -- the head fits: it is selected whole
      refine selectInv_select hsel hcur hrest (by rw [(charge_of_inBlock hcur).2]; omega) ?_
      rw [← hitems]
      rfl

/-- The loop keeps the invariant, and ends with the loop condition false. -/
theorem selectLoop_inv {fuel : Nat} {sel r : Selection} (h : selectLoop tbs fuel sel = some r)
    (hinv : SelectInv tbs size stream sel) : SelectInv tbs size stream r ∧ r.running = false := by
  induction fuel generalizing sel with
  | zero =>
    simp only [selectLoop] at h
    split_ifs at h with hrun
    cases h
    exact ⟨hinv, by simpa using hrun⟩
  | succ fuel ih =>
    simp only [selectLoop] at h
    split_ifs at h with hrun
    · exact ih h (selectStep_inv hrun hinv)
    · cases h
      exact ⟨hinv, by simpa using hrun⟩

end Selection

/-! ## (3) The delivery block -/

/-- **The delivery block writes exactly the selected instructions** when they fit the size: each
slice's loop stops at `EndIdx`, and the size left over is what the selection did not spend. -/
theorem deliverSlices_inBlock {tbs : List (Option TranslationBlock)} :
    ∀ {selected : List TBSlice} {size : Nat} (d : Delivered), (∀ sl ∈ selected, sl.InBlock tbs) →
      (selected.flatMap (sliceInstsOf tbs)).length ≤ size →
      (deliverSlices tbs selected size d).1 = size - (selected.flatMap (sliceInstsOf tbs)).length ∧
      (deliverSlices tbs selected size d).2.out =
        d.out ++ (selected.flatMap (sliceInstsOf tbs)).map some
  | [], size, d, _, _ => by simp [deliverSlices]
  | sl :: rest, size, d, h, hlen => by
    have hsl := h sl (List.mem_cons_self _ _)
    have hdel := (charge_of_inBlock hsl).2
    have hlen' := length_sliceInstsOf hsl
    obtain ⟨-, hbe, hend⟩ := hsl
    rw [List.flatMap_cons, List.length_append] at hlen
    have hendI : min (sliceInsts tbs sl.index).length sl.endIdx.toNat = sl.endIdx.toNat :=
      Nat.min_eq_right hend
    -- the slice's loop delivers its instructions and returns the size they did not use
    have hloop := deliverLoop_spec (sliceInsts tbs sl.index) sl.endIdx.toNat size sl.beginIdx.toNat
      (sl.memoryAccesses.getD []) d
    have hout := deliverLoop_out_of_le (sliceInsts tbs sl.index) size (sl.memoryAccesses.getD []) d
      hbe hend
    rw [deliverSteps, if_pos hbe] at hloop
    have hsteps : min (sl.endIdx.toNat - sl.beginIdx.toNat) size = deliverable tbs sl := by omega
    rw [hsteps] at hloop hout
    obtain ⟨ih₁, ih₂⟩ := @deliverSlices_inBlock tbs rest (size - deliverable tbs sl)
      (deliverLoop (sliceInsts tbs sl.index) sl.endIdx.toNat size sl.beginIdx.toNat
        (sl.memoryAccesses.getD []) d).2
      (fun sl' h' => h sl' (List.mem_cons_of_mem _ h')) (by omega)
    simp only [deliverSlices, hendI, List.flatMap_cons, List.length_append, List.map_append]
    rw [hloop.1, ih₁, ih₂, hout, List.append_assoc]
    exact ⟨by omega, rfl⟩

/-! ## (4) A call, and consecutive calls -/

theorem clampSize_self (n : Nat) : clampSize n n = n := by simp [clampSize]

/-- `EndOfRegion` is what the call reports. -/
theorem fetchRegionDescriptor_isEnd (selected : List TBSlice) :
    (fetchRegionDescriptor selected).isEnd = endOfRegion selected := by
  unfold fetchRegionDescriptor endOfRegion
  cases selected.getLast? with
  | none => rfl
  | some sl =>
    simp only [Option.bind_eq_bind, Option.some_bind]
    cases sl.region <;> rfl

/-- **An early return hands out nothing**, and on a positive size it reports the end of the
stream. -/
theorem fetchSelect_returns {st : Broker} {n : Nat} {c : Int} {r : RegionDescriptor}
    (h : fetchSelect st n n = .returns c r) : callItems c [] r = [] ∧ (0 < n → r.isEnd = true) := by
  unfold fetchSelect at h
  split_ifs at h with h0
  · cases h; exact ⟨rfl, fun hn => by omega⟩
  · cases h; exact ⟨rfl, fun _ => rfl⟩
  · split at h <;> cases h

/-- A call that selects ran the loop from the whole budget. -/
theorem fetchSelect_selected_size {st : Broker} {n totalSize : Nat} {selected queue : List TBSlice}
    (h : fetchSelect st n n = .selected totalSize selected queue) : totalSize = n := by
  unfold fetchSelect at h
  split_ifs at h
  split at h <;> cases h
  exact clampSize_self n

/-- **A call on a queue of slices within their blocks**, with any exchanger. It hands out a prefix
of the queue's stream and leaves the rest queued, within the same blocks. It returns fewer instructions than its
size only when it ended a region or emptied the queue. -/
theorem fetchRegion_short_only_at_region_end {st : Broker} (hq : ∀ sl ∈ st.tbQueue, sl.InBlock st.tbs)
    {n : Nat} {mde₀ : Option MDExchanger} {count : Int} {rd : RegionDescriptor}
    {out : List (Option MCInstPtr)} {st' : Broker} {mde : Option MDExchanger}
    (h : fetchRegion st n n mde₀ = .returns count rd out st' mde) :
    callItems count out rd ++ queueStream st.tbs st'.tbQueue = queueStream st.tbs st.tbQueue ∧
      st'.tbs = st.tbs ∧ (∀ sl ∈ st'.tbQueue, sl.InBlock st.tbs) ∧
      (out.length < n → rd.isEnd = true ∨ st'.tbQueue = []) := by
  unfold fetchRegion at h
  cases hsel : fetchSelect st n n with
  | waits => rw [hsel] at h; cases h
  | spins => rw [hsel] at h; cases h
  | returns c r =>
    rw [hsel] at h
    cases h
    obtain ⟨hnil, hend⟩ := fetchSelect_returns hsel
    exact ⟨by rw [hnil]; rfl, rfl, hq, fun hn => .inl (hend hn)⟩
  | selected totalSize selected queue =>
    rw [hsel] at h
    cases h
    obtain rfl := fetchSelect_selected_size hsel
    obtain ⟨r, hr, rfl, rfl⟩ := fetchSelect_eq_selected hsel
    rw [clampSize_self] at hr
    obtain ⟨⟨hq', hsel', hbudget, hitems⟩, hstop⟩ :=
      selectLoop_inv hr (@selectInv_init st.tbs totalSize st.tbQueue hq)
    obtain ⟨hleft, hout⟩ := @deliverSlices_inBlock st.tbs r.selectedSlices totalSize
      ⟨[], st.totalNumTraces, mde₀⟩ hsel' (by omega)
    -- the call counts the selected instructions, all of which it writes
    have hcount : (totalSize : Int) - ((deliverSlices st.tbs r.selectedSlices totalSize
        ⟨[], st.totalNumTraces, mde₀⟩).1 : Nat) =
        (r.selectedSlices.flatMap (sliceInstsOf st.tbs)).length := by
      rw [hleft]; omega
    refine ⟨?_, rfl, hq', fun hshort => ?_⟩
    · rw [← hitems, hcount, hout]
      simp only [callItems, List.nil_append, List.map_map, Int.ofNat_nonneg, true_and,
        ← regionEndItem_eq_descriptor]
    · -- the loop stopped with budget left: the queue ran out or a region ended
      rw [hout, List.nil_append, List.length_map] at hshort
      simp only [Selection.running, Bool.and_eq_false_iff, decide_eq_false_iff_not,
        Bool.not_eq_false', List.isEmpty_iff] at hstop
      rcases hstop with (hs | hempty) | hend
      · omega
      · exact .inr hempty
      · exact .inl ((fetchRegionDescriptor_isEnd _).trans hend)

/-- Two blocks, each executed once through a region that closes inside it: the queue holds
`[0, 2)` of block 0, closing `r1`, and `[0, 2)` of block 1, closing `r2`. -/
def regionBroker : Broker :=
  receiveAll ⟨byteTarget, [⟨"r1", 0, 1⟩, ⟨"r2", 2, 3⟩]⟩ Broker.init
    [.translatedBlock 0 [[0x90], [0x90], [0x90]], .translatedBlock 1 [[0x90], [0x90]], .metadata 0x1000,
      .execTB 0 0x1000 [], .execTB 1 0x1002 []]

/-- A call of size three returns two instructions, at the end of `r1`. -/
theorem region_call_stops_at_region_end :
    (∀ sl ∈ regionBroker.tbQueue, sl.InBlock regionBroker.tbs) ∧
      fetchRegion regionBroker 3 3 none = .returns 2 ⟨true, "r1"⟩ [some 0, some 1]
        { regionBroker with tbQueue := regionBroker.tbQueue.drop 1, totalNumTraces := 2 } none ∧
      (callItems 2 [some 0, some 1] ⟨true, "r1"⟩ ++
          queueStream regionBroker.tbs (regionBroker.tbQueue.drop 1) =
        queueStream regionBroker.tbs regionBroker.tbQueue ∧
      regionBroker.tbs = regionBroker.tbs ∧
      (∀ sl ∈ regionBroker.tbQueue.drop 1, sl.InBlock regionBroker.tbs) ∧
      ([some 0, some 1].length < 3 → (⟨true, "r1"⟩ : RegionDescriptor).isEnd = true ∨
        regionBroker.tbQueue.drop 1 = [])) :=
  ⟨by decide, rfl, @fetchRegion_short_only_at_region_end regionBroker (by decide) 3 none 2 ⟨true, "r1"⟩
    [some 0, some 1] { regionBroker with tbQueue := regionBroker.tbQueue.drop 1, totalNumTraces := 2 }
    none rfl⟩

/-- **Consecutive calls deliver the queue's stream piece by piece.** On a queue of slices within
their blocks, whatever the sizes of the calls and the consumer's exchanger, what the calls hand
out followed by the stream of what is still queued is the stream the queue started with: every
instruction in order, each region end after its region's last instruction, nothing read past a
block, lost, repeated or reordered. -/
theorem fetchRun_delivers_queueStream :
    ∀ (st : Broker) (mde : Option MDExchanger) (ns : List Nat), (∀ sl ∈ st.tbQueue, sl.InBlock st.tbs) →
      delivered (fetchRun st mde ns).1 ++ queueStream st.tbs (fetchRun st mde ns).2.tbQueue =
        queueStream st.tbs st.tbQueue
  | _, _, [], _ => rfl
  | st, mde, n :: ns, hq => by
    cases h : fetchRegion st n n mde with
    | returns count rd out st' mde' =>
      obtain ⟨hitems, htbs, hq', -⟩ := fetchRegion_short_only_at_region_end hq h
      have ih := fetchRun_delivers_queueStream st' mde' ns (htbs ▸ hq')
      simp only [fetchRun, h, delivered, List.flatMap_cons] at ih ⊢
      rw [List.append_assoc, ← htbs, ih, htbs, hitems]
    | waits => simp [fetchRun, h, delivered]
    | spins => simp [fetchRun, h, delivered]

/-- Calls of sizes one, three and three on `regionBroker`. -/
theorem region_calls_deliver_queueStream :
    (∀ sl ∈ regionBroker.tbQueue, sl.InBlock regionBroker.tbs) ∧
      delivered (fetchRun regionBroker none [1, 3, 3]).1 ++
          queueStream regionBroker.tbs (fetchRun regionBroker none [1, 3, 3]).2.tbQueue =
        queueStream regionBroker.tbs regionBroker.tbQueue :=
  ⟨by decide, fetchRun_delivers_queueStream regionBroker none [1, 3, 3] (by decide)⟩

/-- What the three calls hand out: one instruction, then the rest of `r1` and its end, then `r2`. -/
example : (fetchRun regionBroker none [1, 3, 3]).1.map Prod.fst = [1, 1, 2] ∧
    delivered (fetchRun regionBroker none [1, 3, 3]).1 =
      [.inst (some 0), .inst (some 1), .regionEnd "r1", .inst (some 3), .inst (some 4), .regionEnd "r2"] :=
  ⟨rfl, rfl⟩

end McadBroker
