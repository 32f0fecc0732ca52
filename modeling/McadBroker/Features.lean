import McadBroker.Regions
import McadBroker.Registration

/-! # What the broker advertises and what it reports

`QemuBroker::getFeatures` tells the simulator that the broker supplies metadata, and also regions
when a manifest with at least one region was loaded. A `fetchRegion` call reports the end of a
region when the last slice it selected closes one. This file shows that the two agree over every
run: every region a slice closes, and the region the tracker is inside, belongs to the manifest.

* **`getFeatures`** — the advertised features.
* **`RegionsFromManifest`** — `CurBinRegion` and the `Region` of every queued or selected slice are
  regions of the manifest; every step keeps it (`step_regionsFromManifest`).
* **`reported_region_end_is_manifest_region`** — in every reachable state, a call in progress
  reports the end of a region only for a region of the manifest, and only when the broker
  advertises `Feature_Region`. -/

namespace McadBroker

/-! ## (1) The features -/

/-- Modelled from the spec: the `Broker::Feature` bits the plugin sets (`Brokers/Broker.h` is not
among the sources). -/
structure Features where
  /-- `Feature_Metadata`. -/
  metadata : Bool
  /-- `Feature_Region`. -/
  region : Bool
  deriving DecidableEq, Repr

/-- **`QemuBroker::getFeatures`**: `Feature_Metadata`, and `Feature_Region` when `BinRegions` is
set and holds a region. A manifest that failed to load leaves `BinRegions` null, which the model
reads as no regions. -/
def getFeatures (cfg : BrokerConfig) : Features := ⟨true, !cfg.binRegions.isEmpty⟩

/-! ## (2) Regions come from the manifest -/

/-- A region the broker holds is one of the manifest's. -/
def FromManifest (cfg : BrokerConfig) (region : Option BinaryRegion) : Prop :=
  ∀ r, region = some r → r ∈ cfg.binRegions

theorem fromManifest_none (cfg : BrokerConfig) : FromManifest cfg none := fun _ h => by cases h

/-- The start scan finds only regions of the manifest. -/
theorem findRegionStart_mem {regions : List BinaryRegion} {va : UInt64} {k : Nat}
    {r : BinaryRegion} : ∀ {offsets : List UInt8} {i : Nat},
      findRegionStart regions va offsets i = some (k, r) → r ∈ regions
  | [], _, h => by cases h
  | _ :: _, _, h => by
    simp only [findRegionStart] at h
    split at h
    · rename_i r' hr
      simp only [Option.some.injEq, Prod.mk.injEq] at h
      rw [← h.2]
      exact List.mem_of_find?_eq_some hr
    · exact findRegionStart_mem h

/-- **Region handling names only the region it was in and regions of the manifest**: both the
region the cut slice closes and the next `CurBinRegion`. -/
theorem regionCut_regions (regions : List BinaryRegion) (cur : Option BinaryRegion)
    (codeStart : UInt64) (tb : TranslationBlock) (r : BinaryRegion)
    (h : (regionCut regions cur codeStart tb).region = some r ∨
      (regionCut regions cur codeStart tb).curBinRegion = some r) :
    cur = some r ∨ r ∈ regions := by
  cases hne : regions.isEmpty
  · by_cases hcs : tb.vAddr ≥ codeStart
    · cases cur with
      | some q =>
        cases hj : findRegionEnd q.endAddr (tb.vAddr - codeStart) tb.vAddrOffsets 0 <;>
          simp [regionCut, hne, hcs, hj] at h <;> simp [h]
      | none =>
        cases hk : findRegionStart regions (tb.vAddr - codeStart) tb.vAddrOffsets 0 with
        | none => simp [regionCut, hne, hcs, hk] at h
        | some p =>
          obtain ⟨k, q⟩ := p
          have hq := findRegionStart_mem hk
          cases hj : findRegionEnd q.endAddr (tb.vAddr - codeStart) (tb.vAddrOffsets.drop k) k <;>
            simp [regionCut, hne, hcs, hk, hj] at h <;> subst h <;> simp [hq]
    · cases cur <;> simp [regionCut, hne, hcs] at h
      simp [h]
  · simp [regionCut, hne] at h; simp [h]

theorem regionCut_fromManifest (cfg : BrokerConfig) {cur : Option BinaryRegion} (codeStart : UInt64)
    (tb : TranslationBlock) (h : FromManifest cfg cur) :
    FromManifest cfg (regionCut cfg.binRegions cur codeStart tb).region ∧
      FromManifest cfg (regionCut cfg.binRegions cur codeStart tb).curBinRegion := by
  have key : ∀ r, _ → r ∈ cfg.binRegions := fun r hr =>
    (regionCut_regions cfg.binRegions cur codeStart tb r hr).elim (h r) id
  exact ⟨fun r hr => key r (.inl hr), fun r hr => key r (.inr hr)⟩

/-- **Handling a message keeps the tracker and the queue inside the manifest.** Only `tbExec`
touches either: it moves the tracker and queues at most one slice, both by region handling. -/
theorem handleMessage_fromManifest (cfg : BrokerConfig) (st : Broker) (m : Message)
    (hcur : FromManifest cfg st.curBinRegion) (hq : ∀ sl ∈ st.tbQueue, FromManifest cfg sl.region) :
    FromManifest cfg (handleMessage cfg st m).curBinRegion ∧
      ∀ sl ∈ (handleMessage cfg st m).tbQueue, FromManifest cfg sl.region := by
  cases m with
  | metadata => exact ⟨hcur, hq⟩
  | translatedBlock => exact ⟨hcur, hq⟩
  | execTB index pc fbMAs =>
    cases hsig : isEndSignal index pc
    · cases htb : registeredTB st.tbs index.toNat with
      | none => rw [handleMessage, tbExec_of_unregistered cfg st fbMAs hsig htb]; exact ⟨hcur, hq⟩
      | some tb =>
        rw [handleMessage, tbExec_of_registered cfg st fbMAs hsig htb]
        obtain ⟨hreg, hnext⟩ := regionCut_fromManifest cfg st.codeStartAddress
          (translateForExec cfg.target tb pc st.nextMCInst).1 hcur
        refine ⟨hnext, fun sl hsl => ?_⟩
        rcases List.mem_append.mp hsl with hsl | hsl
        · exact hq sl hsl
        · unfold cutSlices at hsl
          split_ifs at hsl
          · cases hsl
          · rw [List.mem_singleton.mp hsl]; exact hreg
    · rw [handleMessage, tbExec_of_isEndSignal fbMAs hsig]; exact ⟨hcur, hq⟩

section Selection

variable {tbs : List (Option TranslationBlock)}

/-- **The selection gives no slice a region it did not have**: it moves slices whole, the
remainder of a split keeps its region, and the front piece is selected without one. -/
theorem selectStep_regions (sel : Selection) :
    ((selectStep tbs sel).tbQueue ++ (selectStep tbs sel).selectedSlices).map TBSlice.region ⊆
      none :: (sel.tbQueue ++ sel.selectedSlices).map TBSlice.region := by
  obtain ⟨queue, s, selected⟩ := sel
  cases queue with
  | nil => exact List.subset_cons_of_subset _ (List.Subset.refl _)
  | cons cur rest =>
    cases htb : registeredTB tbs cur.index with
    | none => simp only [selectStep, htb]; exact List.subset_cons_of_subset _ (List.Subset.refl _)
    | some tb =>
      simp only [selectStep, htb]
      split_ifs <;> intro x <;> simp only [List.cons_append, List.map_cons, List.map_append,
        List.mem_cons, List.mem_append, List.mem_singleton, List.map_nil, List.not_mem_nil, or_false,
        TBSlice.split_snd_region]
      · -- the remainder keeps the head's region; the front piece has none
        rintro (h | h | h | h)
        exacts [.inr (.inl h), .inr (.inr (.inl h)), .inr (.inr (.inr h)), .inl h]
      · rintro (h | h | h)
        exacts [.inr (.inr (.inl h)), .inr (.inr (.inr h)), .inr (.inl h)]

theorem selectLoop_regions {fuel : Nat} {sel r : Selection} (h : selectLoop tbs fuel sel = some r) :
    (r.tbQueue ++ r.selectedSlices).map TBSlice.region ⊆
      none :: (sel.tbQueue ++ sel.selectedSlices).map TBSlice.region := by
  induction fuel generalizing sel with
  | zero =>
    simp only [selectLoop] at h
    split_ifs at h; cases h; exact List.subset_cons_of_subset _ (List.Subset.refl _)
  | succ fuel ih =>
    simp only [selectLoop] at h
    split_ifs at h
    · exact List.Subset.trans (ih h)
        (List.cons_subset.mpr ⟨List.mem_cons_self _ _, selectStep_regions sel⟩)
    · cases h; exact List.subset_cons_of_subset _ (List.Subset.refl _)

end Selection

/-- A call's first block selects and leaves queued only slices whose regions come from the
manifest, when the queue's do. -/
theorem fetchSelect_fromManifest {cfg : BrokerConfig} {st : Broker} {outLen : Nat} {size : Int}
    {totalSize : Nat} {selected queue : List TBSlice}
    (h : fetchSelect st outLen size = .selected totalSize selected queue)
    (hq : ∀ sl ∈ st.tbQueue, FromManifest cfg sl.region) :
    ∀ sl ∈ queue ++ selected, FromManifest cfg sl.region := by
  unfold fetchSelect at h
  split_ifs at h
  split at h
  · rename_i sel hsel
    cases h
    intro sl hsl r hr
    have hmem := selectLoop_regions hsel (List.mem_map_of_mem TBSlice.region hsl)
    rw [hr] at hmem
    simp only [List.append_nil, List.mem_cons, List.mem_map] at hmem
    rcases hmem with hnone | ⟨sl', hsl', hr'⟩
    · cases hnone
    · exact hq sl' hsl' r hr'
  · cases h

/-! ## (3) The system -/

/-- **The region invariant**: the tracker's region, and the region every queued or selected slice
closes, are regions of the manifest. -/
structure RegionsFromManifest (cfg : BrokerConfig) (sys : System) : Prop where
  cur : FromManifest cfg sys.broker.curBinRegion
  slices : ∀ sl ∈ sys.broker.tbQueue ++ sys.consumer.selected, FromManifest cfg sl.region

theorem regionsFromManifest_init (cfg : BrokerConfig) (mde : Option MDExchanger) :
    RegionsFromManifest cfg (System.init mde) :=
  ⟨fromManifest_none cfg, fun _ h => by cases h⟩

/-- **Every step keeps the region invariant.** -/
theorem step_regionsFromManifest {cfg : BrokerConfig} {sys sys' : System} {e : Event}
    (hstep : step cfg sys e = some sys') (h : RegionsFromManifest cfg sys) :
    RegionsFromManifest cfg sys' := by
  obtain ⟨hcur, hsl⟩ := h
  have hq : ∀ sl ∈ sys.broker.tbQueue, FromManifest cfg sl.region :=
    fun sl h => hsl sl (List.mem_append_left _ h)
  have hs : ∀ sl ∈ sys.consumer.selected, FromManifest cfg sl.region :=
    fun sl h => hsl sl (List.mem_append_right _ h)
  cases e with
  | recv m =>
    cases hstep
    obtain ⟨hcur', hq'⟩ := handleMessage_fromManifest cfg sys.broker m hcur hq
    exact ⟨hcur', fun sl h => (List.mem_append.mp h).elim (hq' sl) (hs sl)⟩
  | fetchBegin outLen size =>
    simp only [step] at hstep
    split at hstep <;> cases hstep
    · exact ⟨hcur, hsl⟩
    · rename_i hsel
      exact ⟨hcur, fetchSelect_fromManifest hsel hq⟩
  | fetchEnd =>
    simp only [step] at hstep
    split at hstep <;> cases hstep
    exact ⟨hcur, fun sl h => hq sl (by simpa [System.deliver, Consumer.selected] using h)⟩

/-- **A call reports the end of a region only for a region of the manifest, and only when the
broker advertises `Feature_Region`.** In every state any interleaving of received messages and
`fetchRegion` blocks reaches, suppose a call sits between its two blocks and its descriptor will be
`EndOfRegion`. Then the description it carries is that of a region of the loaded manifest, and
`getFeatures` includes `Feature_Region`. So a broker without a manifest never ends a region. -/
theorem reported_region_end_is_manifest_region (cfg : BrokerConfig) (mde : Option MDExchanger)
    {sys : System} (hreach : Reachable cfg mde sys) {totalSize : Nat} {selected : List TBSlice}
    (hcall : sys.consumer = .delivering totalSize selected)
    (hend : (fetchRegionDescriptor selected).isEnd = true) :
    (getFeatures cfg).region = true ∧
      ∃ r ∈ cfg.binRegions, (fetchRegionDescriptor selected).description = r.description := by
  obtain ⟨evs, hrun⟩ := hreach
  have hinv := run_invariant cfg (RegionsFromManifest cfg) evs
    (fun _ _ _ _ h hstep => step_regionsFromManifest hstep h) (regionsFromManifest_init cfg mde) hrun
  unfold fetchRegionDescriptor at hend ⊢
  split at hend
  · rename_i r hr
    obtain ⟨sl, hlast, hreg⟩ := Option.bind_eq_some.mp hr
    have hmem : r ∈ cfg.binRegions := hinv.slices sl
      (List.mem_append_right _ (by rw [hcall]; exact List.mem_of_getLast?_eq_some hlast)) r hreg
    exact ⟨by simpa [getFeatures, List.isEmpty_iff] using List.ne_nil_of_mem hmem, r, hmem, rfl⟩
  · cases hend

/-- The events of the two-region block: register, load, execute, then a call of size four. -/
def regionCallEvents : List Event := twoRegionMessages.map .recv ++ [.fetchBegin 4 4]

/-- The system those events reach: the call has selected the slice `[0, 2)` closing `r1`. -/
def regionCallSystem : System :=
  ⟨⟨[some ⟨[[0x90], [0x90], [0x90], [0x90]], [0, 1, 2, 3], [], 0x1000, [0, 1, 2, 3]⟩], [], false,
      none, 0x1000, 0, 4⟩,
    .delivering 4 [⟨0, 0, 2, some ⟨"r1", 0, 1⟩, none⟩], none⟩

/-- The theorem on the call that ends `r1`. -/
theorem reported_region_end_two_regions :
    Reachable twoRegionConfig none regionCallSystem ∧
    regionCallSystem.consumer = .delivering 4 [⟨0, 0, 2, some ⟨"r1", 0, 1⟩, none⟩] ∧
    (fetchRegionDescriptor [⟨0, 0, 2, some ⟨"r1", 0, 1⟩, none⟩]).isEnd = true ∧
    ((getFeatures twoRegionConfig).region = true ∧
      ∃ r ∈ twoRegionConfig.binRegions,
        (fetchRegionDescriptor [⟨0, 0, 2, some ⟨"r1", 0, 1⟩, none⟩]).description = r.description) :=
  have hreach : Reachable twoRegionConfig none regionCallSystem := ⟨regionCallEvents, rfl⟩
  ⟨hreach, rfl, rfl, reported_region_end_is_manifest_region twoRegionConfig none hreach rfl rfl⟩

end McadBroker
