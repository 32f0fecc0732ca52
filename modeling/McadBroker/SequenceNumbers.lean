import McadBroker.Metadata

/-! # Sequence numbers

`fetchRegion` numbers every instruction it delivers with `++TotalNumTraces`, a `uint32_t` that lives
as long as the broker; the number is the key the instruction's memory access is filed under in
`IndexMap` and `MemAccessCat`.

* **`runNumbers`** — the numbers a run of the system hands out, in delivery order.
* **`runNumbers_counts`** — entry `p` of a run's numbers is `TotalNumTraces + p + 1` in `uint32_t`,
  from the counter the run starts with: a step lemma for each event, composed over the run.
* From the initial state the `i`-th number is `(i + 1) mod 2^32`, so the numbers strictly increase
  for the first `2^32 - 1` deliveries and repeat after `2^32`; **`execFetchOne`** is a cycle of one
  execution and one fetch that delivers one instruction and returns to the same state. -/

namespace McadBroker

/-! ## (1) The numbers a run hands out -/

/-- The sequence numbers one step hands out, in delivery order. -/
def stepNumbers (sys : System) : Event → List UInt32
  | .fetchEnd => (deliveryRows sys).map DeliveryRow.seq
  | _ => []

/-- The sequence numbers a run hands out, in order; `none` if the run cannot happen. -/
def runNumbers (cfg : BrokerConfig) : System → List Event → Option (List UInt32)
  | _, [] => some []
  | sys, e :: evs =>
    match McadBroker.step cfg sys e with
    | some sys' => (runNumbers cfg sys' evs).map (stepNumbers sys e ++ ·)
    | none => none

/-- Numbers counted on from `tnt` in `uint32_t`: entry `p` is `tnt + p + 1`. -/
def CountsFrom (tnt : UInt32) (ns : List UInt32) : Prop :=
  ∀ p x, ns.get? p = some x → x.toNat = (tnt.toNat + p + 1) % 4294967296

/-- Counting on from where a count ended continues it. -/
theorem CountsFrom.append {tnt tnt' : UInt32} {ns₁ ns₂ : List UInt32} (h₁ : CountsFrom tnt ns₁)
    (ht : tnt'.toNat = (tnt.toNat + ns₁.length) % 4294967296) (h₂ : CountsFrom tnt' ns₂) :
    CountsFrom tnt (ns₁ ++ ns₂) := by
  intro p x hx
  rw [List.get?_eq_getElem?] at hx
  by_cases hp : p < ns₁.length
  · rw [List.getElem?_append_left hp] at hx
    exact h₁ p x (by rwa [List.get?_eq_getElem?])
  · rw [List.getElem?_append_right (by omega)] at hx
    have := h₂ _ x (by rwa [List.get?_eq_getElem?])
    omega

/-- Handling a message leaves the counter alone. -/
theorem handleMessage_totalNumTraces (cfg : BrokerConfig) (st : Broker) (m : Message) :
    (handleMessage cfg st m).totalNumTraces = st.totalNumTraces := by
  cases m with
  | metadata => rfl
  | translatedBlock => rfl
  | execTB index pc fbMAs =>
    simp only [handleMessage, tbExec]
    split_ifs
    · rfl
    · split
      · rfl
      · split_ifs <;> rfl

/-- **One step counts on**: a `fetchEnd` hands out the next numbers and moves the counter past
them; the other events hand out none. -/
theorem step_counts {cfg : BrokerConfig} {sys sys' : System} {e : Event}
    (h : McadBroker.step cfg sys e = some sys') :
    sys'.broker.totalNumTraces.toNat =
        (sys.broker.totalNumTraces.toNat + (stepNumbers sys e).length) % 4294967296 ∧
      CountsFrom sys.broker.totalNumTraces (stepNumbers sys e) := by
  have hlt : sys.broker.totalNumTraces.toNat < 4294967296 := sys.broker.totalNumTraces.toBitVec.isLt
  have hnil : CountsFrom sys.broker.totalNumTraces [] := fun p x hx => by simp at hx
  cases e with
  | recv m =>
    cases h
    exact ⟨by simp only [handleMessage_totalNumTraces, stepNumbers, List.length_nil]; omega, hnil⟩
  | fetchBegin outLen size =>
    simp only [McadBroker.step] at h
    split at h <;> cases h <;> exact ⟨by simp only [stepNumbers, List.length_nil]; omega, hnil⟩
  | fetchEnd =>
    simp only [McadBroker.step] at h
    split at h
    · rename_i totalSize selected hc
      cases h
      refine ⟨?_, fun p x hx => ?_⟩
      · simp only [System.deliver, deliver_eq_rows hc, stepNumbers, List.length_map,
          uint32_toNat_add, uint32_toNat_ofNat]
        omega
      · simp only [stepNumbers, List.get?_eq_getElem?, List.getElem?_map, Option.map_eq_some'] at hx
        obtain ⟨row, hrow, rfl⟩ := hx
        simp only [deliveryRows, hc] at hrow
        exact deliverSlicesRows_seq (by rwa [List.get?_eq_getElem?])
    · cases h

/-- **Every run counts its deliveries on from the counter it starts with.** -/
theorem runNumbers_counts {cfg : BrokerConfig} :
    ∀ {sys : System} {evs : List Event} {ns : List UInt32},
      runNumbers cfg sys evs = some ns → CountsFrom sys.broker.totalNumTraces ns
  | sys, [], ns, h => by cases h; exact fun p x hx => by simp at hx
  | sys, e :: evs, ns, h => by
    simp only [runNumbers] at h
    split at h
    · rename_i sys' hstep
      obtain ⟨ns', hns', rfl⟩ := Option.map_eq_some'.mp h
      exact (step_counts hstep).2.append (step_counts hstep).1 (runNumbers_counts hns')
    · cases h

/-! ## (2) From the initial state -/

/-- **The `i`-th delivered instruction is numbered `(i + 1) mod 2^32`.** Over every run from the
initial state, the numbers are `1, 2, …` in `uint32_t`: strictly increasing while fewer than `2^32`
instructions have been delivered. -/
theorem sequence_numbers_count_deliveries (cfg : BrokerConfig) (mde : Option MDExchanger)
    {evs : List Event} {ns : List UInt32} (h : runNumbers cfg (System.init mde) evs = some ns) :
    ns = (List.range ns.length).map (fun i => UInt32.ofNat (i + 1)) ∧
      (ns.length < 4294967296 → ns.Pairwise (· < ·)) := by
  have hc := runNumbers_counts h
  have hns : ns = (List.range ns.length).map (fun i => UInt32.ofNat (i + 1)) := by
    refine List.ext_getElem (by simp) fun i h₁ h₂ => UInt32.toNat.inj ?_
    rw [hc i _ (by rw [List.get?_eq_getElem?, List.getElem?_eq_getElem h₁]), List.getElem_map,
      List.getElem_range, uint32_toNat_ofNat,
      show (System.init mde).broker.totalNumTraces.toNat = 0 from rfl, Nat.zero_add]
  refine ⟨hns, fun hlen => ?_⟩
  rw [hns, List.pairwise_map]
  refine (List.pairwise_lt_range _).imp_of_mem fun {a b} ha hb hab => ?_
  have hb' := List.mem_range.mp hb
  show (UInt32.ofNat (a + 1)).toNat < (UInt32.ofNat (b + 1)).toNat
  rw [uint32_toNat_ofNat, uint32_toNat_ofNat]
  omega

theorem two_deliveries_numbered :
    runNumbers byteConfig (System.init none) [.recv (.translatedBlock 0 [[0x90, 0x90]]),
        .recv (.execTB 0 0x1000 []), .fetchBegin 2 2, .fetchEnd] = some [1, 2] ∧
      [1, 2] = (List.range [1, 2].length).map (fun i => UInt32.ofNat (i + 1)) ∧
      ([1, 2].length < 4294967296 → ([1, 2] : List UInt32).Pairwise (· < ·)) :=
  have h : runNumbers byteConfig (System.init none) [.recv (.translatedBlock 0 [[0x90, 0x90]]),
      .recv (.execTB 0 0x1000 []), .fetchBegin 2 2, .fetchEnd] = some [1, 2] := by decide
  ⟨h, sequence_numbers_count_deliveries byteConfig none h⟩

/-! ## (3) A run of `2^32 + 1` deliveries -/

/-- A run continued: the numbers of the first part, then those of the rest from where it ended. -/
theorem runNumbers_append {cfg : BrokerConfig} :
    ∀ {sys s₁ : System} {evs₁ : List Event} {ns₁ : List UInt32} (evs₂ : List Event),
      run cfg sys evs₁ = some s₁ → runNumbers cfg sys evs₁ = some ns₁ →
      runNumbers cfg sys (evs₁ ++ evs₂) = (runNumbers cfg s₁ evs₂).map (ns₁ ++ ·)
  | sys, s₁, [], ns₁, evs₂, h₁, h₂ => by
    cases h₁; cases h₂; simp only [List.nil_append, Option.map_id']
  | sys, s₁, e :: evs, ns₁, evs₂, h₁, h₂ => by
    simp only [run, runNumbers, List.cons_append, List.append_eq] at h₁ h₂ ⊢
    split at h₁
    · rename_i s hs
      simp only [hs] at h₂ ⊢
      obtain ⟨n', hn', rfl⟩ := Option.map_eq_some'.mp h₂
      rw [runNumbers_append evs₂ h₁ hn', Option.map_map]
      simp only [Function.comp_def, List.append_assoc]
    · cases h₁

/-- An execution of block 0 followed by a `fetchRegion` call for one instruction. -/
def execFetchOne : List Event := [.recv (.execTB 0 0x1000 []), .fetchBegin 1 1, .fetchEnd]

/-- The system between two such cycles with counter `tnt`: block 0 decoded to one instruction,
the queue empty. -/
def cycleState (tnt : UInt32) : System :=
  ⟨⟨[some ⟨[[0x90]], [0], [], 0x1000, [0]⟩], [], false, none, 0, tnt, 1⟩, .idle, none⟩

/-- A cycle delivers one instruction, numbered `tnt + 1`, and returns to the same state with the
counter one up. -/
theorem run_execFetchOne (tnt : UInt32) :
    run byteConfig (cycleState tnt) execFetchOne = some (cycleState (tnt + 1)) ∧
      runNumbers byteConfig (cycleState tnt) execFetchOne = some [tnt + 1] :=
  ⟨rfl, rfl⟩

/-- `n` cycles hand out `n` numbers. -/
theorem runNumbers_cycles : ∀ (n : Nat) (tnt : UInt32), ∃ ns,
    runNumbers byteConfig (cycleState tnt) (List.replicate n execFetchOne).flatten = some ns ∧
      ns.length = n
  | 0, _ => ⟨[], rfl, rfl⟩
  | n + 1, tnt => by
    obtain ⟨ns, h, hlen⟩ := runNumbers_cycles n (tnt + 1)
    refine ⟨[tnt + 1] ++ ns, ?_, by rw [List.length_append, hlen, List.length_singleton, Nat.add_comm]⟩
    rw [List.replicate_succ, List.flatten_cons, runNumbers_append _ (run_execFetchOne tnt).1
      (run_execFetchOne tnt).2, h]
    rfl

/-- A block registered, then `2^32 + 1` cycles. -/
def wrapEvents : List Event :=
  (.recv (.translatedBlock 0 [[0x90]]) :: execFetchOne) ++
    (List.replicate 4294967296 execFetchOne).flatten

/-- **The counter wraps**: after a block is registered, `2^32 + 1` cycles each deliver one
instruction, and the first and the last are both numbered 1. -/
theorem sequence_number_repeats_after_2_32 :
    ∃ ns, runNumbers byteConfig (System.init none) wrapEvents = some ns ∧
      ns.get? 0 = some 1 ∧ ns.get? 4294967296 = some 1 := by
  obtain ⟨ns, h, hlen⟩ := runNumbers_cycles 4294967296 1
  have hfirst : run byteConfig (System.init none) (.recv (.translatedBlock 0 [[0x90]]) :: execFetchOne) =
      some (cycleState 1) := rfl
  have hall : runNumbers byteConfig (System.init none) wrapEvents = some ([1] ++ ns) := by
    rw [wrapEvents, runNumbers_append _ hfirst rfl, h]
    rfl
  have hb : 4294967296 < ([1] ++ ns).length := by simp [hlen]
  have hx := runNumbers_counts hall 4294967296 _
    (by rw [List.get?_eq_getElem?, List.getElem?_eq_getElem hb])
  refine ⟨[1] ++ ns, hall, rfl, ?_⟩
  rw [List.get?_eq_getElem?, List.getElem?_eq_getElem hb]
  exact congrArg some (UInt32.toNat.inj hx)

end McadBroker
