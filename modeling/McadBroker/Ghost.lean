import Mathlib.Data.List.Forall2
import McadBroker.Registration

/-! # Ghost state beside the queue

What the code forgets about a queued slice — the block it was cut from, the chain it had when it
was queued — is carried beside the system as ghost state: one ghost per queued slice and one per
selected slice, moved as the selection moves and splits slices. The real step never reads them.

* **`Ghost`** — what a kind of ghost does when a message queues slices and when a split cuts a
  front piece off a slice.
* **`traceSelectLoop`** — the ghosts beside the selection loop; `traceSelectLoop_rel` carries every
  relation that splits keep through the loop.
* **`Traced`**, **`tstep`**, **`trun`** — the system with its ghosts. `trun_sys` shows the ghosts do
  not change the run; `tstep_fetch_ghostsHold` that a call's two blocks keep every relation between
  slices and ghosts that splits keep. -/

namespace McadBroker

/-! ## (1) The selection, traced -/

/-- **A kind of ghost state**: the ghosts of the slices a message queues, and the ghost a split
gives its front piece (the remainder keeps the slice's). -/
structure Ghost (α : Type) where
  /-- The ghosts of the slices a message appends to `TBQueue`, given the broker before it. -/
  onQueue : BrokerConfig → Broker → Message → List α
  /-- The ghost of the front piece cut off a slice at a split point. -/
  onSplit : TBSlice → UInt16 → α → α

/-- The ghosts of the queue and of the selected slices after one selection step: a selected head
takes its ghost along; a split gives the front piece its ghost and leaves the remainder its own. -/
def traceSelectStep {α : Type} (G : Ghost α) (tbs : List (Option TranslationBlock)) (sel : Selection)
    (os sos : List α) : List α × List α :=
  match sel.tbQueue, os with
  | cur :: _, o :: os' =>
    match registeredTB tbs cur.index with
    | none => (os, sos)
    | some tb =>
      if min tb.mcInsts.length cur.size > sel.s then
        (os, sos ++ [G.onSplit cur (UInt16.ofNat (cur.beginIdx.toNat + sel.s)) o])
      else (os', sos ++ [o])
  | _, _ => (os, sos)

/-- The ghosts beside `selectLoop`, for the same fuel. -/
def traceSelectLoop {α : Type} (G : Ghost α) (tbs : List (Option TranslationBlock)) :
    Nat → Selection → List α → List α → List α × List α
  | 0, _, os, sos => (os, sos)
  | fuel + 1, sel, os, sos =>
    if sel.running then
      traceSelectLoop G tbs fuel (selectStep tbs sel) (traceSelectStep G tbs sel os sos).1
        (traceSelectStep G tbs sel os sos).2
    else (os, sos)

/-- **Splits keep `R`**: both pieces of a split inside a slice stand in `R` to their ghosts. -/
def SplitKeeps {α : Type} (G : Ghost α) (R : TBSlice → α → Prop) : Prop :=
  ∀ cur o s, R cur o → s < cur.size →
    R (cur.split (UInt16.ofNat (cur.beginIdx.toNat + s))).2 o ∧
    R { (cur.split (UInt16.ofNat (cur.beginIdx.toNat + s))).1 with region := none }
      (G.onSplit cur (UInt16.ofNat (cur.beginIdx.toNat + s)) o)

section Selection

variable {α : Type} {G : Ghost α} {R : TBSlice → α → Prop} {tbs : List (Option TranslationBlock)}

theorem traceSelectStep_rel (hsplit : SplitKeeps G R) {sel : Selection} {os sos : List α}
    (hq : List.Forall₂ R sel.tbQueue os) (hs : List.Forall₂ R sel.selectedSlices sos) :
    List.Forall₂ R (selectStep tbs sel).tbQueue (traceSelectStep G tbs sel os sos).1 ∧
    List.Forall₂ R (selectStep tbs sel).selectedSlices (traceSelectStep G tbs sel os sos).2 := by
  obtain ⟨queue, s, selected⟩ := sel
  cases hq with
  | nil => exact ⟨.nil, hs⟩
  | @cons cur o rest os' hcur hrest =>
    cases htb : registeredTB tbs cur.index with
    | none => simp only [selectStep, traceSelectStep, htb]; exact ⟨.cons hcur hrest, hs⟩
    | some tb =>
      simp only [selectStep, traceSelectStep, htb]
      split_ifs with hsplit'
      · have hpieces := hsplit cur o s hcur (by omega)
        exact ⟨.cons hpieces.1 hrest, List.rel_append hs (.cons hpieces.2 .nil)⟩
      · exact ⟨hrest, List.rel_append hs (.cons hcur .nil)⟩

/-- **The traced selection loop keeps every relation that splits keep.** -/
theorem traceSelectLoop_rel (hsplit : SplitKeeps G R) {fuel : Nat} {sel r : Selection}
    {os sos : List α} (h : selectLoop tbs fuel sel = some r) (hq : List.Forall₂ R sel.tbQueue os)
    (hs : List.Forall₂ R sel.selectedSlices sos) :
    List.Forall₂ R r.tbQueue (traceSelectLoop G tbs fuel sel os sos).1 ∧
    List.Forall₂ R r.selectedSlices (traceSelectLoop G tbs fuel sel os sos).2 := by
  induction fuel generalizing sel os sos with
  | zero =>
    simp only [selectLoop] at h
    split_ifs at h; cases h; exact ⟨hq, hs⟩
  | succ fuel ih =>
    simp only [selectLoop] at h
    simp only [traceSelectLoop]
    split_ifs at h ⊢
    · exact ih h (traceSelectStep_rel hsplit hq hs).1 (traceSelectStep_rel hsplit hq hs).2
    · cases h; exact ⟨hq, hs⟩

end Selection

/-- A call's first block that selects ran the selection loop from the whole queue. -/
theorem fetchSelect_eq_selected {st : Broker} {outLen : Nat} {size : Int} {totalSize : Nat}
    {selected queue : List TBSlice}
    (h : fetchSelect st outLen size = .selected totalSize selected queue) :
    ∃ r, selectLoop st.tbs st.tbQueue.length ⟨st.tbQueue, clampSize outLen size, []⟩ = some r ∧
      selected = r.selectedSlices ∧ queue = r.tbQueue := by
  unfold fetchSelect at h
  split_ifs at h
  split at h
  · rename_i r hr
    cases h
    exact ⟨r, hr, rfl, rfl⟩
  · cases h

/-! ## (2) The traced system -/

/-- The system with a ghost for each queued slice and for each selected one. -/
structure Traced (α : Type) where
  /-- The system. -/
  sys : System
  /-- The ghosts of `TBQueue`, in order. -/
  queueGhosts : List α
  /-- The ghosts of the consumer's selected slices, in order. -/
  selectedGhosts : List α

/-- The initial system, with nothing pending. -/
def Traced.init {α : Type} (mde : Option MDExchanger) : Traced α := ⟨System.init mde, [], []⟩

/-- How an event moves the ghosts: a message appends the new slices' ghosts, a call's first block
runs the traced selection, its second block forgets the selected slices. -/
def traceGhosts {α : Type} (G : Ghost α) (cfg : BrokerConfig) (t : Traced α) :
    Event → List α × List α
  | .recv m => (t.queueGhosts ++ G.onQueue cfg t.sys.broker m, t.selectedGhosts)
  | .fetchBegin outLen size =>
    match fetchSelect t.sys.broker outLen size with
    | .selected _ _ _ =>
      traceSelectLoop G t.sys.broker.tbs t.sys.broker.tbQueue.length
        ⟨t.sys.broker.tbQueue, clampSize outLen size, []⟩ t.queueGhosts []
    | _ => (t.queueGhosts, t.selectedGhosts)
  | .fetchEnd => (t.queueGhosts, [])

/-- **One step of the traced system**: the system's step, with the ghosts moved beside it. -/
def tstep {α : Type} (G : Ghost α) (cfg : BrokerConfig) (t : Traced α) (e : Event) :
    Option (Traced α) :=
  (step cfg t.sys e).map fun sys => ⟨sys, (traceGhosts G cfg t e).1, (traceGhosts G cfg t e).2⟩

/-- The events run in order on the traced system. -/
def trun {α : Type} (G : Ghost α) (cfg : BrokerConfig) : Traced α → List Event → Option (Traced α)
  | t, [] => some t
  | t, e :: evs =>
    match tstep G cfg t e with
    | some t' => trun G cfg t' evs
    | none => none

section Traced

variable {α : Type} {G : Ghost α} {cfg : BrokerConfig}

/-- **The ghosts do not change the run**: forgetting them gives `run`. -/
theorem trun_sys : ∀ (t : Traced α) (evs : List Event),
    (trun G cfg t evs).map Traced.sys = run cfg t.sys evs
  | t, [] => rfl
  | t, e :: evs => by
    rw [run_cons]
    simp only [trun, tstep]
    cases step cfg t.sys e with
    | none => rfl
    | some sys => exact trun_sys _ evs

theorem tstep_recv (t : Traced α) (m : Message) :
    tstep G cfg t (.recv m) = some ⟨{ t.sys with broker := handleMessage cfg t.sys.broker m },
      t.queueGhosts ++ G.onQueue cfg t.sys.broker m, t.selectedGhosts⟩ := rfl

/-- Every queued and every selected slice stands in `R` to its ghost, over the blocks the broker
holds. -/
def GhostsHold (R : List (Option TranslationBlock) → TBSlice → α → Prop) (t : Traced α) : Prop :=
  List.Forall₂ (R t.sys.broker.tbs) t.sys.broker.tbQueue t.queueGhosts ∧
    List.Forall₂ (R t.sys.broker.tbs) t.sys.consumer.selected t.selectedGhosts

theorem ghostsHold_init (R : List (Option TranslationBlock) → TBSlice → α → Prop)
    (mde : Option MDExchanger) : GhostsHold R (Traced.init (α := α) mde) := ⟨.nil, .nil⟩

/-- **A call's two blocks keep the blocks and every relation splits keep**: the first selects with
the traced loop, the second forgets the selected slices and their ghosts. -/
theorem tstep_fetch_ghostsHold {R : List (Option TranslationBlock) → TBSlice → α → Prop}
    (hsplit : ∀ tbs, SplitKeeps G (R tbs)) {t t' : Traced α} {e : Event}
    (hstep : tstep G cfg t e = some t') (he : ∀ m, e ≠ .recv m) (h : GhostsHold R t) :
    t'.sys.broker.tbs = t.sys.broker.tbs ∧ GhostsHold R t' := by
  obtain ⟨hq, hs⟩ := h
  cases e with
  | recv m => exact absurd rfl (he m)
  | fetchBegin outLen size =>
    simp only [tstep, step] at hstep
    cases hc : t.sys.consumer with
    | delivering => simp [hc] at hstep
    | idle =>
      cases hsel : fetchSelect t.sys.broker outLen size with
      | selected totalSize selected queue =>
        simp only [hc, hsel, Option.map_some', Option.some.injEq] at hstep
        subst hstep
        obtain ⟨r, hr, rfl, rfl⟩ := fetchSelect_eq_selected hsel
        have hloop := traceSelectLoop_rel (G := G) (hsplit _) hr hq .nil
        refine ⟨rfl, ?_⟩
        simp only [GhostsHold, traceGhosts, hsel]
        exact hloop
      | returns =>
        simp only [hc, hsel, Option.map_some', Option.some.injEq] at hstep
        subst hstep
        refine ⟨rfl, ?_⟩
        simp only [GhostsHold, traceGhosts, hsel]
        exact ⟨hq, hs⟩
      | waits => simp [hc, hsel] at hstep
      | spins => simp [hc, hsel] at hstep
  | fetchEnd =>
    simp only [tstep, step] at hstep
    cases hc : t.sys.consumer with
    | idle => simp [hc] at hstep
    | delivering totalSize selected =>
      simp only [hc, Option.map_some', Option.some.injEq] at hstep
      subst hstep
      exact ⟨rfl, hq, .nil⟩

end Traced

end McadBroker
