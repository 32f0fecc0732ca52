import McadBroker.Receiver

/-! # The receiver thread

`QemuBroker::recvWorker` serves one client at a time. It accepts a connection, runs the
connection's message loop to its end, and closes the client. It then counts the connection
against `MaxNumAcceptedConnection`, where `0` means no limit. A failed `accept` is skipped
without counting. An `accept` that returns descriptor `0` ends the loop, because the loop test is
the descriptor itself. `RecvBuffer` is one array for the whole thread, so each connection starts
from the bytes the previous one left in it.

* **`stopBuffer`, `recvMessageBuffer`, `connectionBuffer`** — the `RecvBuffer` that a breaking
  iteration, a message loop and a whole connection leave behind.
* **`recvWorker`** — the accept loop; **`servedConnections`** — the clients it should serve.
* **`recvConnection_independent_of_recvBuffer`** — with whole size-prefix reads, what a
  connection dispatches does not depend on the bytes it finds in `RecvBuffer`.
* **`recvWorker_serves_connections`** — so the thread dispatches, in order, what each served
  connection dispatches on its own. -/

namespace McadBroker

/-! ## (1) `RecvBuffer` across connections -/

section Buffer

variable (oracle : ReadOracle) (verify : List UInt8 → Bool) (stream : List UInt8)

/-- `RecvBuffer` after an iteration that breaks. Only the size-prefix read writes to it before a
break. That read returned `0` and wrote nothing, or it wrote fewer than 4 bytes and broke on the
short read, or it wrote the whole prefix and the message read behind it broke. A message read
that breaks has failed or returned `0`, so it wrote nothing. -/
def stopBuffer (st : RecvState) : List UInt8 :=
  if st.totalMsgSize = 0 then
    writeAt st.recvBuffer 0 (readBytes stream st.pos (readAt oracle .header stream st.pos 4).toNat)
  else st.recvBuffer

/-- `RecvBuffer` when the `do ... while (!MsgValid)` loop ends, as its last iteration left it. -/
def recvMessageBuffer : Nat → RecvState → List UInt8
  | 0, st => st.recvBuffer
  | fuel + 1, st =>
    match recvIter oracle verify stream st with
    | .stop => stopBuffer oracle stream st
    | .again st => recvMessageBuffer fuel st
    | .valid st => st.recvBuffer

/-- `RecvBuffer` when the connection's `while (true)` loop ends. -/
def recvLoopBuffer : Nat → RecvState → List UInt8
  | 0, st => st.recvBuffer
  | fuel + 1, st =>
    match recvMessage oracle verify stream (stream.length + 1)
        { st with msgBuffer := [], totalMsgSize := 0 } with
    | none => recvMessageBuffer oracle verify stream (stream.length + 1)
        { st with msgBuffer := [], totalMsgSize := 0 }
    | some st => recvLoopBuffer fuel st

/-- The `RecvBuffer` a connection leaves to the next one. -/
def connectionBuffer (recvBuffer : List UInt8) : List UInt8 :=
  recvLoopBuffer oracle verify stream (stream.length + 1) ⟨recvBuffer, [], 0, 0⟩

end Buffer

/-! ## (2) The accept loop -/

/-- What an `accept` call returns: the descriptor, and for a client the peer's side of the
connection. -/
structure Accepted where
  /-- `ClientSocktFD`, negative when `accept` failed. -/
  fd : Int
  /-- How `read` behaves on the connection. -/
  oracle : ReadOracle
  /-- The bytes the client sends. -/
  stream : List UInt8

/-- **`recvWorker`'s accept loop** over the results of successive `accept` calls. When the results
run out, no client connects again and the thread waits in `accept`. Descriptor `0` ends the loop.
A failed `accept` is skipped. A client's connection runs to its end, from the `RecvBuffer` the last
one left, and then `MaxNumAcceptedConnection > 0 && --MaxNumAcceptedConnection == 0` may end the
loop. Returns the dispatched buffers in order. -/
def recvWorker (verify : List UInt8 → Bool) :
    UInt32 → List Accepted → List UInt8 → List (List UInt8)
  | _, [], _ => []
  | maxNum, a :: accepted, recvBuffer =>
    if a.fd = 0 then []
    else if a.fd < 0 then recvWorker verify maxNum accepted recvBuffer
    else
      recvConnection a.oracle verify a.stream recvBuffer ++
        if 0 < maxNum ∧ maxNum - 1 = 0 then []
        else recvWorker verify (if 0 < maxNum then maxNum - 1 else maxNum) accepted
          (connectionBuffer a.oracle verify a.stream recvBuffer)

/-- **The clients the accept loop should serve**: those accepted before descriptor `0`, in order.
That is all of them when `MaxNumAcceptedConnection` is `0`, and the first that many otherwise. -/
def servedConnections (maxNum : UInt32) (accepted : List Accepted) : List Accepted :=
  let clients := (accepted.takeWhile fun a => a.fd != 0).filter fun a => decide (0 < a.fd)
  if maxNum = 0 then clients else clients.take maxNum.toNat

/-! ## (3) Runs that differ only in `RecvBuffer` -/

/-- Two receiver states that differ at most in the bytes `RecvBuffer` holds. -/
structure RecvState.Agree (st₁ st₂ : RecvState) : Prop where
  msgBuffer : st₁.msgBuffer = st₂.msgBuffer
  totalMsgSize : st₁.totalMsgSize = st₂.totalMsgSize
  pos : st₁.pos = st₂.pos
  length₁ : st₁.recvBuffer.length = 128
  length₂ : st₂.recvBuffer.length = 128

/-- Two iterations that end alike, in states that agree. -/
def RecvStep.Agree : RecvStep → RecvStep → Prop
  | .stop, .stop => True
  | .again st₁, .again st₂ => st₁.Agree st₂
  | .valid st₁, .valid st₂ => st₁.Agree st₂
  | _, _ => False

section Agree

variable {oracle : ReadOracle} {verify : List UInt8 → Bool} {stream : List UInt8}

/-- A read never returns more bytes than it was asked for. -/
theorem readAt_toNat_le (oracle : ReadOracle) (site : ReadSite) (stream : List UInt8)
    (pos count : Nat) : (readAt oracle site stream pos count).toNat ≤ count := by
  unfold readAt; split_ifs <;> omega

theorem checkMsg_agree {st₁ st₂ : RecvState} (h : st₁.Agree st₂) :
    (checkMsg verify st₁).Agree (checkMsg verify st₂) := by
  unfold checkMsg; rw [h.msgBuffer]; split_ifs <;> exact h

/-- A message read from two buffers that agree up to `Offset` ends alike: it appends the bytes
before `Offset` and the bytes it read, and these are the same. -/
theorem readBody_agree (hor : WholePrefixReads oracle) {st₁ st₂ : RecvState} (h : st₁.Agree st₂)
    {offset : Nat} (hoff : offset ≤ 128)
    (htake : st₁.recvBuffer.take offset = st₂.recvBuffer.take offset) :
    (readBody oracle verify stream st₁ offset).Agree (readBody oracle verify stream st₂ offset) := by
  obtain ⟨n, hn, -, hnl, -⟩ := @readAt_body_nat oracle stream hor st₁.pos
    (min st₁.totalMsgSize.toNat (128 - offset))
  have hn' := readAt_toNat_le oracle .body stream st₁.pos (min st₁.totalMsgSize.toNat (128 - offset))
  rw [hn, Int.toNat_ofNat] at hn'
  have hlen : (readBytes stream st₁.pos n).length = n := by simp only [readBytes, List.length_take, List.length_drop]; omega
  unfold readBody
  rw [← h.pos, ← h.totalMsgSize, hn]
  dsimp only
  split_ifs
  · trivial
  · trivial
  · have hw : ∀ buf : List UInt8, offset ≤ buf.length →
        (writeAt buf offset (readBytes stream st₁.pos n)).take (n + offset) =
          buf.take offset ++ readBytes stream st₁.pos n := by
      intro buf hb; have := writeAt_take (readBytes stream st₁.pos n) hb; rwa [hlen] at this
    apply checkMsg_agree
    simp only [Int.toNat_ofNat]
    refine ⟨?_, rfl, rfl, ?_, ?_⟩
    · dsimp only
      rw [hw _ (by rw [h.length₁]; omega), hw _ (by rw [h.length₂]; omega), htake, h.msgBuffer]
    · rw [length_writeAt (by rw [hlen, h.length₁]; omega), h.length₁]
    · rw [length_writeAt (by rw [hlen, h.length₂]; omega), h.length₂]

/-- **An iteration from two states that agree ends alike**: the size prefix is read from the
stream, so `TotalMsgSize` and the bytes in front of the message agree. -/
theorem recvIter_agree (hor : WholePrefixReads oracle) {st₁ st₂ : RecvState} (h : st₁.Agree st₂) :
    (recvIter oracle verify stream st₁).Agree (recvIter oracle verify stream st₂) := by
  unfold recvIter
  rw [← h.totalMsgSize]
  split_ifs
  · rw [readHeader_spec hor, readHeader_spec hor, ← h.pos]
    split_ifs with h4
    · obtain ⟨htake₁, hlen₁⟩ := @writeAt_header stream st₁.recvBuffer st₁.pos (by rw [h.length₁]; omega) h4
      obtain ⟨htake₂, hlen₂⟩ := @writeAt_header stream st₂.recvBuffer st₁.pos (by rw [h.length₂]; omega) h4
      refine readBody_agree hor ?_ (by omega) (htake₁.trans htake₂.symm)
      refine ⟨h.msgBuffer, ?_, rfl, by rw [hlen₁, h.length₁], by rw [hlen₂, h.length₂]⟩
      have hscalar : ∀ buf : List UInt8, (writeAt buf 0 (readBytes stream st₁.pos 4)).take 4 =
          readBytes stream st₁.pos 4 →
          readScalar (writeAt buf 0 (readBytes stream st₁.pos 4)) = readScalar (readBytes stream st₁.pos 4) :=
        fun buf hb => by rw [← readScalar_take _ (le_refl 4), hb]
      exact (hscalar _ htake₁).trans (hscalar _ htake₂).symm
    · trivial
  · exact readBody_agree hor h (by omega) (by simp)

theorem recvMessage_agree (hor : WholePrefixReads oracle) :
    ∀ {fuel : Nat} {st₁ st₂ : RecvState}, st₁.Agree st₂ →
      Option.Rel RecvState.Agree (recvMessage oracle verify stream fuel st₁)
        (recvMessage oracle verify stream fuel st₂)
  | 0, _, _, _ => .none
  | fuel + 1, st₁, st₂, h => by
    have hit := @recvIter_agree oracle verify stream hor st₁ st₂ h
    revert hit
    simp only [recvMessage]
    cases recvIter oracle verify stream st₁ <;> cases recvIter oracle verify stream st₂ <;> intro hit
    all_goals first | exact (hit : False).elim | exact .none | exact .some hit | exact recvMessage_agree hor hit

/-- The connection's loop from two states at the same position dispatches the same buffers. -/
theorem recvLoop_agree (hor : WholePrefixReads oracle) :
    ∀ {fuel : Nat} {st₁ st₂ : RecvState}, st₁.pos = st₂.pos → st₁.recvBuffer.length = 128 →
      st₂.recvBuffer.length = 128 →
      recvLoop oracle verify stream fuel st₁ = recvLoop oracle verify stream fuel st₂
  | 0, _, _, _, _, _ => rfl
  | fuel + 1, st₁, st₂, hpos, hl₁, hl₂ => by
    have hmsg := @recvMessage_agree oracle verify stream hor (stream.length + 1)
      { st₁ with msgBuffer := [], totalMsgSize := 0 } { st₂ with msgBuffer := [], totalMsgSize := 0 }
      ⟨rfl, rfl, hpos, hl₁, hl₂⟩
    rw [recvLoop, recvLoop]
    generalize recvMessage oracle verify stream (stream.length + 1)
      { st₁ with msgBuffer := [], totalMsgSize := 0 } = r₁ at hmsg ⊢
    generalize recvMessage oracle verify stream (stream.length + 1)
      { st₂ with msgBuffer := [], totalMsgSize := 0 } = r₂ at hmsg ⊢
    cases hmsg with
    | none => rfl
    | some h => dsimp only; rw [h.msgBuffer, recvLoop_agree hor h.pos h.length₁ h.length₂]

/-- **A connection's dispatches do not depend on the bytes left in `RecvBuffer`.** When every
size-prefix read returns all 4 bytes the stream has and every message read returns at least one,
a connection started with any 128 bytes in `RecvBuffer` dispatches the same buffers. So nothing the
previous connection left behind reaches this one. A failed read breaks this: it leaves stale
bytes in front of the message. -/
theorem recvConnection_independent_of_recvBuffer (oracle : ReadOracle) (verify : List UInt8 → Bool)
    (stream : List UInt8) (hor : WholePrefixReads oracle) {recvBuffer₁ recvBuffer₂ : List UInt8}
    (h₁ : recvBuffer₁.length = 128) (h₂ : recvBuffer₂.length = 128) :
    recvConnection oracle verify stream recvBuffer₁ = recvConnection oracle verify stream recvBuffer₂ :=
  recvLoop_agree hor rfl h₁ h₂

theorem wholePrefixReads_byteReads : WholePrefixReads byteReads :=
  ⟨fun _ => Int.le_refl 4, fun _ _ => Int.le_refl 1⟩

/-- The theorem on two frames read byte by byte, from a zeroed buffer and from one full of `0xFF`. -/
theorem recvConnection_same_from_zero_and_full_buffers :
    WholePrefixReads byteReads ∧ (List.replicate 128 (0 : UInt8)).length = 128 ∧
    (List.replicate 128 (255 : UInt8)).length = 128 ∧
    recvConnection byteReads framesOnly (frameBytes [1, 2, 3] ++ frameBytes [4]) (List.replicate 128 0) =
      recvConnection byteReads framesOnly (frameBytes [1, 2, 3] ++ frameBytes [4])
        (List.replicate 128 255) :=
  ⟨wholePrefixReads_byteReads, List.length_replicate _ _, List.length_replicate _ _,
    recvConnection_independent_of_recvBuffer byteReads framesOnly _ wholePrefixReads_byteReads
      (List.length_replicate _ _) (List.length_replicate _ _)⟩

end Agree

/-! ## (4) The accept loop serves its connections -/

section Served

variable {oracle : ReadOracle} {verify : List UInt8 → Bool} {stream : List UInt8}

theorem length_stopBuffer {st : RecvState} (hrb : st.recvBuffer.length = 128) :
    (stopBuffer oracle stream st).length = 128 := by
  unfold stopBuffer
  split_ifs
  · have := (List.length_take_le _ (stream.drop st.pos)).trans
      (readAt_toNat_le oracle .header stream st.pos 4)
    rw [length_writeAt (by rw [Nat.zero_add, readBytes]; omega), hrb]
  · exact hrb

theorem length_recvMessageBuffer (hor : WholePrefixReads oracle) :
    ∀ {fuel : Nat} {st : RecvState}, st.recvBuffer.length = 128 →
      (recvMessageBuffer oracle verify stream fuel st).length = 128
  | 0, _, hrb => hrb
  | fuel + 1, st, hrb => by
    rcases @recvIter_spec oracle verify stream hor st hrb with
      hstop | ⟨-, st', -, -, -, -, hrb', hit⟩
    · simp only [recvMessageBuffer, hstop]; exact length_stopBuffer hrb
    · simp only [recvMessageBuffer, hit, checkMsg]
      split_ifs
      · exact hrb'
      · exact length_recvMessageBuffer hor hrb'

/-- **A connection leaves `RecvBuffer` 128 bytes long.** -/
theorem length_connectionBuffer (hor : WholePrefixReads oracle) {recvBuffer : List UInt8}
    (hrb : recvBuffer.length = 128) :
    (connectionBuffer oracle verify stream recvBuffer).length = 128 := by
  suffices ∀ {fuel : Nat} {st : RecvState}, st.recvBuffer.length = 128 →
      (recvLoopBuffer oracle verify stream fuel st).length = 128 from this hrb
  intro fuel
  induction fuel with
  | zero => exact id
  | succ fuel ih =>
    intro st hrb
    rw [recvLoopBuffer]
    split
    · exact length_recvMessageBuffer hor hrb
    · next st' hst' =>
      obtain ⟨-, -, -, -, hrb'⟩ := recvMessage_sound hor (by exact hrb) hst'
      exact ih hrb'

/-- Read as `recvWorker` runs: a client is served, and the loop goes on with the counter as the
code leaves it. -/
theorem servedConnections_cons (maxNum : UInt32) (a : Accepted) (accepted : List Accepted) :
    servedConnections maxNum (a :: accepted) =
      if a.fd = 0 then []
      else if a.fd < 0 then servedConnections maxNum accepted
      else a :: if 0 < maxNum ∧ maxNum - 1 = 0 then []
        else servedConnections (if 0 < maxNum then maxNum - 1 else maxNum) accepted := by
  unfold servedConnections
  by_cases h0 : a.fd = 0
  · simp only [h0, bne_self_eq_false, Bool.false_eq_true, not_false_eq_true,
      List.takeWhile_cons_of_neg, List.filter_nil, List.take_nil, ite_self, if_true]
  rw [List.takeWhile_cons_of_pos (by simpa only [bne_iff_ne, ne_eq] using h0)]
  by_cases hneg : a.fd < 0
  · rw [List.filter_cons_of_neg (by simp only [decide_eq_true_eq]; omega)]
    rw [if_neg h0, if_pos hneg]
  rw [List.filter_cons_of_pos (by simp only [decide_eq_true_eq]; omega)]
  simp only [h0, hneg, if_false]
  by_cases hm : maxNum = 0
  · simp [hm]
  have hm0 : 0 < maxNum.toNat := Nat.pos_of_ne_zero fun h =>
    hm (UInt32.toNat.inj (h.trans rfl : maxNum.toNat = (0 : UInt32).toNat))
  have hsub : (maxNum - 1).toNat = maxNum.toNat - 1 := uint32_toNat_sub_ofNat (n := 1) hm0
  obtain ⟨k, hk⟩ : ∃ k, maxNum.toNat = k + 1 := ⟨maxNum.toNat - 1, by omega⟩
  simp only [hm, if_false, hk, List.take_succ_cons, show (0 : UInt32) < maxNum from hm0, true_and, if_true]
  by_cases h1 : maxNum - 1 = 0
  · rw [if_pos h1, show k = 0 by rw [h1] at hsub; simp only [UInt32.toNat_zero] at hsub; omega, List.take_zero]
  · rw [if_neg h1, if_neg h1, hsub, hk, Nat.add_sub_cancel]

/-- **The receiver thread serves its connections one after another.** Suppose every served client's
size-prefix reads return all 4 bytes the stream has, and its message reads at least one byte.
Then the thread dispatches, in order, exactly what each served connection dispatches on its own.
The served clients are those accepted before descriptor `0`, skipping failed `accept` calls: all
of them when `MaxNumAcceptedConnection` is `0`, the first that many otherwise. After the last of
them the loop ends, even if more clients are waiting. -/
theorem recvWorker_serves_connections (verify : List UInt8 → Bool) (maxNum : UInt32)
    (accepted : List Accepted)
    (hor : ∀ a ∈ servedConnections maxNum accepted, WholePrefixReads a.oracle)
    {recvBuffer : List UInt8} (hrb : recvBuffer.length = 128) :
    recvWorker verify maxNum accepted recvBuffer =
      (servedConnections maxNum accepted).flatMap fun a =>
        recvConnection a.oracle verify a.stream recvBuffer := by
  induction accepted generalizing maxNum recvBuffer with
  | nil =>
    simp only [recvWorker, servedConnections, List.takeWhile_nil, List.filter_nil, List.take_nil,
      ite_self, List.flatMap_nil]
  | cons a accepted ih =>
    rw [servedConnections_cons] at hor ⊢
    rw [recvWorker]
    by_cases h0 : a.fd = 0
    · simp only [if_pos h0, List.flatMap_nil]
    by_cases hneg : a.fd < 0
    · simp only [if_neg h0, if_pos hneg] at hor ⊢; exact ih maxNum hor hrb
    simp only [if_neg h0, if_neg hneg] at hor ⊢
    have hora : WholePrefixReads a.oracle := hor a (List.mem_cons_self _ _)
    by_cases hlast : 0 < maxNum ∧ maxNum - 1 = 0
    · simp only [if_pos hlast, List.append_nil, List.flatMap_cons, List.flatMap_nil]
    -- the next connection starts from the buffer this one leaves, which it ignores
    simp only [if_neg hlast] at hor ⊢
    have hrest := fun b hb => hor b (List.mem_cons_of_mem a hb)
    rw [List.flatMap_cons, ih _ hrest (length_connectionBuffer hora hrb)]
    exact congrArg _ (List.flatMap_congr fun b hb =>
      recvLoop_agree (hrest b hb) rfl (length_connectionBuffer hora hrb) hrb)

end Served

/-- The accept loop serves only clients it accepted. -/
theorem mem_of_mem_servedConnections {maxNum : UInt32} {accepted : List Accepted} {a : Accepted}
    (h : a ∈ servedConnections maxNum accepted) : a ∈ accepted := by
  unfold servedConnections at h
  split_ifs at h
  · exact List.takeWhile_subset _ (List.mem_filter.mp h).1
  · exact List.takeWhile_subset _ (List.mem_filter.mp (List.mem_of_mem_take h)).1

/-- A failed `accept`, then three clients that each send one frame, read byte by byte. -/
def threeClients : List Accepted :=
  [⟨-1, byteReads, []⟩, ⟨4, byteReads, frameBytes [1, 2, 3]⟩, ⟨5, byteReads, frameBytes [4, 5]⟩,
    ⟨6, byteReads, frameBytes [6]⟩]

/-- The theorem with `-max-accepted-connection=2`: the failed `accept` is skipped, and the thread
serves the first two clients. -/
theorem recvWorker_serves_two_of_three_clients :
    (∀ a ∈ servedConnections 2 threeClients, WholePrefixReads a.oracle) ∧
    (List.replicate 128 (0 : UInt8)).length = 128 ∧
    recvWorker framesOnly 2 threeClients (List.replicate 128 0) =
      (servedConnections 2 threeClients).flatMap fun a =>
        recvConnection a.oracle framesOnly a.stream (List.replicate 128 0) :=
  have hor : ∀ a ∈ servedConnections 2 threeClients, WholePrefixReads a.oracle := fun a ha => by
    have hmem := mem_of_mem_servedConnections ha
    simp only [threeClients, List.mem_cons, List.mem_singleton, List.not_mem_nil, or_false] at hmem
    rcases hmem with rfl | rfl | rfl | rfl <;> exact wholePrefixReads_byteReads
  ⟨hor, List.length_replicate _ _,
    recvWorker_serves_connections framesOnly 2 threeClients hor (List.length_replicate _ _)⟩

example : recvWorker framesOnly 2 threeClients (List.replicate 128 0) =
    [frameBytes [1, 2, 3], frameBytes [4, 5]] := by decide

/-- A client whose size-prefix reads all fail and whose message reads return all that is asked. -/
def failingPrefixClient (stream : List UInt8) : Accepted :=
  ⟨7, fun site _ count => if site = .header then -1 else count, stream⟩

/-- A connection whose first size-prefix read fails reads its message behind the prefix the last
connection left in `RecvBuffer`. -/
example : recvWorker framesOnly 0 [⟨4, byteReads, frameBytes [1, 2, 3]⟩, failingPrefixClient [4, 5, 6]]
      (List.replicate 128 0) = [frameBytes [1, 2, 3], [3, 0, 0, 0, 4, 5, 6]] := by decide

end McadBroker
