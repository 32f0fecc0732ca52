import McadBroker.Basic

/-! # The receiver's framing

`QemuBroker::recvWorker` reads size-prefixed messages from a connection. For each message it
clears `MsgBuffer` and runs a `do ... while (!MsgValid)` loop: when no frame is in progress it
reads the 4-byte size prefix into `RecvBuffer`, then reads at most what is left of the frame (and
at most what `RecvBuffer` has room for) behind it, appends the filled part of `RecvBuffer` to
`MsgBuffer`, and runs the verifier on the whole of `MsgBuffer`. A break out of that loop ends the
connection; a verified buffer is dispatched.

* **`recvIter`, `recvMessage`, `recvLoop`, `recvConnection`** — the loops, with `read` given by
  an oracle and clamped to what a read can return.
* **`recvMessage_sound`** — `MsgBuffer` is always the bytes read since the message began.
* **`recvMessage_frame`** — a frame complete in the stream is read up to its last byte exactly,
  since no read crosses the frame's end.
* **`recvConnection_dispatches_frames`** — a connection dispatches exactly the frames before the
  first one the verifier rejects or the stream ends inside.
* **`failed_prefix_read_dispatches_stale_frame`** — a size-prefix read that returns `-1` passes the
  short-read test, and the loop reads and dispatches behind the stale prefix. -/

namespace McadBroker

/-! ## (1) Reads -/

/-- The two `read` calls of the loop. -/
inductive ReadSite
  /-- `read(ClientSocktFD, RecvBuffer, sizeof(TotalMsgSize))`. -/
  | header
  /-- `read(ClientSocktFD, &RecvBuffer[Offset], ReadLen)`. -/
  | body
  deriving DecidableEq, Repr

/-- The peer and the kernel's side of `read`: for the call, the stream position and the count
asked for, the `ssize_t` result before the limits every read obeys. -/
abbrev ReadOracle := ReadSite → Nat → Nat → Int

/-- **`read` on the connection**: a failure as the oracle says, else at most the count asked for
and at most the bytes left, so `0` at the end of the stream. -/
def readAt (oracle : ReadOracle) (site : ReadSite) (stream : List UInt8) (pos count : Nat) : Int :=
  if oracle site pos count < 0 then oracle site pos count
  else min (oracle site pos count) ((min count (stream.length - pos) : Nat) : Int)

/-- The `n` bytes a read at `pos` delivers. -/
def readBytes (stream : List UInt8) (pos n : Nat) : List UInt8 := (stream.drop pos).take n

/-- The read filling the buffer from `offset` (`&RecvBuffer[Offset]`). -/
def writeAt (buf : List UInt8) (offset : Nat) (bytes : List UInt8) : List UInt8 :=
  buf.take offset ++ bytes ++ buf.drop (offset + bytes.length)

/-- `flatbuffers::ReadScalar<flatbuffers::uoffset_t>`: the little-endian `uint32_t` at the front
of a buffer (`0` for a buffer shorter than that, which the loop never reads). -/
def readScalar : List UInt8 → UInt32
  | b0 :: b1 :: b2 :: b3 :: _ =>
    UInt32.ofNat (b0.toNat + 256 * b1.toNat + 65536 * b2.toNat + 16777216 * b3.toNat)
  | _ => 0

/-- Every size-prefix read returns all 4 bytes the stream still has, and every message read
returns at least one byte while the stream has one: the reads `recvConnection_dispatches_frames`
holds for. -/
def WholePrefixReads (oracle : ReadOracle) : Prop :=
  (∀ pos, 4 ≤ oracle .header pos 4) ∧ ∀ pos count, 1 ≤ oracle .body pos count

section Reads

variable {oracle : ReadOracle} {stream : List UInt8}

theorem readAt_header (hor : WholePrefixReads oracle) (pos : Nat) :
    readAt oracle .header stream pos 4 = ((min 4 (stream.length - pos) : Nat) : Int) := by
  have h := hor.1 pos
  simp only [readAt, show ¬ oracle .header pos 4 < 0 by omega, if_false]
  omega

theorem readAt_body (hor : WholePrefixReads oracle) (pos count : Nat) :
    readAt oracle .body stream pos count =
      min (oracle .body pos count) ((min count (stream.length - pos) : Nat) : Int) := by
  simp only [readAt, show ¬ oracle .body pos count < 0 by have := hor.2 pos count; omega, if_false]

/-- A message read returns a count of bytes, at most the count asked for and the bytes left, and
none exactly when nothing was asked for or the stream has ended. -/
theorem readAt_body_nat (hor : WholePrefixReads oracle) (pos count : Nat) :
    ∃ n : Nat, readAt oracle .body stream pos count = n ∧ n ≤ count ∧ n ≤ stream.length - pos ∧
      (n = 0 ↔ count = 0 ∨ stream.length ≤ pos) := by
  have h1 := hor.2 pos count
  obtain ⟨m, hm⟩ : ∃ m, m = min count (stream.length - pos) := ⟨_, rfl⟩
  rw [readAt_body hor, ← hm]
  exact ⟨min (oracle .body pos count).toNat m, by omega, by omega, by omega,
    ⟨fun _ => by omega, fun _ => by omega⟩⟩

theorem length_readBytes {pos n : Nat} (h : pos + n ≤ stream.length) :
    (readBytes stream pos n).length = n := by
  simp [readBytes]; omega

/-- Consecutive reads deliver consecutive bytes. -/
theorem readBytes_add (pos k k' : Nat) :
    readBytes stream pos (k + k') = readBytes stream pos k ++ readBytes stream (pos + k) k' := by
  simp [readBytes, List.take_add, List.drop_drop, Nat.add_comm]

/-- Reading on from `pos` extends what was read from `start`. -/
theorem readBytes_append_readBytes {start pos : Nat} (h : start ≤ pos) (n : Nat) :
    readBytes stream start (pos - start) ++ readBytes stream pos n =
      readBytes stream start (pos + n - start) := by
  rw [show pos + n - start = (pos - start) + n by omega, readBytes_add, Nat.add_sub_cancel' h]

end Reads

theorem writeAt_take {buf : List UInt8} {offset : Nat} (bytes : List UInt8)
    (h : offset ≤ buf.length) :
    (writeAt buf offset bytes).take (bytes.length + offset) = buf.take offset ++ bytes := by
  rw [writeAt, List.append_assoc,
    show bytes.length + offset = (buf.take offset).length + bytes.length by simp; omega,
    List.take_append, List.take_left]

theorem length_writeAt {buf : List UInt8} {offset : Nat} {bytes : List UInt8}
    (h : offset + bytes.length ≤ buf.length) : (writeAt buf offset bytes).length = buf.length := by
  simp [writeAt]; omega

/-- The size-prefix read leaves its four bytes at the front of the buffer and the buffer's
length as it was. -/
theorem writeAt_header {stream buf : List UInt8} {pos : Nat} (hb : 4 ≤ buf.length)
    (h4 : pos + 4 ≤ stream.length) :
    (writeAt buf 0 (readBytes stream pos 4)).take 4 = readBytes stream pos 4 ∧
      (writeAt buf 0 (readBytes stream pos 4)).length = buf.length := by
  have hhdr : (readBytes stream pos 4).length = 4 := length_readBytes h4
  exact ⟨by simpa [hhdr] using writeAt_take (readBytes stream pos 4) (Nat.zero_le buf.length),
    length_writeAt (by omega)⟩

/-- The size prefix is read from the first four bytes alone. -/
theorem readScalar_append {a : List UInt8} (b : List UInt8) (h : 4 ≤ a.length) :
    readScalar (a ++ b) = readScalar a := by
  match a, h with
  | _ :: _ :: _ :: _ :: _, _ => rfl

/-! ## (2) The loops -/

/-- The receiver's variables across iterations: `RecvBuffer`, `MsgBuffer`, `TotalMsgSize`, and
the connection's read position. -/
structure RecvState where
  /-- `uint8_t RecvBuffer[128]`. -/
  recvBuffer : List UInt8
  /-- `MsgBuffer`. -/
  msgBuffer : List UInt8
  /-- `TotalMsgSize`: the bytes of the current frame not yet read. -/
  totalMsgSize : UInt32
  /-- The position in the peer's byte stream. -/
  pos : Nat
  deriving DecidableEq, Repr

/-- How an iteration of the `do ... while (!MsgValid)` loop ends. -/
inductive RecvStep
  /-- A `break`: the loop ends with `MsgValid` false. -/
  | stop
  /-- `MsgValid` is false: the loop runs again. -/
  | again (st : RecvState)
  /-- `MsgValid` is true: the buffer is dispatched. -/
  | valid (st : RecvState)

/-- `MsgValid = fbs::VerifySizePrefixedMessageBuffer(V)` and the loop test. -/
def checkMsg (verify : List UInt8 → Bool) (st : RecvState) : RecvStep :=
  if verify st.msgBuffer then .valid st else .again st

/-- The size-prefix read: `none` on the end of the stream or a short read, else `TotalMsgSize`
read from the prefix and `Offset = 4`. The short-read test `ReadLen < sizeof(TotalMsgSize)`
compares in `size_t`, so a failed read passes it and leaves `RecvBuffer` as it was. -/
def readHeader (oracle : ReadOracle) (stream : List UInt8) (st : RecvState) : Option RecvState :=
  if readAt oracle .header stream st.pos 4 = 0 then none
  else if readAt oracle .header stream st.pos 4 % 18446744073709551616 < 4 then none
  else
    let rb := writeAt st.recvBuffer 0
      (readBytes stream st.pos (readAt oracle .header stream st.pos 4).toNat)
    some { st with
      recvBuffer := rb
      totalMsgSize := readScalar rb
      pos := st.pos + (readAt oracle .header stream st.pos 4).toNat }

/-- The message read into `&RecvBuffer[Offset]`, of at most `min(TotalMsgSize, 128 - Offset)`
bytes: a failure or the end of the stream breaks; otherwise `TotalMsgSize` goes down by what was
read, the filled part of `RecvBuffer` is appended to `MsgBuffer`, and the verifier runs. -/
def readBody (oracle : ReadOracle) (verify : List UInt8 → Bool) (stream : List UInt8)
    (st : RecvState) (offset : Nat) : RecvStep :=
  let n := readAt oracle .body stream st.pos (min st.totalMsgSize.toNat (128 - offset))
  if n < 0 then .stop
  else if n = 0 then .stop
  else
    let rb := writeAt st.recvBuffer offset (readBytes stream st.pos n.toNat)
    checkMsg verify ⟨rb, st.msgBuffer ++ rb.take (n.toNat + offset),
      st.totalMsgSize - UInt32.ofNat n.toNat, st.pos + n.toNat⟩

/-- **One iteration of the `do ... while (!MsgValid)` loop**: the prefix read when no frame is in
progress, then the message read. -/
def recvIter (oracle : ReadOracle) (verify : List UInt8 → Bool) (stream : List UInt8)
    (st : RecvState) : RecvStep :=
  if st.totalMsgSize = 0 then
    match readHeader oracle stream st with
    | none => .stop
    | some st => readBody oracle verify stream st 4
  else readBody oracle verify stream st 0

/-- **The `do ... while (!MsgValid)` loop** for at most `fuel` iterations: the state with a verified
`MsgBuffer`, or `none` when the loop breaks (or runs out of fuel). -/
def recvMessage (oracle : ReadOracle) (verify : List UInt8 → Bool) (stream : List UInt8) :
    Nat → RecvState → Option RecvState
  | 0, _ => none
  | fuel + 1, st =>
    match recvIter oracle verify stream st with
    | .stop => none
    | .again st => recvMessage oracle verify stream fuel st
    | .valid st => some st

/-- **The connection's `while (true)` loop**: each message starts from an empty `MsgBuffer` and
`TotalMsgSize = 0`; a loop that ends without a verified buffer ends the connection. Each iteration
of either loop reads at least one byte, so one more than the stream's length bounds both. Returns
the dispatched buffers. -/
def recvLoop (oracle : ReadOracle) (verify : List UInt8 → Bool) (stream : List UInt8) :
    Nat → RecvState → List (List UInt8)
  | 0, _ => []
  | fuel + 1, st =>
    match recvMessage oracle verify stream (stream.length + 1)
        { st with msgBuffer := [], totalMsgSize := 0 } with
    | none => []
    | some st => st.msgBuffer :: recvLoop oracle verify stream fuel st

/-- **One accepted connection** of `recvWorker` over the peer's byte stream, from the `RecvBuffer`
the previous connection left. -/
def recvConnection (oracle : ReadOracle) (verify : List UInt8 → Bool) (stream : List UInt8)
    (recvBuffer : List UInt8) : List (List UInt8) :=
  recvLoop oracle verify stream (stream.length + 1) ⟨recvBuffer, [], 0, 0⟩

/-! ## (3) What one iteration does -/

section Iteration

variable {oracle : ReadOracle} {verify : List UInt8 → Bool} {stream : List UInt8}

/-- The prefix read takes four bytes when the stream has them, and breaks otherwise. -/
theorem readHeader_spec (hor : WholePrefixReads oracle) (st : RecvState) :
    readHeader oracle stream st =
      if st.pos + 4 ≤ stream.length then
        some { st with
          recvBuffer := writeAt st.recvBuffer 0 (readBytes stream st.pos 4)
          totalMsgSize := readScalar (writeAt st.recvBuffer 0 (readBytes stream st.pos 4))
          pos := st.pos + 4 }
      else none := by
  rw [readHeader, readAt_header hor]
  by_cases h4 : st.pos + 4 ≤ stream.length
  · have h4' : ((min 4 (stream.length - st.pos) : Nat) : Int) = 4 := by omega
    simp [h4', h4]
  · rw [if_neg h4]
    split_ifs <;> first | rfl | omega

/-- **The message read** breaks only when nothing of the frame is left or the stream has ended;
otherwise it reads `n` bytes, `0 < n`, at most what is left of the frame and what fits in the
buffer, and appends them behind the buffer's first `Offset` bytes. -/
theorem readBody_spec (hor : WholePrefixReads oracle) (st : RecvState) {offset : Nat}
    (hoff : offset ≤ st.recvBuffer.length) :
    ((st.totalMsgSize.toNat = 0 ∨ offset ≥ 128 ∨ stream.length ≤ st.pos) ∧
      readBody oracle verify stream st offset = .stop) ∨
    ∃ n, 0 < n ∧ n ≤ st.totalMsgSize.toNat ∧ n ≤ 128 - offset ∧ st.pos + n ≤ stream.length ∧
      readBody oracle verify stream st offset = checkMsg verify
        ⟨writeAt st.recvBuffer offset (readBytes stream st.pos n),
          st.msgBuffer ++ st.recvBuffer.take offset ++ readBytes stream st.pos n,
          st.totalMsgSize - UInt32.ofNat n, st.pos + n⟩ := by
  obtain ⟨n, hn, hle, hend, hzero⟩ :=
    @readAt_body_nat oracle stream hor st.pos (min st.totalMsgSize.toNat (128 - offset))
  by_cases h : st.totalMsgSize.toNat = 0 ∨ offset ≥ 128 ∨ stream.length ≤ st.pos
  · exact .inl ⟨h, by simp [readBody, hn, hzero.mpr (by omega)]⟩
  · have hpos : 0 < n := Nat.pos_of_ne_zero fun h0 => h (by omega)
    replace hend : st.pos + n ≤ stream.length := by omega
    refine .inr ⟨n, hpos, by omega, by omega, hend, ?_⟩
    have htake := writeAt_take (readBytes stream st.pos n) hoff
    rw [length_readBytes hend] at htake
    simp only [readBody, hn, Int.toNat_ofNat, htake, List.append_assoc,
      show ¬ (n : Int) < 0 by omega, show (n : Int) ≠ 0 by omega, if_false]

/-- **Every iteration reads on from where the last stopped**: it breaks, or reads `k > 0` bytes
and appends exactly those to `MsgBuffer`, keeping `RecvBuffer` at 128 bytes. -/
theorem recvIter_spec (hor : WholePrefixReads oracle) {st : RecvState}
    (hrb : st.recvBuffer.length = 128) :
    recvIter oracle verify stream st = .stop ∨
    ∃ k st', 0 < k ∧ st.pos + k ≤ stream.length ∧ st'.pos = st.pos + k ∧
      st'.msgBuffer = st.msgBuffer ++ readBytes stream st.pos k ∧ st'.recvBuffer.length = 128 ∧
      recvIter oracle verify stream st = checkMsg verify st' := by
  unfold recvIter
  split_ifs with hT
  · rw [readHeader_spec hor]
    split_ifs with h4
    · -- the prefix read, then the message read behind it
      obtain ⟨htake, hrb'⟩ := @writeAt_header stream st.recvBuffer st.pos (by omega) h4
      rw [hrb] at hrb'
      dsimp only
      rcases @readBody_spec oracle verify stream hor { st with
          recvBuffer := writeAt st.recvBuffer 0 (readBytes stream st.pos 4)
          totalMsgSize := readScalar (writeAt st.recvBuffer 0 (readBytes stream st.pos 4))
          pos := st.pos + 4 } 4 (by dsimp only; omega) with
        ⟨-, hstop⟩ | ⟨n, hn, -, hn128, hend, heq⟩
      · exact .inl hstop
      · refine .inr ⟨4 + n, _, ?_, ?_, ?_, ?_, ?_, heq⟩
        all_goals simp only at hend ⊢
        · omega
        · omega
        · omega
        · rw [htake, readBytes_add, List.append_assoc]
        · rw [length_writeAt (by rw [length_readBytes hend, hrb']; omega), hrb']
    · exact .inl rfl
  · rcases @readBody_spec oracle verify stream hor st 0 (by omega) with
      ⟨-, hstop⟩ | ⟨n, hn, -, hn128, hend, heq⟩
    · exact .inl hstop
    · refine .inr ⟨n, _, hn, hend, ?_, ?_, ?_, heq⟩
      · rfl
      · simp
      · rw [length_writeAt (by rw [length_readBytes hend, hrb]; omega), hrb]

end Iteration

/-! ## (4) Frames -/

/-- The size prefix of a frame: the payload's length in four little-endian bytes. -/
def sizeHeader (n : Nat) : List UInt8 :=
  [UInt8.ofNat n, UInt8.ofNat (n / 256), UInt8.ofNat (n / 65536), UInt8.ofNat (n / 16777216)]

/-- A frame: the payload behind its size prefix. -/
def frameBytes (payload : List UInt8) : List UInt8 := sizeHeader payload.length ++ payload

@[simp] theorem length_frameBytes (p : List UInt8) : (frameBytes p).length = p.length + 4 := by
  simp [frameBytes, sizeHeader]

/-- The verifier accepts only a buffer that is exactly one frame: its size prefix is its size
minus 4. -/
def AcceptsOnlyFrames (verify : List UInt8 → Bool) : Prop :=
  ∀ buf, verify buf = true → 4 ≤ buf.length ∧ (readScalar buf).toNat + 4 = buf.length

/-- **What a connection should dispatch**: the frames in order, as long as each is complete in the
`avail` bytes the stream has and the verifier accepts it. -/
def acceptedFrames (verify : List UInt8 → Bool) : Nat → List (List UInt8) → List (List UInt8)
  | _, [] => []
  | avail, p :: ps =>
    if (frameBytes p).length ≤ avail ∧ verify (frameBytes p) = true then
      frameBytes p :: acceptedFrames verify (avail - (frameBytes p).length) ps
    else []

theorem readScalar_sizeHeader (n : Nat) : (readScalar (sizeHeader n)).toNat = n % 4294967296 := by
  simp [readScalar, sizeHeader]; omega

theorem readScalar_take (l : List UInt8) {j : Nat} (h : 4 ≤ j) : readScalar (l.take j) = readScalar l := by
  obtain ⟨i, rfl⟩ : ∃ i, j = i + 4 := ⟨j - 4, by omega⟩
  rcases l with _ | ⟨a, _ | ⟨b, _ | ⟨c, _ | ⟨d, l⟩⟩⟩⟩ <;> rfl

theorem readScalar_frameBytes {p : List UInt8} (hp : p.length < 4294967296) (more : List UInt8) :
    (readScalar (frameBytes p ++ more)).toNat = p.length := by
  rw [frameBytes, List.append_assoc, readScalar_append _ (by simp [sizeHeader]), readScalar_sizeHeader]
  exact Nat.mod_eq_of_lt hp

/-- A buffer that starts a frame and is shorter than it is rejected. -/
theorem verify_take_of_lt {verify : List UInt8 → Bool} (hacc : AcceptsOnlyFrames verify)
    {l : List UInt8} {L j : Nat} (hL : (readScalar l).toNat = L) (hj : j < 4 + L) :
    verify (l.take j) = false := by
  cases hv : verify (l.take j)
  · rfl
  · obtain ⟨h4, hsize⟩ := hacc _ hv
    rw [readScalar_take l (by simp at h4; omega), hL] at hsize
    simp at hsize; omega

/-- **The only accepted buffer a frame starts is the frame.** -/
theorem eq_frameBytes_of_verify {verify : List UInt8 → Bool} (hacc : AcceptsOnlyFrames verify)
    {p more : List UInt8} (hp : p.length < 4294967296) {j : Nat}
    (h : verify ((frameBytes p ++ more).take j) = true) : (frameBytes p ++ more).take j = frameBytes p := by
  obtain ⟨h4, hsize⟩ := hacc _ h
  rw [readScalar_take _ (by simp at h4; omega), readScalar_frameBytes hp] at hsize
  have hlen := length_frameBytes p
  simp only [List.length_take, List.length_append] at hsize
  -- the accepted buffer is as long as the frame, so it is the frame
  have hrest : List.take (j - (frameBytes p).length) more = [] := by
    rw [List.take_eq_nil_iff]
    by_cases hj : j ≤ (frameBytes p).length
    · exact .inl (by omega)
    · exact .inr (List.eq_nil_of_length_eq_zero (by omega))
  rw [List.take_append_eq_append_take, List.take_of_length_le (by omega), hrest, List.append_nil]

/-! ## (5) The loops over frames -/

section Loops

variable {oracle : ReadOracle} {verify : List UInt8 → Bool} {stream : List UInt8}

theorem recvMessage_succ_of_checkMsg {fuel : Nat} {st st' : RecvState}
    (h : recvIter oracle verify stream st = checkMsg verify st') :
    recvMessage oracle verify stream (fuel + 1) st =
      if verify st'.msgBuffer then some st' else recvMessage oracle verify stream fuel st' := by
  simp only [recvMessage, h, checkMsg]
  split_ifs <;> rfl

/-- **`MsgBuffer` holds the bytes read since the message began**, and is verified when the loop
hands it on. -/
theorem recvMessage_sound (hor : WholePrefixReads oracle) :
    ∀ {fuel : Nat} {st st' : RecvState}, st.recvBuffer.length = 128 →
      recvMessage oracle verify stream fuel st = some st' →
      ∃ k, st'.pos = st.pos + k ∧ st'.msgBuffer = st.msgBuffer ++ readBytes stream st.pos k ∧
        verify st'.msgBuffer = true ∧ st'.recvBuffer.length = 128
  | 0, _, _, _, h => by cases h
  | fuel + 1, st, st', hrb, h => by
    rcases @recvIter_spec oracle verify stream hor st hrb with
      hstop | ⟨k, s, -, -, hpos, hmsg, hrb', hit⟩
    · simp [recvMessage, hstop] at h
    · rw [recvMessage_succ_of_checkMsg hit] at h
      split_ifs at h with hv
      · cases h; exact ⟨k, hpos, hmsg, hv, hrb'⟩
      · obtain ⟨k', hpos', hmsg', hv', hrb''⟩ := recvMessage_sound hor hrb' h
        refine ⟨k + k', by omega, ?_, hv', hrb''⟩
        rw [hmsg', hmsg, hpos, List.append_assoc, ← readBytes_add]

/-- A message loop that never sees an acceptable buffer ends the connection. -/
theorem recvMessage_eq_none (hor : WholePrefixReads oracle) {st : RecvState}
    (hrb : st.recvBuffer.length = 128) (hmsg : st.msgBuffer = [])
    (hno : ∀ k, verify (readBytes stream st.pos k) = false) (fuel : Nat) :
    recvMessage oracle verify stream fuel st = none := by
  cases h : recvMessage oracle verify stream fuel st with
  | none => rfl
  | some st' =>
    obtain ⟨k, -, hmsg', hv, -⟩ := recvMessage_sound hor hrb h
    rw [hmsg', hmsg, List.nil_append, hno] at hv
    cases hv

section Frame

variable (hor : WholePrefixReads oracle) (hacc : AcceptsOnlyFrames verify) {start L : Nat}
  (hL : (readScalar (stream.drop start)).toNat = L) (hend : start + 4 + L ≤ stream.length)
  (hv : verify (readBytes stream start (4 + L)) = true)
include hor hacc hL hend hv

/-- **Inside a frame complete in the stream, the loop reads up to the frame's last byte exactly**:
no read crosses it, and the verifier rejects every buffer short of it. From the verification of a
`MsgBuffer` holding the frame's first bytes, the loop hands on the whole frame. -/
theorem recvMessage_in_frame {fuel : Nat} {st : RecvState} (hrb : st.recvBuffer.length = 128)
    (hstart : start + 4 ≤ st.pos) (hsum : st.pos + st.totalMsgSize.toNat = start + 4 + L)
    (hmsg : st.msgBuffer = readBytes stream start (st.pos - start))
    (hfuel : st.totalMsgSize.toNat ≤ fuel) :
    ∃ st', (if verify st.msgBuffer then some st else recvMessage oracle verify stream fuel st) =
        some st' ∧
      st'.msgBuffer = readBytes stream start (4 + L) ∧ st'.pos = start + 4 + L ∧
      st'.recvBuffer.length = 128 := by
  -- the frame's last byte has been read: the verifier accepts
  have done : ∀ {fuel : Nat} {st : RecvState}, st.recvBuffer.length = 128 →
      st.msgBuffer = readBytes stream start (st.pos - start) → st.pos = start + 4 + L →
      ∃ st', (if verify st.msgBuffer then some st else recvMessage oracle verify stream fuel st) =
          some st' ∧
        st'.msgBuffer = readBytes stream start (4 + L) ∧ st'.pos = start + 4 + L ∧
        st'.recvBuffer.length = 128 := by
    intro fuel st hrb hmsg hpos
    rw [hmsg, hpos, Nat.add_assoc, Nat.add_sub_cancel_left, if_pos hv]
    exact ⟨st, rfl, by rw [hmsg, hpos, Nat.add_assoc, Nat.add_sub_cancel_left], by omega, hrb⟩
  induction fuel generalizing st with
  | zero => exact done hrb hmsg (by omega)
  | succ fuel ih =>
    by_cases hT : st.totalMsgSize.toNat = 0
    · exact done hrb hmsg (by omega)
    -- short of the frame's end: rejected, and the next read stays inside the frame
    rw [hmsg, if_neg (by rw [readBytes, verify_take_of_lt hacc hL (by omega)]; simp)]
    rcases @readBody_spec oracle verify stream hor st 0 (by omega) with
      ⟨hstop, -⟩ | ⟨n, hn, hnT, hn128, hnl, heq⟩
    · omega
    · have hit : recvIter oracle verify stream st = checkMsg verify
          ⟨writeAt st.recvBuffer 0 (readBytes stream st.pos n),
            st.msgBuffer ++ st.recvBuffer.take 0 ++ readBytes stream st.pos n,
            st.totalMsgSize - UInt32.ofNat n, st.pos + n⟩ := by
        rw [recvIter, if_neg (fun h => hT (by simp [h])), heq]
      rw [recvMessage_succ_of_checkMsg hit]
      have hT' := uint32_toNat_sub_ofNat hnT
      refine ih ?_ (by simp only; omega) (by simp only; omega) ?_ (by simp only; omega)
      · rw [length_writeAt (by rw [length_readBytes hnl]; omega), hrb]
      · simp only
        rw [hmsg, List.take_zero, List.append_nil, readBytes_append_readBytes (by omega)]

end Frame

/-- **A complete, accepted frame at the start of a message is dispatched whole**, and the next
message starts right behind it. -/
theorem recvMessage_frame (hor : WholePrefixReads oracle) (hacc : AcceptsOnlyFrames verify)
    {st : RecvState} {p more : List UInt8} (hrb : st.recvBuffer.length = 128)
    (hT : st.totalMsgSize = 0) (hmsg : st.msgBuffer = []) (hrest : stream.drop st.pos = frameBytes p ++ more)
    (hp : 0 < p.length ∧ p.length < 4294967296) (hv : verify (frameBytes p) = true) {fuel : Nat}
    (hfuel : p.length < fuel) :
    ∃ st', recvMessage oracle verify stream fuel st = some st' ∧ st'.msgBuffer = frameBytes p ∧
      st'.pos = st.pos + (frameBytes p).length ∧ st'.recvBuffer.length = 128 := by
  have hlen : (frameBytes p).length = 4 + p.length := by rw [length_frameBytes, Nat.add_comm]
  have hend : st.pos + 4 + p.length ≤ stream.length := by
    have := congrArg List.length hrest; simp only [List.length_drop, List.length_append] at this; omega
  have hframe : readBytes stream st.pos (4 + p.length) = frameBytes p := by
    rw [readBytes, hrest, ← hlen, List.take_left]
  have hL : (readScalar (stream.drop st.pos)).toNat = p.length := by rw [hrest, readScalar_frameBytes hp.2]
  -- the prefix read
  obtain ⟨htake, hrb'⟩ := @writeAt_header stream st.recvBuffer st.pos (by omega) (by omega)
  rw [hrb] at hrb'
  have hsize : (readScalar (writeAt st.recvBuffer 0 (readBytes stream st.pos 4))).toNat = p.length := by
    rw [← readScalar_take _ (le_refl 4), htake, readBytes, readScalar_take _ (le_refl 4), hL]
  -- the message read behind it
  rcases @readBody_spec oracle verify stream hor { st with
      recvBuffer := writeAt st.recvBuffer 0 (readBytes stream st.pos 4)
      totalMsgSize := readScalar (writeAt st.recvBuffer 0 (readBytes stream st.pos 4))
      pos := st.pos + 4 } 4 (by dsimp only; omega) with
    ⟨hstop, -⟩ | ⟨n, hn, hnT, hn128, hnl, heq⟩
  · simp only at hstop; omega
  · simp only at hnT hnl heq
    obtain ⟨fuel, rfl⟩ : ∃ f, fuel = f + 1 := ⟨fuel - 1, by omega⟩
    have hit : recvIter oracle verify stream st = checkMsg verify
        ⟨writeAt (writeAt st.recvBuffer 0 (readBytes stream st.pos 4)) 4
            (readBytes stream (st.pos + 4) n),
          st.msgBuffer ++ (writeAt st.recvBuffer 0 (readBytes stream st.pos 4)).take 4 ++
            readBytes stream (st.pos + 4) n,
          readScalar (writeAt st.recvBuffer 0 (readBytes stream st.pos 4)) - UInt32.ofNat n,
          st.pos + 4 + n⟩ := by
      rw [recvIter, if_pos hT, readHeader_spec hor, if_pos (by omega)]
      exact heq
    rw [recvMessage_succ_of_checkMsg hit]
    have hT' := uint32_toNat_sub_ofNat (a := readScalar (writeAt st.recvBuffer 0
      (readBytes stream st.pos 4))) (show n ≤ _ from hnT)
    obtain ⟨st', hst', hmsg', hpos', hrb''⟩ := @recvMessage_in_frame oracle verify stream hor hacc
      st.pos p.length hL hend (by rw [hframe]; exact hv) fuel
      ⟨writeAt (writeAt st.recvBuffer 0 (readBytes stream st.pos 4)) 4
          (readBytes stream (st.pos + 4) n),
        st.msgBuffer ++ (writeAt st.recvBuffer 0 (readBytes stream st.pos 4)).take 4 ++
          readBytes stream (st.pos + 4) n,
        readScalar (writeAt st.recvBuffer 0 (readBytes stream st.pos 4)) - UInt32.ofNat n,
        st.pos + 4 + n⟩
      (by simp only; rw [length_writeAt (by rw [length_readBytes hnl]; omega), hrb'])
      (by simp only; omega) (by simp only; omega)
      (by simp only; rw [hmsg, htake, List.nil_append, ← readBytes_add, Nat.add_assoc,
        Nat.add_sub_cancel_left])
      (by simp only; omega)
    exact ⟨st', hst', by rw [hmsg', hframe], by rw [hpos', hlen]; omega, hrb''⟩

/-- The run lemma: from any position where the rest of the stream is a run of frames cut after
`avail` bytes, the connection's loop dispatches the frames `acceptedFrames` names. -/
theorem recvLoop_frames (hor : WholePrefixReads oracle) (hacc : AcceptsOnlyFrames verify) :
    ∀ (frames : List (List UInt8)) {avail fuel : Nat} {st : RecvState},
      (∀ p ∈ frames, 0 < p.length ∧ p.length < 4294967296) → st.recvBuffer.length = 128 →
      stream.drop st.pos = ((frames.map frameBytes).flatten).take avail →
      stream.length - st.pos < fuel →
      recvLoop oracle verify stream fuel st = acceptedFrames verify avail frames
  | frames, avail, 0, st, _, _, _, hfuel => by omega
  | [], avail, fuel + 1, st, _, hrb, hrest, _ => by
    rw [recvLoop, @recvMessage_eq_none oracle verify stream hor
      { st with msgBuffer := [], totalMsgSize := 0 } hrb rfl (fun k => ?_)]
    · rfl
    · simp only [readBytes, hrest, List.map_nil, List.flatten_nil, List.take_nil]
      cases hv : verify [] with
      | false => rfl
      | true => have := (hacc [] hv).1; simp at this
  | p :: ps, avail, fuel + 1, st, hframes, hrb, hrest, hfuel => by
    have hp := hframes p (List.mem_cons_self _ _)
    by_cases hok : (frameBytes p).length ≤ avail ∧ verify (frameBytes p) = true
    · -- the frame is complete and accepted: dispatched, then the rest
      have hrest' : stream.drop st.pos =
          frameBytes p ++ ((ps.map frameBytes).flatten).take (avail - (frameBytes p).length) := by
        rw [hrest, List.map_cons, List.flatten_cons, List.take_append_eq_append_take,
          List.take_of_length_le hok.1]
      obtain ⟨st', hst', hmsg', hpos', hrb'⟩ := @recvMessage_frame oracle verify stream hor hacc
        { st with msgBuffer := [], totalMsgSize := 0 } p _ hrb rfl rfl hrest' hp hok.2
        (stream.length + 1)
        (by have := congrArg List.length hrest'; simp only [List.length_drop, List.length_append,
          length_frameBytes] at this; omega)
      rw [recvLoop, hst']
      simp only [acceptedFrames, if_pos hok, hmsg']
      congr 1
      refine recvLoop_frames hor hacc ps (fun q hq => hframes q (List.mem_cons_of_mem _ hq)) hrb' ?_ ?_
      · rw [hpos', ← List.drop_drop, hrest', List.drop_left]
      · have := congrArg List.length hrest'
        simp only [List.length_drop, List.length_append, length_frameBytes] at this hpos' ⊢; omega
    · -- rejected or cut short: nothing is accepted from here on
      rw [recvLoop, @recvMessage_eq_none oracle verify stream hor
        { st with msgBuffer := [], totalMsgSize := 0 } hrb rfl (fun k => ?_), acceptedFrames, if_neg hok]
      cases hv : verify (readBytes stream st.pos k) with
      | false => rfl
      | true =>
        rw [readBytes, hrest, List.take_take, List.map_cons, List.flatten_cons] at hv
        have heq := eq_frameBytes_of_verify hacc hp.2 hv
        have hle := congrArg List.length heq
        simp only [List.length_take] at hle
        exact absurd ⟨by omega, heq ▸ hv⟩ hok

end Loops

/-- **The framing of one connection.** If the verifier accepts only buffers that are exactly one
frame, and every size-prefix read returns all 4 bytes the stream has and every message read at
least one byte, then over a stream made of frames of non-empty payloads, cut after any number of
bytes, `recvWorker` dispatches in order, each once, exactly the frames before the first one the
verifier rejects or the stream ends inside; each dispatched buffer is one whole frame. -/
theorem recvConnection_dispatches_frames (oracle : ReadOracle) (verify : List UInt8 → Bool)
    (hacc : AcceptsOnlyFrames verify) (hor : WholePrefixReads oracle) (frames : List (List UInt8))
    (hframes : ∀ p ∈ frames, 0 < p.length ∧ p.length < 4294967296) (avail : Nat)
    {recvBuffer : List UInt8} (hrb : recvBuffer.length = 128) :
    recvConnection oracle verify ((frames.map frameBytes).flatten.take avail) recvBuffer =
      acceptedFrames verify avail frames :=
  recvLoop_frames hor hacc frames hframes hrb (by simp) (by simp)

/-- Reads that return the whole size prefix and then one message byte at a time. -/
def byteReads : ReadOracle := fun site _ _ => if site = .header then 4 else 1

/-- A verifier that accepts every buffer that is exactly one frame. -/
def framesOnly (buf : List UInt8) : Bool :=
  decide (4 ≤ buf.length ∧ (readScalar buf).toNat + 4 = buf.length)

/-- The theorem on two frames read byte by byte, the stream cut inside the second. -/
theorem recvConnection_two_frames_cut :
    AcceptsOnlyFrames framesOnly ∧ WholePrefixReads byteReads ∧
    (∀ p ∈ [[1, 2, 3], [4, 5]], 0 < p.length ∧ p.length < 4294967296) ∧
    (List.replicate 128 (0 : UInt8)).length = 128 ∧
    recvConnection byteReads framesOnly
        ((([[1, 2, 3], [4, 5]] : List (List UInt8)).map frameBytes).flatten.take 10)
        (List.replicate 128 0) =
      acceptedFrames framesOnly 10 [[1, 2, 3], [4, 5]] :=
  have hacc : AcceptsOnlyFrames framesOnly := fun _ h => of_decide_eq_true h
  have hor : WholePrefixReads byteReads := ⟨fun _ => by simp [byteReads], fun _ _ => by simp [byteReads]⟩
  ⟨hacc, hor, by decide, by simp,
    recvConnection_dispatches_frames byteReads framesOnly hacc hor [[1, 2, 3], [4, 5]] (by decide) 10
      (by simp)⟩

/-! ## (6) A failed size-prefix read -/

/-- Reads that return the whole size prefix at the start of the stream and fail on every later
one, and return all that is asked for on every message read. -/
def failedPrefixReads : ReadOracle := fun site pos count =>
  if site = .header then (if pos = 0 then 4 else -1) else count

/-- **A failed size-prefix read does not end the connection.** The stream holds the frame
`[1, 2, 3]` and then the bytes `4, 5, 6`. The first frame is dispatched. The next prefix read
returns `-1`; `ReadLen < sizeof(TotalMsgSize)` compares in `size_t`, so the failure passes the
short-read test, `TotalMsgSize` is read again from the stale `RecvBuffer` (3), and the loop reads on:
the bytes `4, 5, 6` are read and dispatched behind the stale prefix, a frame the peer never sent. -/
theorem failed_prefix_read_dispatches_stale_frame :
    failedPrefixReads .header 7 4 = -1 ∧
    recvConnection failedPrefixReads framesOnly (frameBytes [1, 2, 3] ++ [4, 5, 6])
        (List.replicate 128 0) = [frameBytes [1, 2, 3], [3, 0, 0, 0, 4, 5, 6]] := by
  decide

end McadBroker
