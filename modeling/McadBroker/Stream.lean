import McadBroker.Fetch

/-! # What the fetch engine delivers

The queue denotes a stream: for each slice in order, the instructions `MCInsts[i]` for
`BeginIdx ≤ i < min(EndIdx, |MCInsts|)`, then the end of the slice's region if it closes one.
Consecutive `fetchRegion` calls should hand out that stream piece by piece. What makes them do so
is the charge the selection loop books for a slice, `SliceLen = min(|MCInsts|, size())`: the loop
spends the budget by it, the delivery loop delivers the slice's instructions. The two agree for a
slice within its block (`FetchStream`), but not for the remainder a split leaves of a slice that
runs past its block's end, such as the `[0, 0xFFFF)` slice `tbExec` queues with no region
manifest; the runs below show what follows.

* **`sliceStream`, `queueStream`** — the stream of a slice and of a queue.
* **`fetchRun`** — consecutive calls with no other thread in between, and what they deliver.
* **`fetch_one_reads_past_block`, `fetch_one_stalls_on_remainder`, `fetch_one_selects_past_block`,
  `fetch_three_after_split_returns_one`** — what the overcharged remainder does to a run. -/

namespace McadBroker

/-- An item of the stream a queue denotes: an instruction as the delivery loop reads it (`none`
for a read past the end of `MCInsts`), or the end of a region with its description. -/
inductive StreamItem
  /-- An instruction. -/
  | inst (mci : Option MCInstPtr)
  /-- The end of a region. -/
  | regionEnd (description : String)
  deriving DecidableEq, Repr

/-- The number of instructions a slice holds: `min(EndIdx, |MCInsts|) - BeginIdx`. -/
def deliverable (tbs : List (Option TranslationBlock)) (sl : TBSlice) : Nat :=
  min (sliceInsts tbs sl.index).length sl.endIdx.toNat - sl.beginIdx.toNat

/-- The charge the selection loop books for a slice: `min(|MCInsts|, size())`. -/
def charge (tbs : List (Option TranslationBlock)) (sl : TBSlice) : Nat :=
  min (sliceInsts tbs sl.index).length sl.size

/-- The stream of one slice: its instructions, then the end of its region. -/
def sliceStream (tbs : List (Option TranslationBlock)) (sl : TBSlice) : List StreamItem :=
  (((sliceInsts tbs sl.index).drop sl.beginIdx.toNat).take (deliverable tbs sl)).map
      (StreamItem.inst ∘ some) ++
    (sl.region.map (StreamItem.regionEnd ·.description)).toList

/-- The stream of a queue: its slices' streams in queue order. -/
def queueStream (tbs : List (Option TranslationBlock)) (q : List TBSlice) : List StreamItem :=
  q.flatMap (sliceStream tbs)

/-- What one call hands the consumer: the entries it wrote, then the end of the region when it
returns `EndOfRegion` (a `-1` return carries no region). -/
def callItems (count : Int) (out : List (Option MCInstPtr)) (rd : RegionDescriptor) :
    List StreamItem :=
  out.map .inst ++ (if 0 ≤ count ∧ rd.isEnd then [.regionEnd rd.description] else [])

/-- **Consecutive `fetchRegion` calls** of the given sizes, each with a buffer of that size and the
consumer's exchanger, which each call hands on to the next: each call's count and what it hands
out, and the broker after the last call that returned. A call that waits or never ends stops the
run. -/
def fetchRun : Broker → Option MDExchanger → List Nat → List (Int × List StreamItem) × Broker
  | st, _, [] => ([], st)
  | st, mde, n :: ns =>
    match fetchRegion st n n mde with
    | .returns count rd out st' mde' =>
      ((count, callItems count out rd) :: (fetchRun st' mde' ns).1, (fetchRun st' mde' ns).2)
    | _ => ([], st)

/-- Everything a run handed out, call after call. -/
def delivered (calls : List (Int × List StreamItem)) : List StreamItem := calls.flatMap Prod.snd

/-- The broker after the receiver handled the given messages in order. -/
def receiveAll (cfg : BrokerConfig) (st : Broker) (msgs : List Message) : Broker :=
  msgs.foldl (handleMessage cfg) st

/-! ## The runs the charge breaks -/

/-- A block of three one-byte instructions registered at index 0 and executed once, with no
region manifest, then the sentinel: the queue holds `[0, 0xFFFF)` of block 0. -/
def threeInstBroker : Broker :=
  receiveAll byteConfig Broker.init
    [.translatedBlock 0 [[0x90], [0x90], [0x90]], .execTB 0 0x1000 [],
      .execTB 0xFFFFFFFF 0xFFFFFFFFFFFFFFFF []]

/-- **Five `fetch(1)` calls on a three-instruction block.** The first three deliver the block; the
fourth splits the remainder `[3, 0xFFFF)`, charged three, and delivers nothing; the fifth reads
`MCInsts[4]`, past the block's end. What is delivered is not a prefix of the queue's stream. -/
theorem fetch_one_reads_past_block :
    queueStream threeInstBroker.tbs threeInstBroker.tbQueue =
      [.inst (some 0), .inst (some 1), .inst (some 2)] ∧
    delivered (fetchRun threeInstBroker none [1, 1, 1, 1, 1]).1 =
      [.inst (some 0), .inst (some 1), .inst (some 2), .inst none] ∧
    ¬ delivered (fetchRun threeInstBroker none [1, 1, 1, 1, 1]).1 <+:
      queueStream threeInstBroker.tbs threeInstBroker.tbQueue := by
  decide

/-- **The fourth call delivers nothing and removes nothing.** After the sentinel, with one slice
and three instructions queued, the fourth `fetch(1)` returns `0` and leaves the remainder queued;
the fifth, past one call per slice and per instruction, still does not return `-1`. -/
theorem fetch_one_stalls_on_remainder :
    threeInstBroker.isEndOfStream = true ∧
    (fetchRun threeInstBroker none [1, 1, 1, 1, 1]).1.map Prod.fst = [1, 1, 1, 0, 1] ∧
    (fetchRun threeInstBroker none [1, 1, 1]).2.tbQueue = [⟨0, 3, 0xFFFF, none, none⟩] ∧
    (fetchRun threeInstBroker none [1, 1, 1, 1]).2.tbQueue = [⟨0, 4, 0xFFFF, none, none⟩] := by
  decide

/-- **The fifth call reads past the block.** Four `fetch(1)` calls leave `[4, 0xFFFF)` of the
three-instruction block queued; the fifth selects `[4, 5)` from it, and the delivery loop, which
starts at `BeginIdx = 4` and stops at `End = min(3, 5) = 3` only by `i != End`, reads `MCInsts[4]`. -/
theorem fetch_one_selects_past_block :
    (sliceInsts (fetchRun threeInstBroker none [1, 1, 1, 1]).2.tbs 0).length = 3 ∧
    fetchSelect (fetchRun threeInstBroker none [1, 1, 1, 1]).2 1 1 =
      .selected 1 [⟨0, 4, 5, none, none⟩] [⟨0, 5, 0xFFFF, none, none⟩] ∧
    (deliverSlices (fetchRun threeInstBroker none [1, 1, 1, 1]).2.tbs [⟨0, 4, 5, none, none⟩] 1
      ⟨[], 0, none⟩).2.out = [(sliceInsts (fetchRun threeInstBroker none [1, 1, 1, 1]).2.tbs 0).get? 4] := by
  decide

/-- Two blocks of three one-byte instructions, registered at indices 0 and 1 and executed once
each, with no region manifest. -/
def twoBlockBroker : Broker :=
  receiveAll byteConfig Broker.init
    [.translatedBlock 0 [[0x90], [0x90], [0x90]], .translatedBlock 1 [[0x90], [0x90], [0x90]],
      .execTB 0 0x1000 [], .execTB 1 0x2000 []]

/-- **A call after a split falls short of its request.** `fetch(2)` splits block 0; the remainder
`[2, 0xFFFF)` holds one instruction and block 1 three more, but `fetch(3)` is charged three for the
remainder and returns `1`. -/
theorem fetch_three_after_split_returns_one :
    (fetchRun twoBlockBroker none [2]).2.tbQueue.map (deliverable twoBlockBroker.tbs) = [1, 3] ∧
    (fetchRun twoBlockBroker none [2, 3]).1.map Prod.fst = [2, 1] := by
  decide

end McadBroker
