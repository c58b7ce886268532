/-
  The single-writer end of the ring protocol (`zerochannel-core/src/writer.rs`).
-/
import ZeroChannel.Segment

namespace ZeroChannel

open Concur

variable {G : Geometry}

/-- The private state of a writer bound to a segment. -/
structure RawWriter (G : Geometry) where
  currentIndex : Slot G
  lastEntrySeq : ℕ
  deriving DecidableEq

/-- An exclusive, not-yet-published view of one slot. -/
structure WriteHandle (G : Geometry) where
  index : Slot G
  deriving DecidableEq

instance : LawfulBEq (WriteHandle G) := inferInstance

/-- The payload block of `data`, whose length the caller has checked. -/
def blockOf (data : List UInt8) : Block G := fun j => data.getD j.val 0

/-- The bytes of a payload block. -/
def bytesOf (b : Block G) : List UInt8 := List.ofFn b

theorem bytesOf_blockOf {data : List UInt8} (h : data.length = G.payloadBytes) :
    bytesOf (blockOf data : Block G) = data := by
  refine List.ext_getElem (by simp [bytesOf, h]) fun j hj hj' => ?_
  simp [bytesOf, blockOf, hj']

namespace RawWriter

/-- The probes of `claim_slot` from the `n`-th on, `k` of them left. -/
def claimFrom (w : RawWriter G) (n : ℕ) : ℕ → SegProg G (Except ZeroChannelError (Slot G))
  | 0 => pure (.error (.busy s!"all {G.entryCount} ring slots are held by a reader"))
  | k + 1 => do
    let index := G.slot (w.currentIndex.val + n)
    let raw ← loadSeq index
    -- a negative word: a reader holds a zero-copy handle on the slot
    if raw < 0 then claimFrom w (n + 1) k
    else do
      clearSeq index
      pure (.ok index)

/-- Claim the next slot that is not held by a reader and mark it in progress. -/
def claimSlot (w : RawWriter G) : SegProg G (Except ZeroChannelError (Slot G)) :=
  w.claimFrom 0 G.entryCount

/-- Publish a slot under the next sequence number and advance the ring. -/
def publish (w : RawWriter G) (index : Slot G) : SegProg G (ℕ × RawWriter G) := do
  let seq := u64 (w.lastEntrySeq + 1)
  storeSeq index (asI64 seq)
  let currentIndex := G.slot (index.val + 1)
  storeHdr .writeIndex currentIndex.val
  -- the watermark is advertised only after the slot is committed
  storeHdr .lastEntrySeq seq
  pure (seq, ⟨currentIndex, seq⟩)

/-- `copy_nonoverlapping` of `data` into the payload of a slot, byte by byte. -/
def copyIn (index : Slot G) (data : Block G) : SegProg G Unit :=
  (List.finRange G.payloadBytes).foldlM (fun _ j => storeByte index j (data j)) ()

/-- Write one entry (one-copy path). -/
def write (w : RawWriter G) (data : List UInt8) :
    SegProg G (Except ZeroChannelError Unit × RawWriter G) :=
  if data.length ≠ G.payloadBytes then
    pure (.error (.invalidArgument
      s!"expected {G.payloadBytes} payload bytes, got {data.length}"), w)
  else do
    match ← w.claimSlot with
    | .error e => pure (.error e, w)
    | .ok index => do
      copyIn index (blockOf data)
      let (_, w') ← w.publish index
      pure (.ok (), w')

/-- Acquire the next slot for in-place construction (zero-copy path). -/
def tryAcquire (w : RawWriter G) : SegProg G (Except ZeroChannelError (WriteHandle G)) := do
  match ← w.claimSlot with
  | .error e => pure (.error e)
  | .ok index => pure (.ok ⟨index⟩)

/-- Publish a held slot and return its sequence number. -/
def commit (w : RawWriter G) (handle : WriteHandle G) : SegProg G (ℕ × RawWriter G) :=
  w.publish handle.index

end RawWriter

/-- The scan of `recover_state`: the larger of `header_last_entry_seq` and every
    `|entry_seq|` in the ring. -/
def recoverScan (headerLastEntrySeq : ℕ) : SegProg G ℕ :=
  (List.finRange G.entryCount).foldlM (fun maxSeq i => do
    let raw ← loadSeq i
    pure (if maxSeq < raw.natAbs then raw.natAbs else maxSeq)) headerLastEntrySeq

/-- Recover the writer's resume state: the watermark and the corrected index. -/
def recoverState (headerWriteIndex headerLastEntrySeq : ℕ) : SegProg G (ℕ × Slot G) := do
  let maxSeq ← recoverScan headerLastEntrySeq
  let writeIndex := G.slot headerWriteIndex
  let raw ← loadSeq writeIndex
  -- the slot the header points at holds the newest entry: the previous writer
  -- committed but never advanced the index
  if raw.natAbs ≠ 0 ∧ raw.natAbs = maxSeq then pure (maxSeq, G.slot (writeIndex.val + 1))
  else pure (maxSeq, writeIndex)

/-- Bind a writer to a mapped segment described by `header`. -/
def RawWriter.attach (header : Header) : SegProg G (RawWriter G) := do
  let (lastEntrySeq, currentIndex) ← recoverState header.writeIndex header.lastEntrySeq
  pure ⟨currentIndex, lastEntrySeq⟩

end ZeroChannel
