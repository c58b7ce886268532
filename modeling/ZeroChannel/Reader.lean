/-
  The reader end of the ring protocol (`zerochannel-core/src/reader.rs`).
-/
import ZeroChannel.Writer

namespace ZeroChannel

open Concur

variable {G : Geometry}

/-- The private state of a reader bound to a segment. -/
structure RawReader (G : Geometry) where
  lastEntrySeq : ℕ
  lastReadIdx : Slot G
  deriving DecidableEq

/-- A borrowed, in-place view of one committed slot. -/
structure ReadHandle (G : Geometry) where
  index : Slot G
  entrySeq : ℕ
  deriving DecidableEq

instance : LawfulBEq (ReadHandle G) := inferInstance

/-- The bytes a handle shows. -/
def ReadHandle.asBytes (h : ReadHandle G) (m : Segment G) : List UInt8 := bytesOf (m.payload h.index)

namespace RawReader

/-- Bind a reader to a mapped segment. -/
def attach : RawReader G := ⟨0, G.slot 0⟩

/-- One round of the scan of `locate`: keep the smallest word above `watermark`. -/
def better (watermark : ℕ) (best : Option (Slot G × ℕ)) (idx : Slot G) (raw : ℤ) :
    Option (Slot G × ℕ) :=
  if raw ≤ 0 then best
  else if raw.toNat ≤ watermark then best
  else match best with
    | none => some (idx, raw.toNat)
    | some (_, bestSeq) => if raw.toNat < bestSeq then some (idx, raw.toNat) else best

/-- The full scan of `locate`. -/
def scan (watermark : ℕ) : SegProg G (Option (Slot G × ℕ)) :=
  (List.finRange G.entryCount).foldlM (fun best idx => do
    let raw ← loadSeq idx
    pure (better watermark best idx raw)) none

/-- Locate the oldest committed entry with `entry_seq > watermark`. -/
def locate (r : RawReader G) (watermark : ℕ) : SegProg G (Option (Slot G × ℕ)) := do
  let nextIdx := G.slot (r.lastReadIdx.val + 1)
  let next ← loadSeq nextIdx
  -- fast path: the slot after the one read last, carrying the next number
  if 0 < next ∧ next.toNat = saturatingAdd watermark 1 then pure (some (nextIdx, next.toNat))
  else scan watermark

/-- The effective watermark, or `none` when the caller is already up to date. -/
def watermark (r : RawReader G) (fromEntrySeq : Option ℕ) : SegProg G (Option ℕ) := do
  let watermark := fromEntrySeq.getD r.lastEntrySeq
  let writerEntrySeq ← loadHdr .lastEntrySeq
  if writerEntrySeq ≤ watermark then pure none else pure (some watermark)

/-- `copy_nonoverlapping` of the payload of a slot into `dst`, byte by byte. -/
def copyOut (index : Slot G) (dst : List UInt8) : SegProg G (List UInt8) :=
  (List.finRange G.payloadBytes).foldlM (fun dst j => do
    let b ← loadByte index j
    pure (dst.set j.val b)) dst

/-- The attempts of `read_into`, `k` of them left. -/
def readAttempts (r : RawReader G) (watermark : ℕ) (dst : List UInt8) :
    ℕ → SegProg G (Option ℕ × RawReader G × List UInt8)
  | 0 => pure (none, r, dst)
  | k + 1 => do
    match ← r.locate watermark with
    | none => pure (none, r, dst)
    | some (index, seq) => do
      let dst' ← copyOut index dst
      -- double read: an unchanged word proves the copy was not torn
      let raw ← loadSeq index
      if raw ≠ asI64 seq then readAttempts r watermark dst' k
      else pure (some seq, ⟨seq, index⟩, dst')

/-- Copy the next entry into `dst` (one-copy path). -/
def readInto (r : RawReader G) (dst : List UInt8) (fromEntrySeq : Option ℕ) :
    SegProg G (Except ZeroChannelError (Option ℕ) × RawReader G × List UInt8) :=
  if dst.length ≠ G.payloadBytes then
    pure (.error (.invalidArgument
      s!"destination holds {dst.length} bytes, expected {G.payloadBytes}"), r, dst)
  else do
    match ← r.watermark fromEntrySeq with
    | none => pure (.ok none, r, dst)
    | some watermark => do
      let (seq, r', dst') ← r.readAttempts watermark dst READ_RETRIES
      pure (.ok seq, r', dst')

/-- The attempts of `try_acquire`, `k` of them left. -/
def acquireAttempts (r : RawReader G) (watermark : ℕ) :
    ℕ → SegProg G (Option (ReadHandle G) × RawReader G)
  | 0 => pure (none, r)
  | k + 1 => do
    match ← r.locate watermark with
    | none => pure (none, r)
    | some (index, seq) => do
      -- the slot may have been recycled between the scan and here
      if ← casSeq index (asI64 seq) (-asI64 seq) then pure (some ⟨index, seq⟩, ⟨seq, index⟩)
      else acquireAttempts r watermark k

/-- Acquire the next entry in place (zero-copy path). -/
def tryAcquire (r : RawReader G) (fromEntrySeq : Option ℕ) :
    SegProg G (Option (ReadHandle G) × RawReader G) := do
  match ← r.watermark fromEntrySeq with
  | none => pure (none, r)
  | some watermark => r.acquireAttempts watermark READ_RETRIES

/-- Return a held slot to the ring. -/
def release (handle : ReadHandle G) : SegProg G Unit :=
  storeSeq handle.index (asI64 handle.entrySeq)

end RawReader

end ZeroChannel
