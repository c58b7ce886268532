/-
  A read into a caller's buffer, while the writer writes.

  The memory records what no party reads: whether the writer has stored the word of a
  slot since the reader last loaded it (`stored`), the slot the reader is copying and what
  it has shown of it (`copied`, `shown`), and, for each copy whose slot the writer stored to
  between the load that located the entry and the check after the copy, what the slot
  showed (`overtaken`).
-/
import ZeroChannel.Channel

namespace ZeroChannel

open Concur

/-- A segment with what happened to the copies made of it. -/
structure Watch (G : Geometry) where
  seg : Segment G
  stored : Slot G → Bool
  copied : Option (Slot G)
  shown : Block G
  overtaken : List (Block G)

variable {G : Geometry}

/-- Operations of the reader.  A call begins with a load of the header; the first word loaded
    after a copy is the check of the slot that was copied. -/
def Watch.readerExec : Exec (segSig G) (Watch G)
  | .load w, m => (m.seg.hdr w, { m with copied := none })
  | .loadSeq i, m => (m.seg.words i,
      { m with stored := Function.update m.stored i false, copied := none,
               overtaken := m.overtaken ++
                 if m.copied = some i ∧ m.stored i then [m.shown] else [] })
  | .loadByte i j, m => (m.seg.payload i j,
      { m with copied := some i, shown := Function.update m.shown j (m.seg.payload i j) })
  | o, m => ((Segment.exec o m.seg).1, { m with seg := (Segment.exec o m.seg).2 })

/-- The operation stores the word of the slot. -/
def SegOp.stores : SegOp G → Slot G → Bool
  | clearSeq j, i | storeSeq j _, i | casSeq j _ _, i => decide (i = j)
  | _, _ => false

/-- Operations of the writer. -/
def Watch.writerExec : Exec (segSig G) (Watch G)
  | o, m => ((Segment.exec o m.seg).1,
      { m with seg := (Segment.exec o m.seg).2, stored := fun i => m.stored i || o.stores i })

/-- A writer that writes and a reader that calls `read_into`. -/
def watch (G : Geometry) : Pool (segSig G) (Watch G) (Party Unit) where
  Loc
    | .writer => RawWriter G
    | .reader _ => RawReader G
  Call
    | .writer => List UInt8
    | .reader _ => List UInt8 × Option ℕ
  Out
    | .writer => Except ZeroChannelError Unit
    | .reader _ => Except ZeroChannelError (Option ℕ) × List UInt8
  enter
    | .writer, data, w => some (w.write data)
    | .reader _, (dst, fromEntrySeq), r => some do
        let (res, raw, dst') ← r.readInto dst fromEntrySeq
        pure ((res, dst'), raw)
  exec
    | .writer, _ => Watch.writerExec
    | .reader _, _ => Watch.readerExec

/-- Any ring, with a writer and a reader bound to it. -/
def watchInit (m : Segment G) (w : RawWriter G) (r : RawReader G) : (watch G).Conf where
  mem := ⟨m, fun _ => false, none, fun _ => 0, []⟩
  ctl
    | .writer => .idle w
    | .reader _ => .idle r
  hist _ := []

end ZeroChannel
