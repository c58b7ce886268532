/-
  A channel in use: one writer and any number of readers on one segment, their
  calls interleaved operation by operation.

  Next to the segment the memory records histories that no party reads: the data
  of the entries published so far (`log`) and the numbers stored for them (`nums`),
  and the slots a compare-exchange has pinned and no release has handed back yet
  (`held`).

  At most one reader, `zc`, was built with `new_zero_copy`; only it may call
  `try_acquire`.  A reader can release a handle it owns, once.
-/
import ZeroChannel.Reader
import ZeroChannel.Concur.Pool

namespace ZeroChannel

open Concur

/-- A segment with the histories of what was published and pinned. -/
structure Hist (G : Geometry) where
  seg : Segment G
  log : List (List UInt8)
  nums : List ℤ
  held : List (ReadHandle G)

variable {G : Geometry}

/-- The store of a slot word that publishes `data`. -/
def Hist.put (h : Hist G) (i : Slot G) (v : ℤ) (data : List UInt8) : Hist G :=
  { h with seg := h.seg.setWord i v, log := h.log ++ [data], nums := h.nums ++ [v] }

section
variable (h : Hist G) (i : Slot G) (v : ℤ) (data : List UInt8)

@[simp] theorem Hist.put_seg : (h.put i v data).seg = h.seg.setWord i v := rfl
@[simp] theorem Hist.put_log : (h.put i v data).log = h.log ++ [data] := rfl
@[simp] theorem Hist.put_nums : (h.put i v data).nums = h.nums ++ [v] := rfl
@[simp] theorem Hist.put_held : (h.put i v data).held = h.held := rfl

end

/-- Operations of the writer during `write(data)`: its store of a slot word
    publishes `data`. -/
def Hist.writerExec (data : List UInt8) : Exec (segSig G) (Hist G)
  | .storeSeq i v, h => ((), h.put i v data)
  | o, h => ((Segment.exec o h.seg).1, { h with seg := (Segment.exec o h.seg).2 })

/-- Operations of a reader: a successful compare-exchange of a slot word pins the
    slot, a store of a slot word hands it back. -/
def Hist.readerExec : Exec (segSig G) (Hist G)
  | .casSeq i old new, h =>
    if h.seg.words i = old then
      (true, { h with seg := h.seg.setWord i new, held := h.held ++ [⟨i, old.toNat⟩] })
    else (false, h)
  | .storeSeq i v, h =>
    ((), { h with seg := h.seg.setWord i v, held := h.held.erase ⟨i, v.toNat⟩ })
  | o, h => ((Segment.exec o h.seg).1, { h with seg := (Segment.exec o h.seg).2 })

theorem writerExec_reads (data : List UInt8) : Reads Hist.seg (Hist.writerExec (G := G) data) :=
  ⟨fun _ _ => rfl, fun _ _ _ => rfl, fun _ _ => rfl⟩

theorem readerExec_reads : Reads Hist.seg (Hist.readerExec (G := G)) :=
  ⟨fun _ _ => rfl, fun _ _ _ => rfl, fun _ _ => rfl⟩

theorem Hist.readerExec_log (o : SegOp G) (h : Hist G) : (readerExec o h).2.log = h.log := by
  cases o <;> simp only [readerExec]
  split_ifs <;> rfl

theorem Hist.writerExec_log (data : List UInt8) (o : SegOp G) (h : Hist G) :
    h.log <+: (writerExec data o h).2.log := by
  cases o <;> simp [writerExec, put]

/-- Readers publish nothing. -/
theorem Hist.reader_run_log {α : Type} (p : SegProg G α) (h : Hist G) :
    (p.run readerExec h).2.log = h.log := by
  induction p generalizing h with
  | pure a => rfl
  | op o k ih => rw [Prog.run_op, ih, readerExec_log]

theorem Hist.reader_run_grows {α : Type} (p : SegProg G α) (h : Hist G) :
    h.log <+: (p.run readerExec h).2.log := by
  simp only [reader_run_log, List.prefix_rfl]

/-- Nothing that was published is taken back. -/
theorem Hist.writer_run_log {α : Type} (data : List UInt8) (p : SegProg G α) (h : Hist G) :
    h.log <+: (p.run (writerExec data) h).2.log := by
  induction p generalizing h with
  | pure a => exact List.prefix_rfl
  | op o k ih =>
    rw [Prog.run_op]
    exact (writerExec_log data o h).trans (ih _ _)

/-- The parties of a channel. -/
inductive Party (ι : Type) where
  | writer
  | reader (r : ι)
  deriving DecidableEq

/-- A reader with the handles it has acquired and not released. -/
structure ReaderLoc (G : Geometry) where
  raw : RawReader G
  handles : List (ReadHandle G)
  deriving DecidableEq

/-- The calls a reader makes. -/
inductive ReaderCall (G : Geometry) where
  | readInto (dst : List UInt8) (fromEntrySeq : Option ℕ)
  | tryAcquire (fromEntrySeq : Option ℕ)
  | release (handle : ReadHandle G)
  deriving DecidableEq

/-- What the calls of a reader return; `readInto` also yields the buffer. -/
inductive ReaderOut (G : Geometry) where
  | readInto (res : Except ZeroChannelError (Option ℕ)) (dst : List UInt8)
  | tryAcquire (handle : Option (ReadHandle G))
  | release
  deriving DecidableEq

/-- The program of a reader's call, `zc` telling whether it is the zero-copy
    reader. -/
def ReaderLoc.enter (zc : Bool) (l : ReaderLoc G) :
    ReaderCall G → Option (SegProg G (ReaderOut G × ReaderLoc G))
  | .readInto dst fromEntrySeq => some do
    let (res, raw, dst') ← l.raw.readInto dst fromEntrySeq
    pure (.readInto res dst', { l with raw })
  | .tryAcquire fromEntrySeq => if zc then some do
      let (handle, raw) ← l.raw.tryAcquire fromEntrySeq
      pure (.tryAcquire handle, ⟨raw, l.handles ++ handle.toList⟩)
    else none
  | .release handle => if handle ∈ l.handles then some do
      RawReader.release handle
      pure (.release, { l with handles := l.handles.erase handle })
    else none

/-- The pool of the parties of a channel. -/
def channel (G : Geometry) (ι : Type) [DecidableEq ι] (zc : Option ι) :
    Pool (segSig G) (Hist G) (Party ι) where
  Loc
    | .writer => RawWriter G
    | .reader _ => ReaderLoc G
  Call
    | .writer => List UInt8
    | .reader _ => ReaderCall G
  Out
    | .writer => Except ZeroChannelError Unit
    | .reader _ => ReaderOut G
  enter
    | .writer, data, w => some (w.write data)
    | .reader r, c, l => l.enter (zc = some r) c
  exec
    | .writer, data => Hist.writerExec data
    | .reader _, _ => Hist.readerExec

/-- A freshly initialised segment with every party bound to it. -/
def channelInit (G : Geometry) (ι : Type) [DecidableEq ι] (zc : Option ι) (dtype : Dtype)
    (owner : ℕ) : (channel G ι zc).Conf where
  mem := ⟨.init G dtype owner, [], [], []⟩
  ctl
    | .writer => .idle ⟨G.slot 0, 0⟩
    | .reader _ => .idle ⟨.attach, []⟩
  hist _ := []

end ZeroChannel
