/-
  A channel used call by call.

  One writer and any number of readers, none of whose calls is interrupted.  The
  state keeps the handles that were handed out and are still outstanding: a
  `WriteHandle` ends by `commit` or by being dropped, a `ReadHandle` by
  `release`.
-/
import ZeroChannel.Channel
import ZeroChannel.Concur.Reach

namespace ZeroChannel

open Concur

/-- One writer, its readers, and the handles in their hands. -/
structure Session (G : Geometry) (ι : Type) where
  mem : Hist G
  writer : RawWriter G
  writeHandles : List (WriteHandle G)
  readers : ι → RawReader G
  readHandles : List (ReadHandle G)

variable {G : Geometry} {ι : Type}

/-- The calls.  `fill` stores a byte through an outstanding handle; `abandon` drops
    a handle uncommitted; `reattach` drops the writer and attaches a new one. -/
inductive Call (G : Geometry) (ι : Type) where
  | write (data : List UInt8)
  | acquire
  | fill (x : WriteHandle G) (j : Fin G.payloadBytes) (b : UInt8)
  | commit (x : WriteHandle G)
  | abandon (x : WriteHandle G)
  | reattach
  | attachReader (r : ι)
  | readInto (r : ι) (dst : List UInt8) (fromEntrySeq : Option ℕ)
  | tryAcquire (r : ι) (fromEntrySeq : Option ℕ)
  | release (x : ReadHandle G)

/-- What the calls return. -/
inductive Answer (G : Geometry) where
  | write (res : Except ZeroChannelError Unit)
  | acquire (res : Except ZeroChannelError (WriteHandle G))
  | commit (seq : ℕ)
  | readInto (res : Except ZeroChannelError (Option ℕ)) (dst : List UInt8)
  | tryAcquire (handle : Option (ReadHandle G))
  | done
  deriving DecidableEq

/-- What a new writer does on a segment that exists: read the header, then attach. -/
def reattachWriter : SegProg G (Option (RawWriter G)) := do
  match ← readHeader loadHdr with
  | .ok (some header) => do
    let w ← RawWriter.attach header
    pure (some w)
  | _ => pure none

namespace Session
variable [DecidableEq ι]

/-- One call. -/
def call (s : Session G ι) : Call G ι → Option (Answer G × Session G ι)
  | .write data =>
    let ((res, writer), mem) := (s.writer.write data).run (Hist.writerExec data) s.mem
    some (.write res, { s with mem, writer })
  | .acquire =>
    let (res, mem) := s.writer.tryAcquire.run (Hist.writerExec []) s.mem
    some (.acquire res, { s with mem, writeHandles := s.writeHandles ++ res.toOption.toList })
  | .fill x j b => if x ∈ s.writeHandles then
      let ((), mem) := (storeByte x.index j b).run (Hist.writerExec []) s.mem
      some (.done, { s with mem })
    else none
  | .commit x => if x ∈ s.writeHandles then
      let ((seq, writer), mem) :=
        (s.writer.commit x).run (Hist.writerExec (bytesOf (s.mem.seg.payload x.index))) s.mem
      some (.commit seq, { s with mem, writer, writeHandles := s.writeHandles.erase x })
    else none
  | .abandon x => if x ∈ s.writeHandles then
      some (.done, { s with writeHandles := s.writeHandles.erase x })
    else none
  | .reattach =>
    match reattachWriter.run (Hist.writerExec []) s.mem with
    | (some writer, mem) => some (.done, { s with mem, writer })
    | (none, _) => none
  | .attachReader r => some (.done, { s with readers := Function.update s.readers r .attach })
  | .readInto r dst fromEntrySeq =>
    let ((res, raw, dst'), mem) :=
      ((s.readers r).readInto dst fromEntrySeq).run Hist.readerExec s.mem
    some (.readInto res dst', { s with mem, readers := Function.update s.readers r raw })
  | .tryAcquire r fromEntrySeq =>
    let ((handle, raw), mem) :=
      ((s.readers r).tryAcquire fromEntrySeq).run Hist.readerExec s.mem
    some (.tryAcquire handle, { s with mem, readers := Function.update s.readers r raw,
                                       readHandles := s.readHandles ++ handle.toList })
  | .release x => if x ∈ s.readHandles then
      let ((), mem) := (RawReader.release x).run Hist.readerExec s.mem
      some (.done, { s with mem, readHandles := s.readHandles.erase x })
    else none

/-- One call, its answer dropped. -/
def step (s : Session G ι) (c : Call G ι) : Option (Session G ι) := (s.call c).map Prod.snd

/-- A writer and readers just bound to a segment, no handle outstanding. -/
def start (m : Segment G) (writer : RawWriter G) (readers : ι → RawReader G) : Session G ι :=
  ⟨⟨m, [], [], []⟩, writer, [], readers, []⟩

/-- A freshly initialised segment with everybody bound to it. -/
def init (G : Geometry) (ι : Type) (dtype : Dtype) (owner : ℕ) : Session G ι :=
  start (.init G dtype owner) ⟨G.slot 0, 0⟩ fun _ => .attach

end Session

end ZeroChannel
