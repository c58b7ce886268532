/-
  Generations of zero-copy readers.

  One writer, and a zero-copy reader after another.  A reader ends by being dropped or
  with its process, in either case possibly with handles outstanding: these are lost,
  since nobody can release them any more.  No call is interrupted.
-/
import ZeroChannel.Handover

namespace ZeroChannel

open Concur

variable {G : Geometry}

/-- `RawReader::new` and `RawReader::new_zero_copy` on a name that exists, once the
    segment is mapped.  The answer is an unconnected reader when there is no header. -/
def Bid.constructReader (G : Geometry) (bid : Bid) (me : Pid) (name : String)
    (enableZeroCopy : Bool) :
    SegProg G (Option (Except ZeroChannelError (Option (RawReader G)))) :=
  let M := segMapping G bid.alive
  let bind (header : Header) := do
    let r ← bindReader M (fun _ => pure RawReader.attach) me name enableZeroCopy header bid.fuel
    pure (r.map fun e => e.map some)
  match bid.geometry with
  | some (payloadBytes, entryCount) =>
    match checkGeometry payloadBytes entryCount with
    | .error e => pure (some (.error e))
    | .ok () => do
      match ← acceptHeader M payloadBytes entryCount bid.dtype with
      | .error e => pure (some (.error e))
      | .ok none => pure (some (.ok none))
      | .ok (some header) => do
        match ← claimSegment M me bid.fuel with
        | none => pure none
        | some _ => bind header
  | none => do
    match ← attachHeader M bid.dtype with
    | .error e => pure (some (.error e))
    | .ok none => pure (some (.ok none))
    | .ok (some header) => bind header

/-- A writer, the zero-copy reader of the moment with the handles it has outstanding, and
    the handles that readers before it never released. -/
structure Succession (G : Geometry) where
  mem : Hist G
  writer : RawWriter G
  reader : Option (Pid × RawReader G)
  held : List (ReadHandle G)
  lost : List (ReadHandle G)

/-- What happens. -/
inductive SuccessionAct (G : Geometry) where
  | write (data : List UInt8)
  | construct (me : Pid) (bid : Bid)
  | tryAcquire (fromEntrySeq : Option ℕ)
  | release (x : ReadHandle G)
  | drop
  | crash

namespace Succession

/-- The reader is gone, and with it the means to release its handles. -/
def ended (s : Succession G) : Succession G :=
  { s with reader := none, held := [], lost := s.lost ++ s.held }

/-- One step, on the channel `name`. -/
def step (name : String) (s : Succession G) : SuccessionAct G → Option (Succession G)
  | .write data =>
    let ((_, writer), mem) := (s.writer.write data).run (Hist.writerExec data) s.mem
    some { s with mem, writer }
  | .construct me bid => match s.reader with
    | some _ => none
    | none =>
      let (res, mem) := (bid.constructReader G me name true).run Hist.readerExec s.mem
      some { s with mem, reader := match res with
        | some (.ok (some r)) => some (me, r)
        | _ => none }
  | .tryAcquire fromEntrySeq => match s.reader with
    | some (me, r) =>
      let ((handle, raw), mem) := (r.tryAcquire fromEntrySeq).run Hist.readerExec s.mem
      some { s with mem, reader := some (me, raw), held := s.held ++ handle.toList }
    | none => none
  | .release x => if x ∈ s.held then
      let ((), mem) := (RawReader.release x).run Hist.readerExec s.mem
      some { s with mem, held := s.held.erase x }
    else none
  | .drop => match s.reader with
    | some (me, _) =>
      let ((), mem) := (releaseRole (segMapping G fun _ => false) me .zcReaderOwner).run
        Hist.readerExec s.mem
      some (ended { s with mem })
    | none => none
  | .crash => match s.reader with
    | some _ => some s.ended
    | none => none

/-- A freshly initialised segment with a writer bound to it. -/
def init (G : Geometry) (dtype : Dtype) (owner : ℕ) : Succession G :=
  ⟨⟨.init G dtype owner, [], [], []⟩, ⟨G.slot 0, 0⟩, none, [], []⟩

end Succession

end ZeroChannel
