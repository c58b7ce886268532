/-
  A writer hands a segment over.

  The attached writer makes any number of writes and is dropped; meanwhile a
  successor constructs its own writer on the same segment.  Their operations are
  interleaved one by one.  Next to the segment the memory records how many stores
  of `write_index` came after the successor's last load of it (`late`), and whether
  the first writer has given up its role (`released`).
-/
import ZeroChannel.Session
import ZeroChannel.Lifecycle

namespace ZeroChannel

open Concur

variable {G : Geometry}

/-- A segment changing hands. -/
structure Handover (G : Geometry) where
  hist : Hist G
  late : ℕ
  released : Bool

/-- The segment, mapped by a successor that sees the processes `alive`. -/
def segMapping (G : Geometry) (alive : ℕ → Bool) : Mapping (SegProg G) :=
  ⟨loadHdr, casHdr, fun pid => pure (alive pid)⟩

/-- What the first writer does. -/
inductive OldCall where
  | write (data : List UInt8)
  | drop
  deriving DecidableEq

/-- A bid of the successor: the geometry and element type it asks for, the processes
    it finds alive, and the rounds it gives each loop.  Without a geometry this is
    `ensure_connected`, too. -/
structure Bid where
  geometry : Option (ℕ × ℕ)
  dtype : Dtype
  alive : ℕ → Bool
  fuel : ℕ

namespace Bid

/-- `bind`, its outcome as that of the whole construction. -/
def bind (G : Geometry) (bid : Bid) (me : Pid) (name : String) (header : Header) :
    SegProg G (Option (Except ZeroChannelError (Option (RawWriter G)))) := do
  let r ← bindWriter (segMapping G bid.alive) RawWriter.attach me name header bid.fuel
  pure (r.map fun e => e.map some)

/-- `RawWriter::new` on a name that exists, once the segment is mapped.  The answer
    is an unconnected writer when there is no header. -/
def construct (G : Geometry) (bid : Bid) (me : Pid) (name : String) :
    SegProg G (Option (Except ZeroChannelError (Option (RawWriter G)))) :=
  match bid.geometry with
  | some (payloadBytes, entryCount) =>
    match checkGeometry payloadBytes entryCount with
    | .error e => pure (some (.error e))
    | .ok () => do
      match ← acceptHeader (segMapping G bid.alive) payloadBytes entryCount bid.dtype with
      | .error e => pure (some (.error e))
      | .ok none => pure (some (.ok none))
      | .ok (some header) => do
        match ← claimSegment (segMapping G bid.alive) me bid.fuel with
        | none => pure none
        | some _ => bid.bind G me name header
  | none => do
    match ← attachHeader (segMapping G bid.alive) bid.dtype with
    | .error e => pure (some (.error e))
    | .ok none => pure (some (.ok none))
    | .ok (some header) => bid.bind G me name header

end Bid

/-- The two writers. -/
inductive Hand where
  | old
  | new
  deriving DecidableEq

namespace Handover

/-- Operations of the first writer. -/
def oldExec (data : List UInt8) : Exec (segSig G) (Handover G)
  | .store w v, h => ((), ⟨(Hist.writerExec data (.store w v) h.hist).2,
      if w = .writeIndex then h.late + 1 else h.late, h.released⟩)
  | .cas w old new, h => ((Hist.writerExec data (.cas w old new) h.hist).1,
      ⟨(Hist.writerExec data (.cas w old new) h.hist).2, h.late, true⟩)
  | o, h => ((Hist.writerExec data o h.hist).1,
      { h with hist := (Hist.writerExec data o h.hist).2 })

/-- The successor has loaded a header word. -/
def loaded (h : Handover G) (w : HeaderWord) : Handover G :=
  { h with late := if w = .writeIndex then 0 else h.late }

/-- Operations of the successor. -/
def newExec : Exec (segSig G) (Handover G)
  | .load w, h => (h.hist.seg.hdr w, h.loaded w)
  | o, h => ((Segment.exec o h.hist.seg).1,
      { h with hist := { h.hist with seg := (Segment.exec o h.hist.seg).2 } })

end Handover

/-- The first writer, and whether it is still bound. -/
structure OldLoc (G : Geometry) where
  writer : RawWriter G
  bound : Bool
  deriving DecidableEq

/-- `Drop` of a bound writer. -/
def dropWriter (me : Pid) : SegProg G Unit :=
  releaseRole (segMapping G fun _ => false) me .writerOwner

/-- The two writers on the channel `name`.  While the first is bound its process is
    alive, and a probe says so. -/
def handover (G : Geometry) (name : String) (pid₁ pid₂ : Pid) :
    Pool (segSig G) (Handover G) Hand where
  Loc
    | .old => OldLoc G
    | .new => Option (RawWriter G)
  Call
    | .old => OldCall
    | .new => Bid
  Out
    | .old => Option (Except ZeroChannelError Unit)
    | .new => Option (Except ZeroChannelError (Option (RawWriter G)))
  enter
    | .old, .write data, l => if l.bound then some do
        let (res, writer) ← l.writer.write data
        pure (some res, { l with writer })
      else none
    | .old, .drop, l => if l.bound then some do
        dropWriter pid₁
        pure (none, { l with bound := false })
      else none
    | .new, bid, l => if l = none ∧ bid.alive pid₁.val then some do
        let r ← bid.construct G pid₂ name
        pure (r, match r with
          | some (.ok w) => w
          | _ => none)
      else none
  exec
    | .old, .write data => Handover.oldExec data
    | .old, .drop => Handover.oldExec []
    | .new, _ => Handover.newExec

/-- The writer of the session holds the role; its successor has not started. -/
def handoverInit {ι : Type} (s : Session G ι) (name : String) (pid₁ pid₂ : Pid) :
    (handover G name pid₁ pid₂).Conf where
  mem := ⟨{ s.mem with seg := s.mem.seg.setHdr .writerOwner pid₁.val }, 0, false⟩
  ctl
    | .old => .idle ⟨s.writer, true⟩
    | .new => .idle none
  hist _ := []

end ZeroChannel
