/-
  Opening, binding and leaving a channel (`lifecycle.rs`, `writer.rs`, `reader.rs`).

  `open_or_create` in full, with the drops that Rust inserts on its error paths.  A
  loop of bids or claims takes its rounds as fuel; `none` means that it still spins
  when the fuel runs out.
-/
import ZeroChannel.World
import ZeroChannel.Reader

namespace ZeroChannel

open Concur

/-! ## Segments -/

/-- Decode the prefix header of a mapped segment. -/
def headerOf (m : Shmem) : OsProg (Except ZeroChannelError (Option Header)) :=
  readHeader (osMapping m).load

/-- Stamp a fresh header into a mapped segment, claiming the deed for this process. -/
def initSegment (m : Shmem) (payloadBytes entryCount : ℕ) (dtype : Dtype) (me : Pid) :
    OsProg Unit :=
  initHeader (fun k => .op (.zero m k) .pure) (fun w v => .op (.store m w v) .pure) payloadBytes
    entryCount dtype me.val

/-- Create a new segment and write the header; `none` means that the name is taken. -/
def createSegment (me : Pid) (name : String) (payloadBytes entryCount : ℕ) (dtype : Dtype) :
    OsProg (Except ZeroChannelError (Option Shmem)) := do
  match ← osCreate name (requiredBytes payloadBytes entryCount) with
  | .error .mappingIdExists => pure (.ok none)
  | .error (.other e) => pure (.error (.osError s!"failed to create shared memory: {e}"))
  | .ok m => do
    initSegment m payloadBytes entryCount dtype me
    pure (.ok (some m))

/-- Give up a mapped segment and answer with an error. -/
def reject {α : Type} (e : ZeroChannelError) : OsProg (Option (Except ZeroChannelError α)) := do
  dropShmem
  pure (some (.error e))

/-- Attempt to open an existing segment; `none` means "not there yet". -/
def tryAttach (name : String) (dtype : Dtype) :
    OsProg (Option (Except ZeroChannelError (Option (Shmem × Header)))) := do
  match ← tryOpen name with
  | none => pure (some (.ok none))
  | some m => do
    match ← attachHeader (osMapping m) dtype with
    | .error e => reject e
    | .ok none => do
      dropShmem
      pure (some (.ok none))
    | .ok (some header) => pure (some (.ok (some (m, header))))

/-- The part of `open_or_create` for a name that is taken. -/
def openExisting (me : Pid) (name : String) (payloadBytes entryCount : ℕ) (dtype : Dtype)
    (fuel : ℕ) : OsProg (Option (Except ZeroChannelError (Option (Shmem × Header)))) := do
  match ← tryOpen name with
  | none => pure (some (.error (.osError
      s!"shared memory segment '{name}' exists but could not be opened")))
  | some m => do
    match ← acceptHeader (osMapping m) payloadBytes entryCount dtype with
    | .error e => reject e
    | .ok (some header) => do
      -- the bid for the deed, once the segment is accepted
      match ← claimSegment (osMapping m) me fuel with
      | none => pure none
      | some won => do
        setOwner won
        pure (some (.ok (some (m, header))))
    | .ok none => do
      -- a creator died before it wrote the magic
      let len ← shmemLen m
      if len < requiredBytes payloadBytes entryCount then
        reject (.invalidArgument
          s!"abandoned segment '{name}' is too small for the requested geometry")
      else do
        initSegment m payloadBytes entryCount dtype me
        match ← headerOf m with
        | .error e => reject e
        | .ok none => reject (.osError "segment has no header after init")
        | .ok (some header) => do
          setOwner true
          pure (some (.ok (some (m, header))))

/-- Open or create a segment, based on constructor arguments.  `none` is answered when
    the segment does not exist yet and `delayed_connect` is set. -/
def openOrCreate (me : Pid) (name : String) (payloadBytes entryCount : Option ℕ) (dtype : Dtype)
    (delayedConnect : Bool) (fuel : ℕ) :
    OsProg (Option (Except ZeroChannelError (Option (Shmem × Header)))) :=
  match payloadBytes, entryCount with
  | some pb, some n =>
    match checkGeometry pb n with
    | .error e => pure (some (.error e))
    | .ok () => do
      match ← createSegment me name pb n dtype with
      | .error e => pure (some (.error e))
      | .ok (some m) => do
        match ← headerOf m with
        | .error e => reject e
        | .ok none => reject (.osError "freshly created segment has no header")
        | .ok (some header) => pure (some (.ok (some (m, header))))
      | .ok none => openExisting me name pb n dtype fuel
  | none, none => do
    match ← tryAttach name dtype with
    | none => pure none
    | some (.error e) => pure (some (.error e))
    | some (.ok (some pair)) => pure (some (.ok (some pair)))
    | some (.ok none) =>
      if delayedConnect then pure (some (.ok none))
      else pure (some (.error (.osError
        "shared memory segment does not exist and sizes were not supplied")))
  | _, _ => pure (some (.error (.invalidArgument
      "entry_length and entry_count must both be supplied or both omitted")))

/-- Remove a channel's segment from the system by name. -/
def unlink (name : String) : OsProg Unit := do
  match ← tryOpen name with
  | none => pure ()
  | some _ => do
    setOwner true
    dropShmem

/-! ## Endpoints -/

/-- What is constructed: `RawWriter::new`, and `RawReader::new` or
    `RawReader::new_zero_copy`. -/
inductive Kind where
  | writer
  | reader (enableZeroCopy : Bool)
  deriving DecidableEq

/-- The role an endpoint claims. -/
def Kind.role : Kind → Option Role
  | writer => some .writer
  | reader true => some .zcReader
  | reader false => none

/-- The arguments of a constructor.  Sizes are `usize`. -/
structure OpenArgs where
  kind : Kind
  name : String
  payloadBytes : Option ℕ
  entryCount : Option ℕ
  dtype : Dtype
  delayedConnect : Bool
  usize : (∀ n ∈ payloadBytes, n < 2 ^ 64) ∧ ∀ n ∈ entryCount, n < 2 ^ 64
  deriving DecidableEq

/-- The ring protocol of a connected endpoint.  A header that misaligns the slots is
    bound to no ring of this development. -/
inductive Inner where
  | writer (G : Geometry) (w : RawWriter G)
  | reader (G : Geometry) (r : RawReader G)
  | misaligned

/-- A connected endpoint, with the arguments it was constructed from and the header it was
    bound to. -/
structure Endpoint where
  args : OpenArgs
  shmem : Shmem
  header : Header
  inner : Inner

/-- `zerochannel_core::RawWriter::attach` on a mapped segment. -/
def attachWriter (m : Shmem) (header : Header) : OsProg Inner :=
  match Geometry.of? header.payloadBytes header.entryCount with
  | some G => do
    let w ← onRing m (RawWriter.attach header : SegProg G (RawWriter G))
    pure (.writer G w)
  | none => pure .misaligned

/-- `zerochannel_core::RawReader::attach` on a mapped segment. -/
def attachReader (header : Header) : OsProg Inner :=
  match Geometry.of? header.payloadBytes header.entryCount with
  | some G => pure (.reader G .attach)
  | none => pure .misaligned

/-- `bind` of a writer or a reader. -/
def bindEndpoint (kind : Kind) (m : Shmem) (header : Header) (me : Pid) (name : String)
    (fuel : ℕ) : OsProg (Option (Except ZeroChannelError Inner)) :=
  match kind with
  | .writer => bindWriter (osMapping m) (attachWriter m) me name header fuel
  | .reader zc => bindReader (osMapping m) attachReader me name zc header fuel

/-- A constructor; `none` is an endpoint that is not connected yet. -/
def construct (me : Pid) (args : OpenArgs) (fuel : ℕ) :
    OsProg (Option (Except ZeroChannelError (Option Endpoint))) := do
  match ← openOrCreate me args.name args.payloadBytes args.entryCount args.dtype
      args.delayedConnect fuel with
  | none => pure none
  | some (.error e) => pure (some (.error e))
  | some (.ok none) => pure (some (.ok none))
  | some (.ok (some (m, header))) => do
    match ← bindEndpoint args.kind m header me args.name fuel with
    | none => pure none
    | some (.error e) => reject e
    | some (.ok inner) => pure (some (.ok (some ⟨args, m, header, inner⟩)))

/-- `Drop` of a connected endpoint: the role is handed back, then the mapping goes. -/
def dropEndpoint (me : Pid) (ep : Endpoint) : OsProg Unit := do
  match ep.args.kind.role with
  | some role => releaseRole (osMapping ep.shmem) me role.cell
  | none => pure ()
  dropShmem

end ZeroChannel
