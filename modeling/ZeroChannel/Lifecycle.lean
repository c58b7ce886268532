/-
  Liveness of owners, exclusive roles and the deed (`lifecycle.rs`).

  The code is written for any monad that can load and compare-exchange the words
  of a mapped header and probe whether a process is alive.  A loop that spins
  takes the number of its rounds as fuel, and answers `none` when that runs out.
-/
import ZeroChannel.Metadata

namespace ZeroChannel

variable {m : Type → Type} [Monad m] {ω : Type}

/-- The process identifiers the operating system hands out (`current_pid`). -/
structure Pid where
  val : ℕ
  pos : 0 < val
  lt : val < 2 ^ 32
  deriving DecidableEq

/-- A mapped header, and the probe for live processes. -/
structure Mapping (m : Type → Type) where
  load : HeaderWord → m ℕ
  cas : HeaderWord → ℕ → ℕ → m (Except ℕ Unit)
  probe : ℕ → m Bool

/-- `holder as u32`. -/
def asU32 (holder : ℕ) : ℕ := holder % 2 ^ 32

@[simp] theorem Pid.asU32_val (pid : Pid) : asU32 pid.val = pid.val := Nat.mod_eq_of_lt pid.lt

/-- Is `pid` a live process? -/
def processAlive (M : Mapping m) (pid : ℕ) : m Bool :=
  if pid = 0 then pure false else M.probe pid

/-! ## Exclusive roles -/

/-- The exclusive roles. -/
inductive Role where
  | writer
  | zcReader
  deriving DecidableEq, Repr

/-- The header word of a role (`writer_owner`, `zc_reader_owner`). -/
def Role.cell : Role → HeaderWord
  | writer => .writerOwner
  | zcReader => .zcReaderOwner

/-- The name of a role in messages. -/
def Role.text : Role → String
  | writer => "writer"
  | zcReader => "zero-copy reader"

/-- Claim an exclusive role by compare-and-swapping this process's PID into its
    cell. -/
def claimRole (M : Mapping m) (me : Pid) (cell : HeaderWord) (role name : String) :
    ℕ → m (Option (Except ZeroChannelError Unit))
  | 0 => pure none
  | fuel + 1 => do
    match ← M.cas cell 0 me.val with
    | .ok () => pure (some (.ok ()))
    | .error holder => do
      -- a holder equal to `me` conflicts too: another instance in this process
      if ← processAlive M (asU32 holder) then
        pure (some (.error (.roleConflict
          s!"the {role} role on channel '{name}' is held by process {holder}")))
      else do
        -- a stale claim: adopt it, or look at the new holder
        match ← M.cas cell holder me.val with
        | .ok () => pure (some (.ok ()))
        | .error _ => claimRole M me cell role name fuel

/-- Release a role previously claimed by this process; a no-op when someone else has
    adopted the claim. -/
def releaseRole (M : Mapping m) (me : Pid) (cell : HeaderWord) : m Unit := do
  let _ ← M.cas cell me.val 0
  pure ()

/-- Try to claim responsibility for unlinking the segment. -/
def claimSegment (M : Mapping m) (me : Pid) : ℕ → m (Option Bool)
  | 0 => pure none
  | fuel + 1 => do
    match ← M.cas .segmentOwner 0 me.val with
    | .ok () => pure (some true)
    | .error holder => do
      let kept ← if holder = me.val then pure true else processAlive M (asU32 holder)
      if kept then pure (some false)
      else do
        match ← M.cas .segmentOwner holder me.val with
        | .ok () => pure (some true)
        | .error _ => claimSegment M me fuel

/-! ## Accepting a mapped segment -/

/-- The checks `open_or_create` makes on a segment it did not create; `none` means
    that there is no header yet. -/
def acceptHeader (M : Mapping m) (payloadBytes entryCount : ℕ) (dtype : Dtype) :
    m (Except ZeroChannelError (Option Header)) := do
  match ← readHeader M.load with
  | .error e => pure (.error e)
  | .ok none => pure (.ok none)
  | .ok (some header) => pure do
    validateHeader header payloadBytes entryCount
    checkDtype header dtype
    return some header

/-- The checks `try_attach` makes on a segment it has opened; `none` means "not there
    yet". -/
def attachHeader (M : Mapping m) (dtype : Dtype) :
    m (Except ZeroChannelError (Option Header)) := do
  match ← readHeader M.load with
  | .error e => pure (.error e)
  | .ok none => pure (.ok none)
  | .ok (some header) => pure do
    if header.payloadBytes = 0 ∨ header.entryCount = 0 then return none
    checkDtype header dtype
    return some header

/-- `RawWriter::bind`: claim the writer role, then `attach` to the ring. -/
def bindWriter (M : Mapping m) (attach : Header → m ω) (me : Pid) (name : String)
    (header : Header) (fuel : ℕ) : m (Option (Except ZeroChannelError ω)) := do
  match ← claimRole M me .writerOwner "writer" name fuel with
  | none => pure none
  | some (.error e) => pure (some (.error e))
  | some (.ok ()) => do
    let inner ← attach header
    pure (some (.ok inner))

/-- `RawReader::bind`: claim the zero-copy reader role if requested, then `attach` to the
    ring. -/
def bindReader (M : Mapping m) (attach : Header → m ω) (me : Pid) (name : String)
    (enableZeroCopy : Bool) (header : Header) (fuel : ℕ) :
    m (Option (Except ZeroChannelError ω)) := do
  let claimed ← if enableZeroCopy then
      claimRole M me .zcReaderOwner "zero-copy reader" name fuel
    else pure (some (.ok ()))
  match claimed with
  | none => pure none
  | some (.error e) => pure (some (.error e))
  | some (.ok ()) => do
    let inner ← attach header
    pure (some (.ok inner))

end ZeroChannel
