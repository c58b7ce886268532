/-
  Writers and readers as their users see them (`zerochannel/src/writer.rs`, `reader.rs`).

  An end is opened by name, and connects to a segment then or, if it was opened before the
  segment existed, with the first call that finds one.  The handles it gives out are
  indices of slots.  No call is interrupted, so one round of each loop is enough.
-/
import ZeroChannel.Open

namespace ZeroChannel

open Concur

/-- A `RawWriter` or `RawReader`, with the handles it has given out: the slots of
    `WriteHandle`s, the slots and numbers of `ReadHandle`s. -/
structure Port where
  args : OpenArgs
  ep : Option Endpoint
  writes : List ℕ
  reads : List (ℕ × ℕ)

/-- The calls.  `fill` stores a byte through the handle of `acquire`, and `abandon` drops it;
    `asBytes` looks at the entry of a handle. -/
inductive PortCall where
  | write (data : List UInt8)
  | acquire
  | fill (j : ℕ) (b : UInt8)
  | commit
  | abandon
  | connect
  | readInto (dst : List UInt8) (fromEntrySeq : Option ℕ)
  | readAs (elem : Dtype) (fromEntrySeq : Option ℕ)
  | tryAcquire (fromEntrySeq : Option ℕ)
  | asBytes (n : ℕ)
  | release (n : ℕ)
  | payloadBytes
  | lastEntrySeq
  | writerEntrySeq
  deriving DecidableEq

/-- What the calls return; a handle for reading shows its number. -/
inductive PortAnswer where
  | write (res : Except ZeroChannelError Unit)
  | acquire (res : Except ZeroChannelError Bool)
  | commit (seq : ℕ)
  | connect (res : Except ZeroChannelError Bool)
  | readInto (res : Except ZeroChannelError (Option ℕ)) (dst : List UInt8)
  | readAs (res : Except ZeroChannelError (Option (ℕ × List UInt8)))
  | tryAcquire (res : Except ZeroChannelError (Option ℕ))
  | bytes (data : List UInt8)
  | number (n : ℕ)
  | done
  deriving DecidableEq

/-- The methods of the two types. -/
def Kind.has : Kind → PortCall → Bool
  | .writer, .write _ | .writer, .acquire | .writer, .fill _ _ | .writer, .commit
  | .writer, .abandon => true
  | .reader _, .connect | .reader _, .readInto _ _ | .reader _, .readAs _ _
  | .reader _, .tryAcquire _ | .reader _, .asBytes _ | .reader _, .release _
  | .reader _, .writerEntrySeq => true
  | _, .payloadBytes | _, .lastEntrySeq => true
  | _, _ => false

/-- The answer of a call that connects first, when that fails. -/
def PortCall.failed (e : ZeroChannelError) : PortCall → Option PortAnswer
  | write _ => some (.write (.error e))
  | acquire => some (.acquire (.error e))
  | connect => some (.connect (.error e))
  | readInto dst _ => some (.readInto (.error e) dst)
  | readAs _ _ => some (.readAs (.error e))
  | tryAcquire _ => some (.tryAcquire (.error e))
  | _ => none

/-- The answer of an end that is not connected. -/
def PortCall.idle : PortCall → Option PortAnswer
  | write _ => some (.write (.ok ()))
  | acquire => some (.acquire (.ok false))
  | connect => some (.connect (.ok false))
  | readInto dst _ => some (.readInto (.ok none) dst)
  | readAs _ _ => some (.readAs (.ok none))
  | tryAcquire _ => some (.tryAcquire (.ok none))
  | payloadBytes | lastEntrySeq | writerEntrySeq => some (.number 0)
  | _ => none

/-- The call begins with `ensure_connected`. -/
def PortCall.connects : PortCall → Bool
  | write _ | acquire | connect | readInto _ _ | readAs _ _ | tryAcquire _ => true
  | _ => false

/-- The call takes a slot to write into. -/
def PortCall.claims : PortCall → Bool
  | write _ | acquire => true
  | _ => false

/-- The call takes a `ReadHandle`. -/
def PortCall.inPlace : PortCall → Bool
  | tryAcquire _ => true
  | _ => false

section
variable {G : Geometry}

/-- What a call of a connected writer does on the ring. -/
def RawWriter.serve (w : RawWriter G) (writes : List ℕ) :
    PortCall → Option (SegProg G (PortAnswer × RawWriter G × List ℕ))
  | .write data => some do
    let (res, w') ← w.write data
    pure (.write res, w', writes)
  | .acquire => some do
    let res ← w.tryAcquire
    pure (.acquire (res.map fun _ => true), w,
      writes ++ res.toOption.toList.map fun x => x.index.val)
  | .fill j b => match writes with
    | [] => none
    | k :: _ => if h : j < G.payloadBytes then some do
        storeByte (G.slot k) ⟨j, h⟩ b
        pure (.done, w, writes)
      else none
  | .commit => match writes with
    | [] => none
    | k :: rest => some do
      let (seq, w') ← w.commit ⟨G.slot k⟩
      pure (.commit seq, w', rest)
  | .abandon => match writes with
    | [] => none
    | _ :: rest => some (pure (.done, w, rest))
  | .payloadBytes => some (pure (.number G.payloadBytes, w, writes))
  | .lastEntrySeq => some (pure (.number w.lastEntrySeq, w, writes))
  | _ => none

/-- `read_as`, as bytes; `elem` is the element type. -/
def RawReader.readAs (r : RawReader G) (elem : Dtype) (fromEntrySeq : Option ℕ) :
    SegProg G (Except ZeroChannelError (Option (ℕ × List UInt8)) × RawReader G) :=
  if G.payloadBytes % elem.size ≠ 0 then
    pure (.error (.invalidArgument
      s!"payload of {G.payloadBytes} bytes is not a whole number of {elem.size}-byte elements"), r)
  else do
    let buf := List.replicate (G.payloadBytes / elem.size * elem.size) 0
    let (res, r', buf') ← r.readInto buf fromEntrySeq
    pure (res.map fun seq => seq.map fun n => (n, buf'), r')

/-- What a call of a connected reader does on the ring. -/
def RawReader.serve (r : RawReader G) (reads : List (ℕ × ℕ)) :
    PortCall → Option (SegProg G (PortAnswer × RawReader G × List (ℕ × ℕ)))
  | .connect => some (pure (.connect (.ok true), r, reads))
  | .readInto dst fromEntrySeq => some do
    let (res, r', dst') ← r.readInto dst fromEntrySeq
    pure (.readInto res dst', r', reads)
  | .readAs elem fromEntrySeq => some do
    let (res, r') ← r.readAs elem fromEntrySeq
    pure (.readAs res, r', reads)
  | .tryAcquire fromEntrySeq => some do
    let (handle, r') ← r.tryAcquire fromEntrySeq
    pure (.tryAcquire (.ok (handle.map fun x => x.entrySeq)), r',
      reads ++ handle.toList.map fun x => (x.index.val, x.entrySeq))
  | .asBytes n => (reads.find? fun x => x.2 = n).map fun x => do
    let bytes ← copyOut (G.slot x.1) (List.replicate G.payloadBytes 0)
    pure (.bytes bytes, r, reads)
  | .release n => (reads.find? fun x => x.2 = n).map fun x => do
    release ⟨G.slot x.1, x.2⟩
    pure (.done, r, reads.erase x)
  | .payloadBytes => some (pure (.number G.payloadBytes, r, reads))
  | .lastEntrySeq => some (pure (.number r.lastEntrySeq, r, reads))
  | .writerEntrySeq => some do
    let n ← loadHdr .lastEntrySeq
    pure (.number n, r, reads)
  | _ => none

end

namespace Port

/-- Attach a deferred channel if the segment now exists (`ensure_connected`). -/
def ensureConnected (me : Pid) (p : Port) (fuel : ℕ) :
    OsProg (Option (Except ZeroChannelError Port)) :=
  if p.ep.isSome then pure (some (.ok p))
  else do
    match ← tryAttach p.args.name p.args.dtype with
    | none => pure none
    | some (.error e) => pure (some (.error e))
    | some (.ok (some (m, header))) => do
      match ← bindEndpoint p.args.kind m header me p.args.name fuel with
      | none => pure none
      | some (.error e) => reject e
      | some (.ok inner) => pure (some (.ok { p with ep := some ⟨p.args, m, header, inner⟩ }))
    | some (.ok none) =>
      if p.args.delayedConnect then pure (some (.ok p))
      else pure (some (.error (.osError "shared memory segment not available")))

/-- The rest of a call. -/
def serve (p : Port) (c : PortCall) : OsProg (Option (PortAnswer × Port)) := match p.ep with
  | none => pure (c.idle.map fun a => (a, p))
  | some ep => match ep.inner with
    | .writer G w => match w.serve p.writes c with
      | none => pure none
      | some prog => do
        let (a, w', writes) ← onRing ep.shmem prog
        pure (some (a, { p with ep := some { ep with inner := .writer G w' }, writes }))
    | .reader G r => match r.serve p.reads c with
      | none => pure none
      | some prog => do
        let (a, r', reads) ← onRing ep.shmem prog
        pure (some (a, { p with ep := some { ep with inner := .reader G r' }, reads }))
    | .misaligned => pure none

/-- A call; `none` is not a call of this end, or a loop that still spins. -/
def call (me : Pid) (p : Port) (c : PortCall) (fuel : ℕ) :
    OsProg (Option (PortAnswer × Port)) :=
  if !p.args.kind.has c then pure none
  else if c.inPlace && p.args.kind ≠ .reader true then
    pure (some (.tryAcquire (.error (.invalidArgument
      "zero-copy reads require a reader built with new_zero_copy")), p))
  else if c.connects then do
    match ← p.ensureConnected me fuel with
    | none => pure none
    | some (.error e) => pure ((c.failed e).map fun a => (a, p))
    | some (.ok p') => p'.serve c
  else p.serve c

end Port

/-! ## The whole -/

/-- The operating system, and the ends in use. -/
structure Service (E : Type) where
  world : World E
  ports : E → Option Port

/-- What happens. -/
inductive ServiceAct (E : Type) where
  | open (e : E) (args : OpenArgs)
  | call (e : E) (c : PortCall)
  | drop (e : E)
  | unlink (e : E) (name : String)
  | crash (pid : ℕ)

/-- What it returns; a constructor tells whether the end is connected. -/
inductive ServiceAnswer where
  | opened (res : Except ZeroChannelError Bool)
  | called (a : PortAnswer)
  | done
  deriving DecidableEq

namespace Service
variable {E : Type} [DecidableEq E] (who : E → Pid)

/-- The end a constructor answers with. -/
def opened (s : Service E) (e : E) (args : OpenArgs) :
    Option (Except ZeroChannelError (Option Endpoint)) → Option (ServiceAnswer × (E → Option Port))
  | none => none
  | some (.error er) => some (.opened (.error er), s.ports)
  | some (.ok ep) =>
    some (.opened (.ok ep.isSome), Function.update s.ports e (some ⟨args, ep, [], []⟩))

/-- One step.  The handles of an end go with it. -/
def step (s : Service E) : ServiceAct E → Option (ServiceAnswer × Service E)
  | .open e args => if s.world.live (who e).val ∧ (s.ports e).isNone then
      let (res, world) := (construct (who e) args 1).run (World.exec who e) s.world
      (s.opened e args res).map fun r => (r.1, ⟨world, r.2⟩)
    else none
  | .call e c => (s.ports e).bind fun p =>
    let (res, world) := (p.call (who e) c 1).run (World.exec who e) s.world
    res.map fun r => (.called r.1, ⟨world, Function.update s.ports e (some r.2)⟩)
  | .drop e => (s.ports e).map fun p => match p.ep with
    | some ep =>
      let ((), world) := (dropEndpoint (who e) ep).run (World.exec who e) s.world
      (.done, ⟨world, Function.update s.ports e none⟩)
    | none => (.done, { s with ports := Function.update s.ports e none })
  | .unlink e name => if s.world.live (who e).val ∧ (s.ports e).isNone then
      let ((), world) := (unlink name).run (World.exec who e) s.world
      some (.done, { s with world })
    else none
  | .crash pid => some (.done, ⟨s.world.crashed who pid,
      fun e => if (who e).val = pid then none else s.ports e⟩)

/-- Nothing is open yet. -/
def init (w : World E) : Service E := ⟨w, fun _ => none⟩

end Service

end ZeroChannel
