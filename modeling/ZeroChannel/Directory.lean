/-
  What the crate is for: a directory of channels, each a rotating queue.

  This is the abstract side.  A channel has a geometry, an element type, a queue, for each
  role the end that has it, and the process whose it is.  A name refers to a channel; who
  opens a name connects to the channel it refers to then, and stays with it when the name
  goes.  There are no words, no segments and no process identifiers in cells here.
-/
import ZeroChannel.Service
import ZeroChannel.Queue

namespace ZeroChannel

/-- A channel. -/
structure Line (E : Type) where
  geometry : Geometry
  dtype : Dtype
  queue : Queue geometry E
  holder : Role → Option E
  deed : Pid

/-- An end: the channel it is connected to, whether it takes the name along when it goes, and
    the entries it holds. -/
structure Desk where
  args : OpenArgs
  line : Option (ℕ × Bool)
  held : List ℕ

/-- Channels are numbered in the order in which they were created. -/
structure Directory (E : Type) where
  names : String → Option ℕ
  lines : ℕ → Option (Line E)
  count : ℕ
  desks : E → Option Desk
  live : ℕ → Bool
  refuses : String → ℕ → Option String

namespace Queue
variable {G : Geometry} {ι : Type}

/-- The entry being built is given up. -/
def vacated (q : Queue G ι) : Queue G ι := q.change .building fun c => { c with use := .free }

/-- The bytes in the cell in use `u`. -/
def bytesAt (q : Queue G ι) (u : Use) : List UInt8 :=
  ((q.cells.find? fun c => c.use = u).map fun c => bytesOf c.payload).getD []

end Queue

namespace QueueAnswer

/-- The answer as that of an end. -/
def toPort : QueueAnswer → PortAnswer
  | write res => .write res
  | acquire res => .acquire (res.map fun _ => true)
  | commit seq => .commit seq
  | readInto res dst => .readInto res dst
  | tryAcquire entry => .tryAcquire (.ok (entry.map Prod.fst))
  | done => .done

/-- The answer of `readInto`, as that of `readAs`. -/
def toRead : QueueAnswer → PortAnswer
  | readInto res dst => .readAs (res.map fun seq => seq.map fun n => (n, dst))
  | _ => .done

/-- The entry handed out. -/
def number? : QueueAnswer → Option ℕ
  | tryAcquire entry => entry.map Prod.fst
  | _ => none

end QueueAnswer

namespace Line
variable {E : Type} [DecidableEq E] (who : E → Pid)

/-- An end connects: it takes its role, and its bookmark is at the start. -/
def bind (l : Line E) (e : E) (args : OpenArgs) : Except ZeroChannelError (Line E) :=
  let entered := { l with queue.marks := Function.update l.queue.marks e 0 }
  match args.kind.role with
  | none => .ok entered
  | some role => match l.holder role with
    | some holder => .error (.roleConflict
        s!"the {role.text} role on channel '{args.name}' is held by process {(who holder).val}")
    | none => .ok { entered with holder := Function.update l.holder role (some e) }

/-- The requested element type is not that of the channel. -/
def checkDtype (l : Line E) (requested : Dtype) : Except ZeroChannelError Unit :=
  if requested = .u8 ∨ l.dtype = requested then .ok ()
  else .error (.invalidArgument
    s!"dtype mismatch: channel holds {l.dtype.name}, requested {requested.name}")

/-- The requested sizes are not those of the channel. -/
def checkSizes (l : Line E) (payloadBytes entryCount : ℕ) : Except ZeroChannelError Unit :=
  if l.geometry.payloadBytes ≠ payloadBytes ∨ l.geometry.entryCount ≠ entryCount then
    .error (.invalidArgument s!"header mismatch: expected ({payloadBytes} payload bytes, {entryCount} entries), found ({l.geometry.payloadBytes} payload bytes, {l.geometry.entryCount} entries)")
  else .ok ()

/-- The ends in `gone` are gone, and with the writer the entry it was building. -/
def left (l : Line E) (gone : E → Bool) : Line E :=
  { l with
    holder := fun role => (l.holder role).filter fun e => !gone e,
    queue := if (l.holder .writer).any gone then l.queue.vacated else l.queue }

/-- A call of the end `e`, which holds the entries `held`. -/
def call (l : Line E) (kind : Kind) (e : E) (held : List ℕ) :
    PortCall → Option (PortAnswer × Queue l.geometry E × List ℕ)
  | .write data => (l.queue.call (.write data)).map fun r => (r.1.toPort, r.2, held)
  | .acquire => (l.queue.call .acquire).map fun r => (r.1.toPort, r.2, held)
  | .fill j b => if h : j < l.geometry.payloadBytes then
      (l.queue.call (.fill ⟨j, h⟩ b)).map fun r => (r.1.toPort, r.2, held)
    else none
  | .commit => (l.queue.call .commit).map fun r => (r.1.toPort, r.2, held)
  | .abandon => (l.queue.call .abandon).map fun r => (r.1.toPort, r.2, held)
  | .connect => some (.connect (.ok true), l.queue, held)
  | .readInto dst f => (l.queue.call (.readInto e dst f)).map fun r => (r.1.toPort, r.2, held)
  | .readAs _ f =>
    (l.queue.call (.readInto e (List.replicate l.geometry.payloadBytes 0) f)).map fun r =>
      (r.1.toRead, r.2, held)
  | .tryAcquire f => (l.queue.call (.tryAcquire e f)).map fun r =>
      (r.1.toPort, r.2, held ++ r.1.number?.toList)
  | .asBytes n => if n ∈ held then some (.bytes (l.queue.bytesAt (.held n)), l.queue, held)
    else none
  | .release n => if n ∈ held then
      (l.queue.call (.release n)).map fun r => (r.1.toPort, r.2, held.erase n)
    else none
  | .payloadBytes => some (.number l.geometry.payloadBytes, l.queue, held)
  | .lastEntrySeq => some (.number (match kind with
      | .writer => l.queue.published
      | .reader _ => l.queue.marks e), l.queue, held)
  | .writerEntrySeq => some (.number l.queue.published, l.queue, held)

end Line

namespace Directory
variable {E : Type} [DecidableEq E] (who : E → Pid)

def setLine (d : Directory E) (g : ℕ) (l : Line E) : Directory E :=
  { d with lines := Function.update d.lines g (some l) }

def setDesk (d : Directory E) (e : E) (k : Desk) : Directory E :=
  { d with desks := Function.update d.desks e (some k) }

/-- A name is given up. -/
def unname (d : Directory E) (name : String) : Directory E :=
  { d with names := Function.update d.names name none }

/-- A new channel. -/
def create (d : Directory E) (e : E) (name : String) (G : Geometry) (dtype : Dtype) : Directory E :=
  { d with
    names := Function.update d.names name (some d.count),
    lines := Function.update d.lines d.count
      (some ⟨G, dtype, .empty G E, fun _ => none, who e⟩),
    count := d.count + 1 }

/-- Connect `e` to channel `g`; `own` tells whether it takes the name along, which it does at
    once when the role it asks for is taken. -/
def join (d : Directory E) (e : E) (args : OpenArgs) (g : ℕ) (l : Line E) (own : Bool) :
    Except ZeroChannelError Unit × Directory E :=
  match l.bind who e args with
  | .error er => (.error er, if own then d.unname args.name else d)
  | .ok l' => (.ok (), (d.setLine g l').setDesk e ⟨args, some (g, own), []⟩)

/-- The channel of a name. -/
def find (d : Directory E) (name : String) : Option (ℕ × Line E) :=
  (d.names name).bind fun g => (d.lines g).map fun l => (g, l)

/-- Look a name up and connect to its channel; `false` means that there is none. -/
def attach (d : Directory E) (e : E) (args : OpenArgs) :
    Except ZeroChannelError Bool × Directory E :=
  match d.find args.name with
  | none => (.ok false, d)
  | some (g, l) => match l.checkDtype args.dtype with
    | .error er => (.error er, d)
    | .ok () => let (res, d') := d.join who e args g l false
      (res.map fun _ => true, d')

/-- Open a channel that exists, with its sizes.  The channel of a dead process passes to who
    opens it so. -/
def adopt (d : Directory E) (e : E) (args : OpenArgs) (payloadBytes entryCount : ℕ) (g : ℕ)
    (l : Line E) : Except ZeroChannelError Unit × Directory E :=
  match (do l.checkSizes payloadBytes entryCount; l.checkDtype args.dtype) with
  | .error er => (.error er, d)
  | .ok () =>
    let own := !d.live l.deed.val
    let l' := if own then { l with deed := who e } else l
    (d.setLine g l').join who e args g l' own

/-- Open a channel. -/
def «open» (d : Directory E) (e : E) (args : OpenArgs) :
    Except ZeroChannelError Bool × Directory E :=
  match args.payloadBytes, args.entryCount with
  | some pb, some n => match checkGeometry pb n, Geometry.of? pb n with
    | .error er, _ => (.error er, d)
    | .ok (), none => (.ok false, d)
    | .ok (), some G =>
      match d.find args.name with
      | some (g, l) => let (res, d') := d.adopt who e args pb n g l
        (res.map fun _ => true, d')
      | none => match d.refuses args.name (requiredBytes pb n) with
        | some msg => (.error (.osError s!"failed to create shared memory: {msg}"), d)
        | none =>
          let (res, d') := (d.create who e args.name G args.dtype).join who e args d.count
            ⟨G, args.dtype, .empty G E, fun _ => none, who e⟩ true
          (res.map fun _ => true, d')
  | none, none => match d.attach who e args with
    | (.ok false, d') =>
      if args.delayedConnect then (.ok false, d'.setDesk e ⟨args, none, []⟩)
      else (.error (.osError "shared memory segment does not exist and sizes were not supplied"), d')
    | r => r
  | _, _ => (.error (.invalidArgument
      "entry_length and entry_count must both be supplied or both omitted"), d)

/-- A call of an end, once it has tried to connect. -/
def serve (d : Directory E) (e : E) (k : Desk) (c : PortCall) :
    Option (PortAnswer × Directory E) :=
  match k.line with
  | none => c.idle.map fun a => (a, d)
  | some (g, own) => (d.lines g).bind fun l =>
    (l.call k.args.kind e k.held c).map fun r =>
      (r.1, (d.setLine g { l with queue := r.2.1 }).setDesk e ⟨k.args, some (g, own), r.2.2⟩)

/-- A call of an end. -/
def call (d : Directory E) (e : E) (k : Desk) (c : PortCall) : Option (PortAnswer × Directory E) :=
  if !k.args.kind.has c then none
  else if c.inPlace && k.args.kind ≠ .reader true then
    some (.tryAcquire (.error (.invalidArgument
      "zero-copy reads require a reader built with new_zero_copy")), d)
  else if c.connects && k.line.isNone then match d.attach who e k.args with
    | (.error er, d') => (c.failed er).map fun a => (a, d')
    | (.ok false, d') =>
      if k.args.delayedConnect then d'.serve e k c
      else (c.failed (.osError "shared memory segment not available")).map fun a => (a, d')
    | (.ok true, d') => (d'.desks e).bind fun k' => d'.serve e k' c
  else d.serve e k c

/-- The ends in `gone` are gone. -/
def left (d : Directory E) (gone : E → Bool) : Directory E :=
  { d with
    lines := fun g => (d.lines g).map fun l => l.left gone,
    desks := fun e => if gone e then none else d.desks e }

/-- **The specification.** -/
def step (d : Directory E) : ServiceAct E → Option (ServiceAnswer × Directory E)
  | .open e args => if d.live (who e).val ∧ (d.desks e).isNone then
      let (res, d') := d.open who e args
      some (.opened res, d')
    else none
  | .call e c => (d.desks e).bind fun k =>
    (d.call who e k c).map fun r => (.called r.1, r.2)
  | .drop e => (d.desks e).map fun k =>
    let d' := d.left fun e' => e' = e
    (.done, match k.line with
      | some (_, true) => d'.unname k.args.name
      | _ => d')
  | .unlink e name => if d.live (who e).val ∧ (d.desks e).isNone then
      some (.done, d.unname name)
    else none
  | .crash pid => some (.done,
      { d.left fun e => (who e).val = pid with live := Function.update d.live pid false })

/-- No channel yet. -/
def empty (E : Type) (live : ℕ → Bool) (refuses : String → ℕ → Option String) : Directory E :=
  ⟨fun _ => none, fun _ => none, 0, fun _ => none, live, refuses⟩

end Directory

end ZeroChannel
