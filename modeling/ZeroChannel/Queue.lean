/-
  What a ring with pins is for: a rotating queue of cells.

  This is the abstract side; nothing here is taken from the ring.  The cells stand in
  the order in which the writer comes to them.  It takes the first cell that is not held
  and puts the new entry at the back; the held cells it has skipped go to the back as
  well.  Holding a cell and letting it go leaves it where it stands.
-/
import ZeroChannel.Writer
import Mathlib.Data.List.MinMax

namespace ZeroChannel

/-- What a cell is used for. -/
inductive Use where
  | free
  | building
  | entry (n : ℕ)
  | held (n : ℕ)
  deriving DecidableEq

def Use.isHeld : Use → Bool
  | held _ => true
  | _ => false

/-- A cell with its payload. -/
structure Cell (G : Geometry) where
  use : Use
  payload : Block G

/-- The cells, the number of entries published, and the bookmark of each reader. -/
structure Queue (G : Geometry) (ι : Type) where
  cells : List (Cell G)
  published : ℕ
  marks : ι → ℕ

/-- The calls. -/
inductive QueueCall (G : Geometry) (ι : Type) where
  | write (data : List UInt8)
  | acquire
  | fill (j : Fin G.payloadBytes) (b : UInt8)
  | commit
  | abandon
  | reattach
  | attachReader (r : ι)
  | readInto (r : ι) (dst : List UInt8) (fromEntrySeq : Option ℕ)
  | tryAcquire (r : ι) (fromEntrySeq : Option ℕ)
  | release (n : ℕ)

/-- The answers; that of `tryAcquire` comes with the bytes of the cell held. -/
inductive QueueAnswer where
  | write (res : Except ZeroChannelError Unit)
  | acquire (res : Except ZeroChannelError Unit)
  | commit (seq : ℕ)
  | readInto (res : Except ZeroChannelError (Option ℕ)) (dst : List UInt8)
  | tryAcquire (entry : Option (ℕ × List UInt8))
  | done
  deriving DecidableEq

namespace Queue
variable {G : Geometry} {ι : Type}

/-- Nothing published. -/
def empty (G : Geometry) (ι : Type) : Queue G ι :=
  ⟨List.replicate G.entryCount ⟨.free, fun _ => 0⟩, 0, fun _ => 0⟩

/-- No entry is being built. -/
def ready (q : Queue G ι) : Bool := q.cells.all fun c => c.use ≠ .building

/-- The cells the writer skips, and those from the first that is not held on. -/
def skipped (q : Queue G ι) : List (Cell G) := q.cells.takeWhile fun c => c.use.isHeld

def ahead (q : Queue G ι) : List (Cell G) := q.cells.dropWhile fun c => c.use.isHeld

/-- The next entry goes to the back, after the cells before its own. -/
def publish (q : Queue G ι) (before rest : List (Cell G)) (b : Block G) : Queue G ι :=
  { q with cells := rest ++ before ++ [⟨.entry (q.published + 1), b⟩],
           published := q.published + 1 }

/-- The cells in use `u` change. -/
def change (q : Queue G ι) (u : Use) (f : Cell G → Cell G) : Queue G ι :=
  { q with cells := q.cells.map fun c => if c.use = u then f c else c }

/-- An entry newer than `w`. -/
def newer (w : ℕ) (c : Cell G) : Option (ℕ × Block G) := match c.use with
  | .entry n => if w < n then some (n, c.payload) else none
  | _ => none

/-- The oldest entry newer than `w` that is not held. -/
def next? (q : Queue G ι) (w : ℕ) : Option (ℕ × Block G) :=
  (q.cells.filterMap (newer w)).argmin Prod.fst

variable [DecidableEq ι]

/-- **The specification.**  Between `acquire` and `commit` or `abandon` the writer makes no
    other call than `fill`. -/
def call (q : Queue G ι) : QueueCall G ι → Option (QueueAnswer × Queue G ι)
  | .write data => if q.ready then
      if data.length = G.payloadBytes then
        match q.ahead with
        | [] => some (.write (.error (.busy
            s!"all {G.entryCount} ring slots are held by a reader")), q)
        | _ :: rest => some (.write (.ok ()), q.publish q.skipped rest (blockOf data))
      else some (.write (.error (.invalidArgument
        s!"expected {G.payloadBytes} payload bytes, got {data.length}")), q)
    else none
  | .acquire => if q.ready then
      match q.ahead with
      | [] => some (.acquire (.error (.busy
          s!"all {G.entryCount} ring slots are held by a reader")), q)
      | c :: rest => some (.acquire (.ok ()),
          { q with cells := q.skipped ++ { c with use := .building } :: rest })
    else none
  | .fill j b => if q.ready then none
    else some (.done, q.change .building fun c =>
      { c with payload := Function.update c.payload j b })
  | .commit => match q.cells.dropWhile fun c => c.use ≠ .building with
    | [] => none
    | c :: rest => some (.commit (q.published + 1),
        q.publish (q.cells.takeWhile fun c => c.use ≠ .building) rest c.payload)
  | .abandon => if q.ready then none
    else some (.done, q.change .building fun c => { c with use := .free })
  | .reattach => if q.ready then some (.done, q) else none
  | .attachReader r => some (.done, { q with marks := Function.update q.marks r 0 })
  | .readInto r dst fromEntrySeq => if dst.length = G.payloadBytes then
      match q.next? (fromEntrySeq.getD (q.marks r)) with
      | none => some (.readInto (.ok none) dst, q)
      | some (n, b) => some (.readInto (.ok (some n)) (bytesOf b),
          { q with marks := Function.update q.marks r n })
    else some (.readInto (.error (.invalidArgument
      s!"destination holds {dst.length} bytes, expected {G.payloadBytes}")) dst, q)
  | .tryAcquire r fromEntrySeq => match q.next? (fromEntrySeq.getD (q.marks r)) with
    | none => some (.tryAcquire none, q)
    | some (n, b) => some (.tryAcquire (some (n, bytesOf b)),
        { q.change (.entry n) fun c => { c with use := .held n } with
          marks := Function.update q.marks r n })
  | .release n => if ∃ c ∈ q.cells, c.use = .held n then
      some (.done, q.change (.held n) fun c => { c with use := .entry n })
    else none

end Queue

end ZeroChannel
