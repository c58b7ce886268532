/-
  The handles of the Python module (`python/zerocopy.rs`).

  A handle exports the buffer protocol: every view a consumer is granted counts as an
  export until it is released, and `release` and `commit` refuse to hand the slot back
  while the count is not zero.  Handing back borrows the object that owns the channel end,
  which fails when that object is borrowed already.  The classes are `unsendable`: calls on
  a handle are made by one thread and do not overlap, so the handle itself can always be
  borrowed.

  `PyClass` collects the methods of a class, and `Usage` is a handle in use: its consumers
  request and release views, the user finishes it, and the last one to refer to it
  finalises it.
-/
import ZeroChannel.Channel

namespace ZeroChannel

open Concur

variable {G : Geometry} {H W R : Type}

/-- The exceptions raised. -/
inductive PyErr where
  | bufferError (msg : String)
  | valueError (msg : String)
  | borrowMutError
  deriving DecidableEq

/-! ## Views -/

/-- Flags of a buffer request. -/
def PyBUF_WRITABLE : BitVec 32 := 0x01
def PyBUF_FORMAT : BitVec 32 := 0x04
def PyBUF_ND : BitVec 32 := 0x08
def PyBUF_STRIDES : BitVec 32 := 0x18

def hasFlag (flags flag : BitVec 32) : Bool := flags &&& flag == flag

/-- How a handle exposes its ring slot. -/
structure Layout where
  itemsize : ℕ
  format : String

def Layout.bytes : Layout := ⟨1, "B"⟩
def Layout.float64 : Layout := ⟨8, "d"⟩

/-- A `Py_buffer` onto the payload of a slot; `internal` is the address of its shape and
    stride. -/
structure View (G : Geometry) where
  buf : Slot G
  len : ℕ
  readonly : Bool
  itemsize : ℕ
  format : Option String
  ndim : ℕ
  shape : Option ℕ
  strides : Option ℕ
  internal : ℕ
  deriving DecidableEq

/-- Fill a view with a one-dimensional export. -/
def fillView (isNull : Bool) (flags : BitVec 32) (data : Slot G) (len : ℕ) (layout : Layout)
    (readonly : Bool) (dims : ℕ) : Except PyErr (View G) :=
  if isNull then .error (.bufferError "buffer view is null")
  else if readonly && hasFlag flags PyBUF_WRITABLE then
    .error (.bufferError "a read handle exports a read-only buffer")
  else .ok {
    buf := data, len, readonly, itemsize := layout.itemsize,
    format := if hasFlag flags PyBUF_FORMAT then some layout.format else none,
    ndim := 1,
    shape := if hasFlag flags PyBUF_ND then some (len / layout.itemsize) else none,
    strides := if hasFlag flags PyBUF_STRIDES then some layout.itemsize else none,
    internal := dims }

/-! ## Handles -/

/-- A Python object around a handle. -/
structure PyHandle (H : Type) where
  handle : Option H
  layout : Layout
  exports : ℕ

/-- The error of a handle finished while views into it are alive. -/
def outstandingExports (action : String) (n : ℕ) : PyErr :=
  .bufferError (s!"cannot {action} this handle: {n} buffer export" ++
    (if n = 1 then " is" else "s are") ++
    " still outstanding. Every memoryview or numpy array derived from `payload` " ++
    "must be dropped first (`del arr`), since the ring slot is recycled as " ++
    "soon as the handle is finished. Copy the data out (`bytes(...)`, " ++
    "`numpy.array(...)`) if it needs to outlive the handle.")

namespace PyHandle

/-- `__getbuffer__`; `gone` is the text of its error once the handle is finished. -/
def getbuffer (gone : String) (index : H → Slot G) (readonly : Bool) (h : PyHandle H)
    (isNull : Bool) (flags : BitVec 32) (dims : ℕ) : Except PyErr (View G × PyHandle H) :=
  match h.handle with
  | none => .error (.bufferError gone)
  | some handle => match fillView isNull flags (index handle) G.payloadBytes h.layout readonly dims with
    | .error e => .error e
    | .ok view => .ok (view, { h with exports := u64 (h.exports + 1) })

/-- `__releasebuffer__`. -/
def releasebuffer (h : PyHandle H) : PyHandle H := { h with exports := h.exports - 1 }

/-- `with_raw`: run `f` against the owner's channel end, if that can be borrowed. -/
def withRaw {α : Type} (free : Bool) (f : α → R × α) (a : α) : Except PyErr R × α :=
  if free then (.ok (f a).1, (f a).2) else (.error .borrowMutError, a)

/-- What `release` and `commit` do with a handle that is not finished. -/
def finish (action : String) (hand : H → W → R × W) (h : PyHandle H) (handle : H) (free : Bool)
    (w : W) : Except PyErr R × PyHandle H × W :=
  if h.exports ≠ 0 then (.error (outstandingExports action h.exports), h, w)
  else withRaw free (fun _ =>
    ((hand handle w).1, { h with handle := none }, (hand handle w).2)) (h, w)

end PyHandle

/-- A read handle, of a reader object on the ring `Hist G`. -/
abbrev PyReadHandle (G : Geometry) := PyHandle (ReadHandle G)

namespace PyReadHandle

/-- `raw.release(handle)`. -/
def hand (handle : ReadHandle G) (m : Hist G) : Unit × Hist G :=
  (RawReader.release handle).run Hist.readerExec m

/-- Return the slot to the ring. -/
def release (h : PyReadHandle G) (free : Bool) (m : Hist G) :
    Except PyErr Unit × PyReadHandle G × Hist G :=
  match h.handle with
  | none => (.ok (), h, m)
  | some handle => h.finish "release" hand handle free m

def exit (h : PyReadHandle G) (_raised free : Bool) (m : Hist G) :
    Except PyErr Bool × PyReadHandle G × Hist G :=
  let (res, h', m') := release h free m
  (res.map fun _ => false, h', m')

def getbuffer (h : PyReadHandle G) : Bool → BitVec 32 → ℕ → Except PyErr (View G × PyReadHandle G) :=
  PyHandle.getbuffer "this handle has already been released" ReadHandle.index true h

/-- Best-effort release. -/
def drop (h : PyReadHandle G) (free : Bool) (m : Hist G) : PyReadHandle G × Hist G :=
  if h.handle.isNone then (h, m) else (release h free m).2

end PyReadHandle

/-- A write handle, of a writer object on the ring `Hist G`. -/
abbrev PyWriteHandle (G : Geometry) := PyHandle (WriteHandle G)

namespace PyWriteHandle

/-- `raw.commit(handle)`. -/
def hand (handle : WriteHandle G) (w : RawWriter G × Hist G) : ℕ × RawWriter G × Hist G :=
  let ((seq, raw), m) := (w.1.commit handle).run
    (Hist.writerExec (bytesOf (w.2.seg.payload handle.index))) w.2
  (seq, raw, m)

/-- Publish the entry and return its sequence number. -/
def commit (h : PyWriteHandle G) (free : Bool) (w : RawWriter G × Hist G) :
    Except PyErr ℕ × PyWriteHandle G × RawWriter G × Hist G :=
  match h.handle with
  | none => (.error (.valueError "handle has already been committed"), h, w)
  | some handle => h.finish "commit" hand handle free w

def exit (h : PyWriteHandle G) (raised free : Bool) (w : RawWriter G × Hist G) :
    Except PyErr Bool × PyWriteHandle G × RawWriter G × Hist G :=
  if !raised && h.handle.isSome then
    let (res, h', w') := commit h free w
    (res.map fun _ => false, h', w')
  else (.ok false, h, w)

def getbuffer (h : PyWriteHandle G) : Bool → BitVec 32 → ℕ → Except PyErr (View G × PyWriteHandle G) :=
  PyHandle.getbuffer "this handle has already been committed" WriteHandle.index false h

end PyWriteHandle

/-! ## A handle in use -/

/-- The methods of a class of handles; `drop` is what finalisation does. -/
structure PyClass (G : Geometry) (H W R : Type) where
  getbuffer : PyHandle H → Bool → BitVec 32 → ℕ → Except PyErr (View G × PyHandle H)
  finish : PyHandle H → Bool → W → Except PyErr R × PyHandle H × W
  exit : PyHandle H → Bool → Bool → W → Except PyErr Bool × PyHandle H × W
  drop : PyHandle H → Bool → W → PyHandle H × W

def readClass (G : Geometry) : PyClass G (ReadHandle G) (Hist G) Unit :=
  ⟨PyReadHandle.getbuffer, PyReadHandle.release, PyReadHandle.exit, PyReadHandle.drop⟩

/-- A write handle that is dropped leaves its slot empty. -/
def writeClass (G : Geometry) : PyClass G (WriteHandle G) (RawWriter G × Hist G) ℕ :=
  ⟨PyWriteHandle.getbuffer, PyWriteHandle.commit, PyWriteHandle.exit, fun h _ w => (h, w)⟩

/-- A handle, what its owner works on, and the views granted and not released yet.
    `returned` records, for each time the slot was handed back, the exports at that time.
    No method reads it. -/
structure Usage (G : Geometry) (H W : Type) where
  py : PyHandle H
  owner : W
  views : List (View G)
  returned : List ℕ
  finalised : Bool

/-- A read handle in use, and a write handle. -/
abbrev ReadUsage (G : Geometry) := Usage G (ReadHandle G) (Hist G)
abbrev WriteUsage (G : Geometry) := Usage G (WriteHandle G) (RawWriter G × Hist G)

/-- What happens.  `free` tells whether the owner can be borrowed at that moment, and `dims`
    is where the shape and stride of a view are allocated.  `others` is anything else that
    happens to the ring. -/
inductive UsageAct (G : Geometry) (W : Type) where
  | getbuffer (isNull : Bool) (flags : BitVec 32) (dims : ℕ)
  | releasebuffer (view : View G)
  | finish (free : Bool)
  | exit (raised free : Bool)
  | finalise (free : Bool)
  | others (owner : W)

/-- What the calls return. -/
inductive UsageOut (G : Geometry) (R : Type) where
  | raised (e : PyErr)
  | view (v : View G)
  | finished (r : R)
  | exited (suppress : Bool)
  | done

namespace Usage

/-- What a method leaves. -/
def left (s : Usage G H W) (r : PyHandle H × W) : Usage G H W :=
  { s with py := r.1, owner := r.2,
           returned := s.returned ++
             if s.py.handle.isSome && r.1.handle.isNone then [s.py.exports] else [] }

/-- An address the allocator can give out. -/
def Fresh (s : Usage G H W) (dims : ℕ) : Prop :=
  0 < dims ∧ dims < 2 ^ 64 ∧ ∀ v ∈ s.views, v.internal ≠ dims

instance (s : Usage G H W) (dims : ℕ) : Decidable (s.Fresh dims) :=
  inferInstanceAs (Decidable (_ ∧ _))

/-- An answer, or the exception in its place. -/
def answer (res : Except PyErr R) : UsageOut G R := match res with
  | .ok r => .finished r
  | .error e => .raised e

/-- One call.  Finalisation comes when no view refers to the handle, and last. -/
def call (C : PyClass G H W R) (s : Usage G H W) :
    UsageAct G W → Option (UsageOut G R × Usage G H W)
  | .getbuffer isNull flags dims => if !s.finalised && s.Fresh dims then
      match C.getbuffer s.py isNull flags dims with
      | .error e => some (.raised e, s)
      | .ok (v, py) => some (.view v, { s with py, views := s.views ++ [v] })
    else none
  | .releasebuffer view => if view ∈ s.views then
      some (.done, { s with py := s.py.releasebuffer, views := s.views.erase view })
    else none
  | .finish free => if s.finalised then none else
      let (res, r) := C.finish s.py free s.owner
      some (answer res, s.left r)
  | .exit raised free => if s.finalised then none else
      let (res, r) := C.exit s.py raised free s.owner
      some (match res with | .ok b => .exited b | .error e => .raised e, s.left r)
  | .finalise free => if !s.finalised && s.views.isEmpty then
      some (.done, { s.left (C.drop s.py free s.owner) with finalised := true })
    else none
  | .others owner => some (.done, { s with owner })

/-- One call, its answer dropped. -/
def step (C : PyClass G H W R) (s : Usage G H W) (c : UsageAct G W) : Option (Usage G H W) :=
  (s.call C c).map Prod.snd

/-- A handle just acquired. -/
def start (handle : H) (layout : Layout) (owner : W) : Usage G H W :=
  ⟨⟨some handle, layout, 0⟩, owner, [], [], false⟩

end Usage

end ZeroChannel
