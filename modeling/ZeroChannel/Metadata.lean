/-
  The layout of a segment and the checks made on it (`metadata.rs`, `error.rs`).

  Sizes are `usize` and counters `u64`: natural numbers, with arithmetic wrapping
  at `2 ^ 64` as in a release build.  Slot words are `i64`: integers.
-/
import Mathlib.Data.Int.Notation
import Mathlib.Data.Fin.Basic
import Mathlib.Tactic.NormNum
import Mathlib.Tactic.Common

namespace ZeroChannel

/-- Errors returned by ZeroChannel operations. -/
inductive ZeroChannelError where
  | invalidArgument (msg : String)
  | osError (msg : String)
  | busy (msg : String)
  | roleConflict (msg : String)
  deriving DecidableEq, Repr

/-! ## Machine integers -/

/-- `n` reduced to 64 bits. -/
def u64 (n : ℕ) : ℕ := n % 2 ^ 64

/-- `n as i64`, for `n` a `u64`. -/
def asI64 (n : ℕ) : ℤ := if n < 2 ^ 63 then n else n - 2 ^ 64

/-- `n.saturating_add(m)` on `u64`. -/
def saturatingAdd (n m : ℕ) : ℕ := min (n + m) (2 ^ 64 - 1)

/-- `n.saturating_mul(m)` on `u64`. -/
def saturatingMul (n m : ℕ) : ℕ := min (n * m) (2 ^ 64 - 1)

theorem asI64_of_lt {n : ℕ} (h : n < 2 ^ 63) : asI64 n = n := if_pos h

theorem u64_of_lt {n : ℕ} (h : n < 2 ^ 64) : u64 n = n := Nat.mod_eq_of_lt h

theorem u64_lt (n : ℕ) : u64 n < 2 ^ 64 := Nat.mod_lt _ (by norm_num)

theorem asI64_u64_lt (n : ℕ) : asI64 (u64 n) < 2 ^ 63 := by
  have := u64_lt n
  unfold asI64; split <;> omega

/-! ## Layout constants -/

/-- Size of the prefix header: nine `u64` fields. -/
def HEADER_BYTES : ℕ := 72

/-- `ZCHN` in ASCII. -/
def MAGIC : ℕ := 0x5A43484E

def VERSION : ℕ := 1

/-- `MAGIC` in the high half, `VERSION` in the low half. -/
def MAGIC_VERSION : ℕ := MAGIC * 2 ^ 32 + VERSION

/-- Alignment and size granularity of a ring slot. -/
def SLOT_ALIGN : ℕ := 8

/-- How often a read rescans after losing its entry to the writer. -/
def READ_RETRIES : ℕ := 4

/-- The words of the header, in the order of their offsets. -/
inductive HeaderWord where
  | magic | payloadBytes | entryCount | dtype
  | segmentOwner | writerOwner | zcReaderOwner | writeIndex | lastEntrySeq
  deriving DecidableEq, Repr

/-- Byte offset of a header word (`OFF_MAGIC`, `OFF_PAYLOAD_BYTES`, …). -/
def HeaderWord.off : HeaderWord → ℕ
  | magic => 0
  | payloadBytes => 8
  | entryCount => 16
  | dtype => 24
  | segmentOwner => 32
  | writerOwner => 40
  | zcReaderOwner => 48
  | writeIndex => 56
  | lastEntrySeq => 64

/-! ## Element typing -/

/-- Element type recorded in the header. -/
inductive Dtype where
  | u8 | i64 | f64
  deriving DecidableEq, Repr

/-- The code stored in the header. -/
def Dtype.code : Dtype → ℕ
  | u8 => 0
  | i64 => 1
  | f64 => 2

def Dtype.nameOfCode : ℕ → String
  | 0 => "u8"
  | 1 => "i64"
  | 2 => "f64"
  | _ => "unknown"

def Dtype.name (d : Dtype) : String := nameOfCode d.code

/-- `size_of::<T>()` of the element type. -/
def Dtype.size : Dtype → ℕ
  | u8 => 1
  | i64 => 8
  | f64 => 8

/-- The payload of `entry_length` elements, as `Writer::new` and `Reader::new` ask for
    it. -/
def typedPayload (d : Dtype) (entryLength : ℕ) : ℕ := saturatingMul entryLength d.size

/-! ## Geometry -/

/-- Byte size of one ring slot. -/
def entryBytes (payloadBytes : ℕ) : ℕ := u64 (SLOT_ALIGN + payloadBytes)

/-- Size of the whole allocation. -/
def requiredBytes (payloadBytes entryCount : ℕ) : ℕ :=
  u64 (HEADER_BYTES + entryCount * entryBytes payloadBytes)

/-- Reject geometries that would misalign a slot word. -/
def checkGeometry (payloadBytes entryCount : ℕ) : Except ZeroChannelError Unit :=
  if payloadBytes = 0 ∨ entryCount = 0 then
    .error (.invalidArgument "entry_length and entry_count must be non-zero")
  else if payloadBytes % SLOT_ALIGN ≠ 0 then
    .error (.invalidArgument s!"payload must be a multiple of {SLOT_ALIGN} bytes to keep slot entry_seq words aligned, got {payloadBytes}")
  else .ok ()

/-- A geometry that `checkGeometry` accepts. -/
structure Geometry where
  payloadBytes : ℕ
  entryCount : ℕ
  payload_pos : 0 < payloadBytes
  count_pos : 0 < entryCount
  aligned : payloadBytes % SLOT_ALIGN = 0

/-- `n + 1` slots of eight bytes each. -/
def Geometry.tiny (n : ℕ) : Geometry := ⟨8, n + 1, by decide, Nat.succ_pos n, rfl⟩

theorem checkGeometry_ok {pb n : ℕ} :
    checkGeometry pb n = .ok () ↔ 0 < pb ∧ 0 < n ∧ pb % SLOT_ALIGN = 0 := by
  unfold checkGeometry
  split_ifs with h₁ h₂
  · simp only [false_iff]; omega
  · simp only [false_iff]; omega
  · simp only [true_iff]; omega

/-- The geometry of two sizes that `checkGeometry` accepts. -/
def Geometry.of? (payloadBytes entryCount : ℕ) : Option Geometry :=
  if h : 0 < payloadBytes ∧ 0 < entryCount ∧ payloadBytes % SLOT_ALIGN = 0 then
    some ⟨payloadBytes, entryCount, h.1, h.2.1, h.2.2⟩
  else none

/-- The slots of a ring. -/
abbrev Slot (G : Geometry) := Fin G.entryCount

/-- The payload of one slot. -/
abbrev Block (G : Geometry) := Fin G.payloadBytes → UInt8

/-- The slot at a position, counted around the ring. -/
def Geometry.slot (G : Geometry) (k : ℕ) : Slot G := ⟨k % G.entryCount, Nat.mod_lt _ G.count_pos⟩

@[simp] theorem Geometry.slot_val (G : Geometry) (k : ℕ) : (G.slot k).val = k % G.entryCount := rfl

@[simp] theorem Geometry.slot_self (G : Geometry) (i : Slot G) : G.slot i.val = i :=
  Fin.ext (Nat.mod_eq_of_lt i.isLt)

/-! ## Header -/

/-- Decoded copy of the prefix header. -/
structure Header where
  payloadBytes : ℕ
  entryCount : ℕ
  writeIndex : ℕ
  dtype : ℕ
  lastEntrySeq : ℕ
  deriving DecidableEq, Repr

/-- Zero the segment byte by byte, then write the immutable half of the header, the
    magic last. -/
def initHeader {m : Type → Type} [Monad m] (zero : ℕ → m Unit) (store : HeaderWord → ℕ → m Unit)
    (payloadBytes entryCount : ℕ) (dtype : Dtype) (ownerPid : ℕ) : m Unit := do
  (List.range (requiredBytes payloadBytes entryCount)).foldlM (fun _ k => zero k) ()
  store .payloadBytes payloadBytes
  store .entryCount entryCount
  store .dtype dtype.code
  store .segmentOwner ownerPid
  store .magic MAGIC_VERSION

/-- Decode the prefix header, or explain why it is unusable.  `none` means that the
    segment carries no magic yet. -/
def readHeader {m : Type → Type} [Monad m] (load : HeaderWord → m ℕ) :
    m (Except ZeroChannelError (Option Header)) := do
  let magic ← load .magic
  if magic = 0 then pure (.ok none)
  else if magic ≠ MAGIC_VERSION then
    if magic / 2 ^ 32 ≠ MAGIC then
      pure (.error (.invalidArgument "shared memory segment is not a ZeroChannel ring"))
    else
      pure (.error (.invalidArgument s!"ZeroChannel layout version mismatch: segment is v{magic % 2 ^ 32}, this build speaks v{VERSION}"))
  else do
    let payloadBytes ← load .payloadBytes
    let entryCount ← load .entryCount
    let writeIndex ← load .writeIndex
    let dtype ← load .dtype
    let lastEntrySeq ← load .lastEntrySeq
    pure (.ok (some ⟨payloadBytes, entryCount, writeIndex, dtype, lastEntrySeq⟩))

/-- The header decoded from words that do not change. -/
def decodeHeader (hdr : HeaderWord → ℕ) : Except ZeroChannelError (Option Header) :=
  if hdr .magic = 0 then .ok none
  else if hdr .magic ≠ MAGIC_VERSION then
    if hdr .magic / 2 ^ 32 ≠ MAGIC then
      .error (.invalidArgument "shared memory segment is not a ZeroChannel ring")
    else
      .error (.invalidArgument s!"ZeroChannel layout version mismatch: segment is v{hdr .magic % 2 ^ 32}, this build speaks v{VERSION}")
  else .ok (some ⟨hdr .payloadBytes, hdr .entryCount, hdr .writeIndex, hdr .dtype,
    hdr .lastEntrySeq⟩)

theorem decodeHeader_ok {hdr : HeaderWord → ℕ} (h : hdr .magic = MAGIC_VERSION) :
    decodeHeader hdr = .ok (some ⟨hdr .payloadBytes, hdr .entryCount, hdr .writeIndex, hdr .dtype,
      hdr .lastEntrySeq⟩) := by
  unfold decodeHeader
  rw [h, if_neg (by decide), if_neg (not_not.2 rfl)]

/-- A request for `u8` is opaque and accepts any declared type. -/
def checkDtype (header : Header) (requested : Dtype) : Except ZeroChannelError Unit :=
  if requested = .u8 ∨ header.dtype = requested.code then .ok ()
  else .error (.invalidArgument
    s!"dtype mismatch: channel holds {Dtype.nameOfCode header.dtype}, requested {requested.name}")

/-- Validate that the header matches the supplied sizes. -/
def validateHeader (header : Header) (payloadBytes entryCount : ℕ) :
    Except ZeroChannelError Unit :=
  if header.payloadBytes ≠ payloadBytes ∨ header.entryCount ≠ entryCount then
    .error (.invalidArgument s!"header mismatch: expected ({payloadBytes} payload bytes, {entryCount} entries), found ({header.payloadBytes} payload bytes, {header.entryCount} entries)")
  else .ok ()

theorem checkDtype_ok {h : Header} {d : Dtype} :
    checkDtype h d = .ok () ↔ d = .u8 ∨ h.dtype = d.code := by
  unfold checkDtype; split_ifs with hd <;> simp [hd]

theorem validateHeader_ok {h : Header} {pb n : ℕ} :
    validateHeader h pb n = .ok () ↔ h.payloadBytes = pb ∧ h.entryCount = n := by
  unfold validateHeader
  split_ifs with hd
  · simp only [false_iff]; tauto
  · simp only [true_iff]; tauto

end ZeroChannel
