/-
  A mapped region, as bytes (`metadata.rs`).

  Words are little-endian.  The operations of the ring protocol are given their
  meaning here a second time, on the bytes at the offsets the source computes.
-/
import ZeroChannel.Segment
import Mathlib.Data.Nat.Digits.Defs

namespace ZeroChannel

open Concur

/-- A mapping of `len` bytes. -/
structure Region where
  len : ℕ
  byte : ℕ → UInt8

namespace Region

/-- A region as the operating system creates it. -/
def zeroed (len : ℕ) : Region := ⟨len, fun _ => 0⟩

/-- The `u64` at an offset. -/
def word (r : Region) (off : ℕ) : ℕ :=
  Nat.ofDigits 256 ((List.range 8).map fun k => (r.byte (off + k)).toNat)

def setByte (r : Region) (off : ℕ) (b : UInt8) : Region :=
  { r with byte := Function.update r.byte off b }

def setWord (r : Region) (off v : ℕ) : Region :=
  { r with byte := fun j => if off ≤ j ∧ j < off + 8 then UInt8.ofNat (v / 256 ^ (j - off))
    else r.byte j }

/-- A header word. -/
def hdr (r : Region) (w : HeaderWord) : ℕ := r.word w.off

section
variable {r : Region} {off off' v : ℕ}

theorem word_congr {r' : Region} (h : ∀ k < 8, r'.byte (off + k) = r.byte (off + k)) :
    r'.word off = r.word off := by
  unfold word
  congr 1
  refine List.map_congr_left fun k hk => ?_
  rw [h k (List.mem_range.1 hk)]

theorem word_setWord (hv : v < 2 ^ 64) : (r.setWord off v).word off = v := by
  have hk : ∀ k < 8, ((r.setWord off v).byte (off + k)).toNat = v / 256 ^ k % 256 := by
    intro k hk
    simp only [setWord]
    rw [if_pos (by omega), Nat.add_sub_cancel_left]
    exact UInt8.toNat_ofNat'
  have hmap : (List.range 8).map (fun k => ((r.setWord off v).byte (off + k)).toNat) =
      (List.range 8).map fun k => v / 256 ^ k % 256 :=
    List.map_congr_left fun k hk' => hk k (List.mem_range.1 hk')
  rw [word, hmap]
  simp only [List.range, List.range.loop, List.map_cons, List.map_nil, Nat.ofDigits_cons,
    Nat.ofDigits_nil, Nat.reducePow]
  omega

theorem word_setWord_ne (h : off + 8 ≤ off' ∨ off' + 8 ≤ off) :
    (r.setWord off v).word off' = r.word off' := by
  refine word_congr fun k hk => ?_
  simp only [setWord]
  rw [if_neg (by omega)]

theorem word_setByte_ne {b : UInt8} (h : off < off' ∨ off' + 8 ≤ off) :
    (r.setByte off b).word off' = r.word off' := by
  refine word_congr fun k hk => ?_
  exact Function.update_of_ne (by omega) ..

end

/-- The words of the header do not overlap. -/
theorem off_disjoint {w w' : HeaderWord} (h : w ≠ w') : w.off + 8 ≤ w'.off ∨ w'.off + 8 ≤ w.off := by
  cases w <;> cases w' <;> first | exact absurd rfl h | decide

theorem off_lt (w : HeaderWord) : w.off + 8 ≤ HEADER_BYTES := by
  cases w <;> decide

theorem hdr_setWord {r : Region} {w : HeaderWord} {v : ℕ} (hv : v < 2 ^ 64) :
    (r.setWord w.off v).hdr w = v := word_setWord hv

theorem hdr_setWord_ne {r : Region} {w w' : HeaderWord} (h : w' ≠ w) (v : ℕ) :
    (r.setWord w.off v).hdr w' = r.hdr w' := word_setWord_ne (off_disjoint h.symm)

/-! ## The ring in the region -/

/-- Byte offset of the control word of slot `idx` (`seq_cell`). -/
def seqOffset (payloadBytes idx : ℕ) : ℕ := u64 (HEADER_BYTES + idx * entryBytes payloadBytes)

/-- Byte offset of the payload of slot `idx` (`payload_offset`). -/
def payloadOffset (payloadBytes idx : ℕ) : ℕ :=
  u64 (HEADER_BYTES + idx * entryBytes payloadBytes + SLOT_ALIGN)

/-- The bits of an `i64`. -/
def ofI64 (v : ℤ) : ℕ := (v % 2 ^ 64).toNat

/-- The operations of the ring protocol, on the bytes of the region. -/
def ringExec (G : Geometry) : Exec (segSig G) Region
  | .loadSeq i, r => (asI64 (r.word (seqOffset G.payloadBytes i.val)), r)
  | .clearSeq i, r => ((), r.setWord (seqOffset G.payloadBytes i.val) 0)
  | .storeSeq i v, r => ((), r.setWord (seqOffset G.payloadBytes i.val) (ofI64 v))
  | .casSeq i old new, r =>
    if asI64 (r.word (seqOffset G.payloadBytes i.val)) = old then
      (true, r.setWord (seqOffset G.payloadBytes i.val) (ofI64 new))
    else (false, r)
  | .loadByte i j, r => (r.byte (payloadOffset G.payloadBytes i.val + j.val), r)
  | .storeByte i j b, r => ((), r.setByte (payloadOffset G.payloadBytes i.val + j.val) b)
  | .load w, r => (r.hdr w, r)
  | .store w v, r => ((), r.setWord w.off v)
  | .cas w old new, r =>
    if r.hdr w = old then (.ok (), r.setWord w.off new) else (.error (r.hdr w), r)

end Region

/-! ## The header in the region -/

/-- The operations of `init_header` and `read_header` on a mapped region. -/
inductive RawOp where
  | zero (off : ℕ)
  | load (w : HeaderWord)
  | store (w : HeaderWord) (v : ℕ)

@[reducible] def RawOp.Res : RawOp → Type
  | load _ => ℕ
  | _ => Unit

/-- The signature of raw operations. -/
abbrev rawSig : Sig := ⟨RawOp, RawOp.Res⟩

/-- The operations, on the bytes of the region. -/
def Region.rawExec : Exec rawSig Region
  | .zero off, r => ((), r.setByte off 0)
  | .load w, r => (r.hdr w, r)
  | .store w v, r => ((), r.setWord w.off v)

/-- `init_header` on a mapped region. -/
def initRegion (payloadBytes entryCount : ℕ) (dtype : Dtype) (ownerPid : ℕ) : Prog rawSig Unit :=
  initHeader (fun k => .op (.zero k) .pure) (fun w v => .op (.store w v) .pure) payloadBytes
    entryCount dtype ownerPid

/-- `read_header` on a mapped region. -/
def readRegion : Prog rawSig (Except ZeroChannelError (Option Header)) :=
  readHeader fun w => .op (.load w) .pure

end ZeroChannel
