/-
  A mapped segment, and the atomic operations on it.

  A segment of a given geometry is nine header words, one control word for each
  slot and one block of payload bytes for each slot.  Every load, store or
  compare-exchange of a word and every byte moved by a payload copy is one
  operation; the orderings of the source are those of sequential consistency.
-/
import ZeroChannel.Metadata
import ZeroChannel.Concur.Prog
import Mathlib.Logic.Function.Basic

namespace ZeroChannel

open Concur

/-- The contents of a mapped segment. -/
structure Segment (G : Geometry) where
  hdr : HeaderWord → ℕ
  words : Slot G → ℤ
  payload : Slot G → Block G

namespace Segment
variable {G : Geometry}

/-- The segment as `init_header` leaves it. -/
def init (G : Geometry) (dtype : Dtype) (owner : ℕ) : Segment G where
  hdr
    | .magic => MAGIC_VERSION
    | .payloadBytes => G.payloadBytes
    | .entryCount => G.entryCount
    | .dtype => dtype.code
    | .segmentOwner => owner
    | _ => 0
  words _ := 0
  payload _ _ := 0

def setWord (m : Segment G) (i : Slot G) (v : ℤ) : Segment G :=
  { m with words := Function.update m.words i v }

def setByte (m : Segment G) (i : Slot G) (j : Fin G.payloadBytes) (b : UInt8) : Segment G :=
  { m with payload := Function.update m.payload i (Function.update (m.payload i) j b) }

def setBlock (m : Segment G) (i : Slot G) (b : Block G) : Segment G :=
  { m with payload := Function.update m.payload i b }

def setHdr (m : Segment G) (w : HeaderWord) (v : ℕ) : Segment G :=
  { m with hdr := Function.update m.hdr w v }

section
variable (m : Segment G)

@[simp] theorem setWord_self (i : Slot G) (v : ℤ) : (m.setWord i v).words i = v :=
  Function.update_self ..

theorem setWord_words (i j : Slot G) (v : ℤ) :
    (m.setWord i v).words j = if j = i then v else m.words j := by
  simp [setWord, Function.update_apply]

theorem setWord_ne {i j : Slot G} (h : j ≠ i) (v : ℤ) : (m.setWord i v).words j = m.words j :=
  Function.update_of_ne h ..

@[simp] theorem setWord_setWord (i : Slot G) (v v' : ℤ) :
    (m.setWord i v).setWord i v' = m.setWord i v' := by
  simp [setWord, Function.update_idem]

@[simp] theorem setWord_eq_self (i : Slot G) : m.setWord i (m.words i) = m := by
  simp [setWord]

@[simp] theorem setWord_hdr (i : Slot G) (v : ℤ) : (m.setWord i v).hdr = m.hdr := rfl
@[simp] theorem setWord_payload (i : Slot G) (v : ℤ) : (m.setWord i v).payload = m.payload := rfl

@[simp] theorem setByte_words (i : Slot G) (j : Fin G.payloadBytes) (b : UInt8) :
    (m.setByte i j b).words = m.words := rfl
@[simp] theorem setByte_hdr (i : Slot G) (j : Fin G.payloadBytes) (b : UInt8) :
    (m.setByte i j b).hdr = m.hdr := rfl

theorem setByte_ne {i i' : Slot G} (h : i' ≠ i) (j : Fin G.payloadBytes) (b : UInt8) :
    (m.setByte i j b).payload i' = m.payload i' := Function.update_of_ne h ..

theorem setByte_self (i : Slot G) (j j' : Fin G.payloadBytes) (b : UInt8) :
    (m.setByte i j b).payload i j' = if j' = j then b else m.payload i j' := by
  simp [setByte, Function.update_apply]

@[simp] theorem setBlock_words (i : Slot G) (b : Block G) : (m.setBlock i b).words = m.words := rfl
@[simp] theorem setBlock_hdr (i : Slot G) (b : Block G) : (m.setBlock i b).hdr = m.hdr := rfl
@[simp] theorem setBlock_self (i : Slot G) (b : Block G) : (m.setBlock i b).payload i = b :=
  Function.update_self ..

theorem setBlock_ne {i j : Slot G} (h : j ≠ i) (b : Block G) :
    (m.setBlock i b).payload j = m.payload j := Function.update_of_ne h ..

theorem setByte_eq (i : Slot G) (j : Fin G.payloadBytes) (b : UInt8) :
    m.setByte i j b = m.setBlock i (Function.update (m.payload i) j b) := rfl

@[simp] theorem setBlock_setBlock (i : Slot G) (b b' : Block G) :
    (m.setBlock i b).setBlock i b' = m.setBlock i b' := by
  simp [setBlock, Function.update_idem]

@[simp] theorem setBlock_payload (i : Slot G) : m.setBlock i (m.payload i) = m := by
  simp [setBlock]

@[simp] theorem setHdr_words (w : HeaderWord) (v : ℕ) : (m.setHdr w v).words = m.words := rfl
@[simp] theorem setHdr_payload (w : HeaderWord) (v : ℕ) : (m.setHdr w v).payload = m.payload := rfl
@[simp] theorem setHdr_self (w : HeaderWord) (v : ℕ) : (m.setHdr w v).hdr w = v :=
  Function.update_self ..

theorem setHdr_ne {w w' : HeaderWord} (h : w' ≠ w) (v : ℕ) : (m.setHdr w v).hdr w' = m.hdr w' :=
  Function.update_of_ne h ..

end

end Segment

/-! ## Operations -/

/-- The atomic operations on a segment.  `clearSeq i` is the store of `0` by
    which the writer claims a slot; `storeSeq` is every other store to a slot
    word. -/
inductive SegOp (G : Geometry) where
  | loadSeq (i : Slot G)
  | clearSeq (i : Slot G)
  | storeSeq (i : Slot G) (v : ℤ)
  | casSeq (i : Slot G) (old new : ℤ)
  | loadByte (i : Slot G) (j : Fin G.payloadBytes)
  | storeByte (i : Slot G) (j : Fin G.payloadBytes) (b : UInt8)
  | load (w : HeaderWord)
  | store (w : HeaderWord) (v : ℕ)
  | cas (w : HeaderWord) (old new : ℕ)
  deriving DecidableEq

/-- The answers.  A failed compare-exchange of a header word reports the value
    found; that of a slot word only reports failure, which is all its caller
    looks at. -/
@[reducible] def SegOp.Res {G : Geometry} : SegOp G → Type
  | loadSeq _ => ℤ
  | casSeq _ _ _ => Bool
  | loadByte _ _ => UInt8
  | load _ => ℕ
  | cas _ _ _ => Except ℕ Unit
  | _ => Unit

/-- The signature of segment operations. -/
abbrev segSig (G : Geometry) : Sig := ⟨SegOp G, SegOp.Res⟩

/-- Programs on a segment. -/
abbrev SegProg (G : Geometry) := Prog (segSig G)

/-- The meaning of the operations. -/
def Segment.exec {G : Geometry} : Exec (segSig G) (Segment G)
  | .loadSeq i, m => (m.words i, m)
  | .clearSeq i, m => ((), m.setWord i 0)
  | .storeSeq i v, m => ((), m.setWord i v)
  | .casSeq i old new, m => if m.words i = old then (true, m.setWord i new) else (false, m)
  | .loadByte i j, m => (m.payload i j, m)
  | .storeByte i j b, m => ((), m.setByte i j b)
  | .load w, m => (m.hdr w, m)
  | .store w v, m => ((), m.setHdr w v)
  | .cas w old new, m => if m.hdr w = old then (.ok (), m.setHdr w new) else (.error (m.hdr w), m)

/-- Loads read the segment that is part of the memory, and change nothing. -/
structure Reads {G : Geometry} {σ : Type} (seg : σ → Segment G) (ex : Exec (segSig G) σ) : Prop where
  seq : ∀ i s, ex (.loadSeq i) s = ((seg s).words i, s)
  byte : ∀ i j s, ex (.loadByte i j) s = ((seg s).payload i j, s)
  hdr : ∀ w s, ex (.load w) s = ((seg s).hdr w, s)

section
variable {G : Geometry}

/-! The operations as programs, under the names the source gives the cells. -/

def loadSeq (i : Slot G) : SegProg G ℤ := .op (.loadSeq i) .pure
def clearSeq (i : Slot G) : SegProg G Unit := .op (.clearSeq i) .pure
def storeSeq (i : Slot G) (v : ℤ) : SegProg G Unit := .op (.storeSeq i v) .pure
def casSeq (i : Slot G) (old new : ℤ) : SegProg G Bool :=
  .op (.casSeq i old new) .pure
def loadByte (i : Slot G) (j : Fin G.payloadBytes) : SegProg G UInt8 :=
  .op (.loadByte i j) .pure
def storeByte (i : Slot G) (j : Fin G.payloadBytes) (b : UInt8) : SegProg G Unit :=
  .op (.storeByte i j b) .pure
def loadHdr (w : HeaderWord) : SegProg G ℕ := .op (.load w) .pure
def storeHdr (w : HeaderWord) (v : ℕ) : SegProg G Unit := .op (.store w v) .pure
def casHdr (w : HeaderWord) (old new : ℕ) : SegProg G (Except ℕ Unit) :=
  .op (.cas w old new) .pure

end

namespace Reads
variable {G : Geometry} {σ α : Type} {seg : σ → Segment G} {ex : Exec (segSig G) σ}
  (hR : Reads seg ex)
include hR

theorem run_loadSeq (i : Slot G) (f : ℤ → SegProg G α) (s : σ) :
    (loadSeq i >>= f).run ex s = (f ((seg s).words i)).run ex s := by
  simp only [loadSeq, Prog.run_bind, Prog.run_op, Prog.run_pure, hR.seq]

theorem run_loadByte (i : Slot G) (j : Fin G.payloadBytes) (f : UInt8 → SegProg G α) (s : σ) :
    (loadByte i j >>= f).run ex s = (f ((seg s).payload i j)).run ex s := by
  simp only [loadByte, Prog.run_bind, Prog.run_op, Prog.run_pure, hR.byte]

theorem run_loadHdr (w : HeaderWord) (f : ℕ → SegProg G α) (s : σ) :
    (loadHdr w >>= f).run ex s = (f ((seg s).hdr w)).run ex s := by
  simp only [loadHdr, Prog.run_bind, Prog.run_op, Prog.run_pure, hR.hdr]

end Reads

end ZeroChannel
