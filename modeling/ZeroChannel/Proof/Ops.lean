/-
  Rules for the operations of the parties of a channel.
-/
import ZeroChannel.Channel
import ZeroChannel.Proof.Locate

namespace ZeroChannel

open Concur

variable {G : Geometry} {Γ : Contract (segSig G) (Hist G)} {h : Hist G}

/-! ## The writer -/

section
variable {data : List UInt8}

theorem writer_loadSeq {Q : ℤ → Hist G → Prop} {i : Slot G}
    (H : ∀ h', Γ.rely (some (.loadSeq i)) h h' → Γ.ok h' →
      Γ.guar (.loadSeq i) h' h' ∧ Q (h'.seg.words i) h') :
    Valid (Hist.writerExec data) Γ Q (loadSeq i) h := fun h' hr ho => H h' hr ho

theorem writer_clearSeq {Q : Unit → Hist G → Prop} {i : Slot G}
    (H : ∀ h', Γ.rely (some (.clearSeq i)) h h' → Γ.ok { h' with seg := h'.seg.setWord i 0 } →
      Γ.guar (.clearSeq i) h' { h' with seg := h'.seg.setWord i 0 } ∧
        Q () { h' with seg := h'.seg.setWord i 0 }) :
    Valid (Hist.writerExec data) Γ Q (clearSeq i) h := fun h' hr ho => H h' hr ho

theorem writer_storeByte {Q : Unit → Hist G → Prop} {i : Slot G} {j : Fin G.payloadBytes}
    {b : UInt8}
    (H : ∀ h', Γ.rely (some (.storeByte i j b)) h h' →
      Γ.ok { h' with seg := h'.seg.setByte i j b } →
      Γ.guar (.storeByte i j b) h' { h' with seg := h'.seg.setByte i j b } ∧
        Q () { h' with seg := h'.seg.setByte i j b }) :
    Valid (Hist.writerExec data) Γ Q (storeByte i j b) h := fun h' hr ho => H h' hr ho

/-- The store of `publish` appends to the log. -/
theorem writer_storeSeq {Q : Unit → Hist G → Prop} {i : Slot G} {v : ℤ}
    (H : ∀ h', Γ.rely (some (.storeSeq i v)) h h' →
      Γ.ok (h'.put i v data) → Γ.guar (.storeSeq i v) h' (h'.put i v data) ∧
        Q () (h'.put i v data)) :
    Valid (Hist.writerExec data) Γ Q (storeSeq i v) h := fun h' hr ho => H h' hr ho

theorem writer_storeHdr {Q : Unit → Hist G → Prop} {w : HeaderWord} {v : ℕ}
    (H : ∀ h', Γ.rely (some (.store w v)) h h' → Γ.ok { h' with seg := h'.seg.setHdr w v } →
      Γ.guar (.store w v) h' { h' with seg := h'.seg.setHdr w v } ∧
        Q () { h' with seg := h'.seg.setHdr w v }) :
    Valid (Hist.writerExec data) Γ Q (storeHdr w v) h := fun h' hr ho => H h' hr ho

end

/-! ## Readers -/

theorem reader_loads (hg : ∀ (o : SegOp G) h h', o.IsLoad → Γ.rely (some o) h h' → Γ.guar o h' h') :
    Loads Hist.seg Hist.readerExec Γ :=
  ⟨readerExec_reads, hg⟩

/-- A compare-exchange fails, or pins the slot. -/
theorem reader_casSeq {Q : Bool → Hist G → Prop} {i : Slot G} {old new : ℤ}
    (H : ∀ h', Γ.rely (some (.casSeq i old new)) h h' →
      (h'.seg.words i ≠ old → Γ.guar (.casSeq i old new) h' h' ∧ Q false h') ∧
      (h'.seg.words i = old → Γ.guar (.casSeq i old new) h'
          { h' with seg := h'.seg.setWord i new, held := h'.held ++ [⟨i, old.toNat⟩] } ∧
        Q true { h' with seg := h'.seg.setWord i new, held := h'.held ++ [⟨i, old.toNat⟩] })) :
    Valid Hist.readerExec Γ Q (casSeq i old new) h := by
  intro h' hr _
  simp only [Hist.readerExec]
  split_ifs with hw
  · exact (H h' hr).2 hw
  · exact (H h' hr).1 hw

/-- The store of `release` hands the slot back. -/
theorem reader_storeSeq {Q : Unit → Hist G → Prop} {i : Slot G} {v : ℤ}
    (H : ∀ h', Γ.rely (some (.storeSeq i v)) h h' →
      Γ.guar (.storeSeq i v) h'
          { h' with seg := h'.seg.setWord i v, held := h'.held.erase ⟨i, v.toNat⟩ } ∧
        Q () { h' with seg := h'.seg.setWord i v, held := h'.held.erase ⟨i, v.toNat⟩ }) :
    Valid Hist.readerExec Γ Q (storeSeq i v) h := fun h' hr _ => H h' hr

end ZeroChannel
