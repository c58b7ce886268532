/-
  What a successor advertises.

  Attaching recovers the number of publishes from the ring, but it stores nothing:
  readers go on trusting the header.  The two agree from every crash point except
  those between the store of the slot word and the store of the watermark
  (`attach_advertised`, `recovered_unadvertised`).
-/
import ZeroChannel.Proof.Resume

namespace ZeroChannel

open Concur

variable {G : Geometry} {ι : Type}

/-- Above the watermark of a gate that passes, `locate` finds the word that is there. -/
theorem located_of_word {m : Segment G} (hlt : ∀ i, m.words i < 2 ^ 63) {r : RawReader G}
    {f : Option ℕ} {i : Slot G} (hi : (f.getD r.lastEntrySeq : ℤ) < m.words i)
    (hlast : m.words i ≤ m.hdr .lastEntrySeq) :
    ∃ j n, (gate (m.hdr .lastEntrySeq) r f).bind (located m.words r) = some (j, n) := by
  have hgate : gate (m.hdr .lastEntrySeq) r f = some (f.getD r.lastEntrySeq) :=
    gate_some.2 ⟨rfl, by omega⟩
  rw [hgate, Option.bind_some]
  rcases hl : located m.words r (f.getD r.lastEntrySeq) with _ | ⟨j, n⟩
  · have := (located_none hlt).1 hl i
    omega
  · exact ⟨j, n, rfl⟩

namespace Session

/-- The crash is at the store of one of the two header words of `publish`: the slot
    word is stored and the watermark is not. -/
def Unadvertised (o : Option (SegOp G)) : Prop := ∃ w v, o = some (.store w v)

/-- The header repeats the writer's watermark, and every read below an entry that is
    committed and not held returns an entry. -/
def Advertised (s : Session G ι) : Prop :=
  s.mem.seg.hdr .lastEntrySeq = s.writer.lastEntrySeq ∧
    ∀ (r : RawReader G) (f : Option ℕ) (dst : List UInt8) (i : Slot G),
      dst.length = G.payloadBytes → (f.getD r.lastEntrySeq : ℤ) < s.mem.seg.words i →
        ∃ n r' dst', (r.readInto dst f).run Hist.readerExec s.mem =
          ((.ok (some n), r', dst'), s.mem)

/-- **When the header counts the publishes** of a crashed write. -/
theorem Resting.crash_last {s : Session G ι} (h : s.Resting) (hn : s.mem.log.length + 1 < 2 ^ 63)
    {data : List UInt8} {o : Option (SegOp G)} {h' : Hist G}
    (hc : WriteAt s.writer data s.mem o h') :
    h'.seg.hdr .lastEntrySeq = h'.log.length ↔ ¬ Unadvertised o := by
  have hlast := h.last
  cases hc with
  | claiming ho =>
    refine iff_of_true hlast ?_
    rintro ⟨w, v, rfl⟩
    simp at ho
  | copying hf ho =>
    refine iff_of_true hlast ?_
    rintro ⟨w, v, rfl⟩
    simp at ho
  | stored hf =>
    refine iff_of_false ?_ (not_not.2 ⟨_, _, rfl⟩)
    simp [hlast]
  | indexed hf =>
    refine iff_of_false ?_ (not_not.2 ⟨_, _, rfl⟩)
    simp [hlast]
  | done hf =>
    refine iff_of_true ?_ ?_
    · simp [h.seq hn]
    · rintro ⟨w, v, hv⟩
      cases hv

variable [DecidableEq ι]

/-- **Whether a successor advertises what it recovers.**  After any sequence of writes,
    acquisitions and releases, a writer crashes anywhere in one further write; whatever
    readers do after that, a successor can attach, and its watermark is advertised if
    and only if the crash did not fall between the store of the slot word and the store
    of the watermark. -/
theorem attach_advertised {dtype : Dtype} {owner : ℕ} {s s₂ : Session G ι} {data : List UInt8}
    {q : SegProg G (Except ZeroChannelError Unit × RawWriter G)} {h' : Hist G}
    (h : Reach step (fun _ c _ => plain c) (init G ι dtype owner) s)
    (hn : s.mem.log.length < 2 ^ 63 - 1)
    (hc : Prog.Solo (Hist.writerExec data) (s.writer.write data) s.mem q h')
    (hr : Reach step (fun _ c _ => reading c) { s with mem := h' } s₂) :
    ∃ s₃, s₂.step .reattach = some s₃ ∧ (s₃.Advertised ↔ ¬ Unadvertised q.next?) := by
  have hR := resting_reach
    (h.bounded (fun s => s.mem.log.length) (fun _ _ _ => step_log) (hn.trans (by norm_num)))
  have hat := write_solo data hc
  obtain ⟨hM, hrec, -⟩ := hR.crash (by omega) hat
  obtain ⟨hP, hS⟩ := reading_reach (hR.toPinned.crash hat) hr
  have hmagic : s₂.mem.seg.hdr .magic = MAGIC_VERSION := by
    rw [hS.hdr]
    exact (hat.hdr (by decide) (by decide)).trans hR.magic
  refine ⟨_, by rw [step, call_reattach, decodeHeader_ok hmagic]; rfl, ?_⟩
  -- the successor's count is the number of publishes, whatever was pinned meanwhile
  have hcount : recoveredSeq s₂.mem.seg.words (s₂.mem.seg.hdr .lastEntrySeq) = h'.log.length := by
    rw [hS.hdr, recoveredSeq_congr hS.marks, hrec]
  rw [← hR.crash_last (by omega) hat]
  constructor
  · rintro ⟨hlast, -⟩
    rw [resumed_lastEntrySeq, hcount] at hlast
    rwa [hS.hdr] at hlast
  · intro hlast
    have hlast₂ : s₂.mem.seg.hdr .lastEntrySeq = h'.log.length := by rw [hS.hdr, hlast]
    refine ⟨by rw [resumed_lastEntrySeq, hcount, hlast₂], fun r f dst i hdst hi => ?_⟩
    have hle : (s₂.mem.seg.words i).natAbs ≤ h'.log.length := (hS.marks i).trans_le (hM.le i)
    have hword : s₂.mem.seg.words i ≤ s₂.mem.seg.hdr .lastEntrySeq := by omega
    obtain ⟨j, n, hl⟩ := located_of_word hP.lt hi hword
    refine ⟨n, ⟨n, j⟩, bytesOf (s₂.mem.seg.payload j), ?_⟩
    rw [readInto_run readerExec_reads r hdst f hP.lt]
    unfold readAlone
    rw [hl]

/-- A crash before the slot word is stored: the successor advertises entry 1, and a
    reader is given it. -/
theorem attach_advertised_early : ∃ s₃ : Session (.tiny 1) Unit,
    s₃.mem.seg.words (Geometry.slot _ 0) = 1 ∧ s₃.Advertised := by
  have hrun : (steps step (fun _ c => plain c) (init (.tiny 1) Unit .u8 7)
      [.write (List.replicate 8 1)]).map (fun s =>
        let c := Prog.advance (Hist.writerExec (List.replicate 8 2)) 5
          (s.writer.write (List.replicate 8 2)) s.mem
        (s.mem.log.length, c.1.next?, c.2.seg.words (Geometry.slot _ 0))) =
      some (1, some (.storeByte (Geometry.slot _ 1) ⟨3, by decide⟩ 2), 1) := by decide +kernel
  obtain ⟨s, hs, he⟩ := reach_eval hrun
  simp only [Prod.mk.injEq] at he
  obtain ⟨hlen, hnext, hword⟩ := he
  obtain ⟨s₃, h₃, hiff⟩ := attach_advertised hs (by rw [hlen]; norm_num)
    (Prog.solo_advance 5 _ _) .refl
  refine ⟨s₃, ?_, hiff.2 ?_⟩
  · obtain ⟨⟨a, t⟩, hc, rfl⟩ := Option.map_eq_some_iff.1 h₃
    rw [call_reattach] at hc
    split at hc
    · cases hc
      exact hword
    · cases hc
  · rintro ⟨w, v, hv⟩
    rw [hnext] at hv
    cases hv

/-- **A watermark that is recovered and not advertised**: a writer crashes with the word
    of entry 2 stored.  Its successor counts two entries, the header says one, and a
    reader that has read entry 1 is told that there is nothing newer. -/
theorem recovered_unadvertised : ∃ (s s₃ : Session (.tiny 1) Unit)
    (q : SegProg (.tiny 1) (Except ZeroChannelError Unit × RawWriter (.tiny 1))) (h' : Hist _),
    Reach step (fun _ c _ => plain c) (init (.tiny 1) Unit .u8 7) s ∧
    Prog.Solo (Hist.writerExec (List.replicate 8 2)) (s.writer.write (List.replicate 8 2)) s.mem
      q h' ∧
    step { s with mem := h' } .reattach = some s₃ ∧
    s₃.writer.lastEntrySeq = 2 ∧ s₃.mem.seg.hdr .lastEntrySeq = 1 ∧
    s₃.mem.seg.words (Geometry.slot _ 1) = 2 ∧
    (s₃.call (.readInto () (List.replicate 8 0) (some 1))).map Prod.fst =
      some (.readInto (.ok none) (List.replicate 8 0)) := by
  have hrun : (steps step (fun _ c => plain c) (init (.tiny 1) Unit .u8 7)
      [.write (List.replicate 8 1)]).map (fun s =>
        let c := Prog.advance (Hist.writerExec (List.replicate 8 2)) 11
          (s.writer.write (List.replicate 8 2)) s.mem
        (step { s with mem := c.2 } .reattach).map fun s₃ =>
          ((s₃.writer.lastEntrySeq, s₃.mem.seg.hdr .lastEntrySeq),
            s₃.mem.seg.words (Geometry.slot _ 1),
            (s₃.call (.readInto () (List.replicate 8 0) (some 1))).map Prod.fst)) =
      some (some ((2, 1), 2, some (.readInto (.ok none) (List.replicate 8 0)))) := by
    decide +kernel
  obtain ⟨s, hs, he⟩ := reach_eval hrun
  simp only [Option.map_eq_some_iff, Prod.mk.injEq] at he
  obtain ⟨s₃, h₃, ⟨hcount, hlast⟩, hword, hread⟩ := he
  exact ⟨s, s₃, _, _, hs, Prog.solo_advance 11 _ _, h₃, hcount, hlast, hword,
    by simpa only [Option.map_eq_some_iff] using hread⟩

end Session

end ZeroChannel
