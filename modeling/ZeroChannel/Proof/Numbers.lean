/-
  Sequence numbers across crashes.

  A writer that resumed from a slot word keeps its count private until its first
  publish.  If it clears that very slot and crashes, the count is lost
  (`number_reused`).  In lives in which no crash does so, the `k`-th publish stores
  the number `k` (`numbers_consecutive`).
-/
import ZeroChannel.Life
import ZeroChannel.Proof.Marks

namespace ZeroChannel

open Concur

variable {G : Geometry} {ι : Type}

/-- The writer is about to store the payload or the word of a slot it has cleared. -/
def SegOp.fills : Option (SegOp G) → Bool
  | some (.storeByte _ _ _) | some (.storeSeq _ _) => true
  | _ => false

namespace Life

/-- The crash is between the clearing of the slot that holds the newest entry and the
    store of its next number, while the header lags behind the writer's count. -/
def losesNewest (l : Life G ι) : LifeAct G ι → Bool
  | .crash data n =>
    l.ses.mem.seg.hdr .lastEntrySeq < l.ses.writer.lastEntrySeq &&
    (match free? l.ses.mem.seg.words l.ses.writer.currentIndex.val G.entryCount with
      | some i => (l.ses.mem.seg.words i).natAbs = l.ses.writer.lastEntrySeq
      | none => false) &&
    SegOp.fills (l.ses.cut data n).1.next?
  | _ => false

/-- The count of publishes can be recovered from the segment. -/
structure Counted (s : Session G ι) : Prop extends s.Pinned where
  marked : Marked s.mem.seg.words s.mem.log.length
  last_le : s.mem.seg.hdr .lastEntrySeq ≤ s.mem.log.length
  kept : s.mem.seg.hdr .lastEntrySeq = s.mem.log.length ∨
    ∃ i, (s.mem.seg.words i).natAbs = s.mem.log.length
  nums : s.mem.nums = (List.range s.mem.log.length).map fun k => ((k + 1 : ℕ) : ℤ)
  magic : s.mem.seg.hdr .magic = MAGIC_VERSION

/-- The invariant of a life. -/
structure Inv (l : Life G ι) : Prop where
  counted : Counted l.ses
  count : l.bound → l.ses.writer.lastEntrySeq = l.ses.mem.log.length

theorem Counted.same {s s' : Session G ι} (h : Counted s) (hP : s'.Pinned) (hS : s.Same s') :
    Counted s' where
  toPinned := hP
  marked := by rw [hS.log]; exact h.marked.congr hS.marks
  last_le := by rw [hS.hdr, hS.log]; exact h.last_le
  kept := by
    rw [hS.hdr, hS.log]
    exact h.kept.imp_right fun ⟨i, hi⟩ => ⟨i, (hS.marks i).trans hi⟩
  nums := by rw [hS.nums, hS.log, h.nums]
  magic := by rw [hS.hdr, h.magic]

/-- Once the word of the next entry is stored, the count is in its slot. -/
theorem Counted.store {s s' : Session G ι} (h : Counted s)
    (hc : s.writer.lastEntrySeq = s.mem.log.length) (hn : s.mem.log.length + 1 < 2 ^ 63)
    {i : Slot G} {data : List UInt8} (hp : PastStore s.writer data s.mem s'.mem i)
    (hP : s'.Pinned) (hmagic : s'.mem.seg.hdr .magic = s.mem.seg.hdr .magic) : Counted s' := by
  have hseq : u64 (s.writer.lastEntrySeq + 1) = s.mem.log.length + 1 := by
    rw [hc, u64_of_lt (by omega)]
  have hlen : s'.mem.log.length = s.mem.log.length + 1 := by simp [hp.log]
  have hw : ∀ j, s'.mem.seg.words j =
      if j = i then ((s.mem.log.length + 1 : ℕ) : ℤ) else s.mem.seg.words j := by
    intro j
    rw [hp.words, hseq, asI64_of_lt hn]
  refine ⟨hP, ?_, ?_, Or.inr ⟨i, ?_⟩, ?_, hmagic.trans h.magic⟩
  · rw [hlen]
    exact h.marked.store hw
  · have := h.last_le
    rcases hp.last with hl | hl <;> omega
  · rw [hw, if_pos rfl, hlen, Int.natAbs_natCast]
  · rw [hp.nums, h.nums, hseq, asI64_of_lt hn, hlen, List.range_succ, List.map_append,
      List.map_singleton]

/-- A crash keeps the count, unless it loses the newest entry. -/
theorem Counted.crash {s : Session G ι} (h : Counted s)
    (hc : s.writer.lastEntrySeq = s.mem.log.length) {data : List UInt8} {o : Option (SegOp G)}
    {h' : Hist G} (hat : WriteAt s.writer data s.mem o h') (hn : h'.log.length < 2 ^ 63)
    (hkeep : ∀ i, SegOp.fills o →
      free? s.mem.seg.words s.writer.currentIndex.val G.entryCount = some i →
      s.mem.seg.hdr .lastEntrySeq < s.mem.log.length → (s.mem.seg.words i).natAbs ≠ s.mem.log.length) :
    Counted { s with mem := h' } := by
  have hP := h.toPinned.crash hat
  have hmagic := hat.hdr (x := .magic) (by decide) (by decide)
  cases hat with
  | claiming => exact h
  | @copying i b o hf ho =>
    have hfill : SegOp.fills o := by
      rcases ho with ⟨j, v, rfl⟩ | ⟨v, rfl⟩ <;> rfl
    refine ⟨hP, h.marked.clear fun j => Hist.claimed_words _ _ _ j, h.last_le, ?_, h.nums, h.magic⟩
    rcases Nat.lt_or_ge (s.mem.seg.hdr .lastEntrySeq) s.mem.log.length with hlt | hge
    · -- the header lags, so the count is in a slot, and not in the one that was cleared
      obtain ⟨k, hk⟩ := h.kept.resolve_left hlt.ne
      have hki : k ≠ i := by
        rintro rfl
        exact hkeep k hfill hf hlt hk
      exact Or.inr ⟨k, by rw [Hist.claimed_words, if_neg hki]; exact hk⟩
    · exact Or.inl (le_antisymm h.last_le hge)
  | @stored i v hf =>
    have hp := pastStore_stored s.writer data s.mem i
    exact h.store hc (by simpa [hp.log] using hn) hp hP rfl
  | @indexed i v hf =>
    have hp := pastStore_indexed s.writer data s.mem i
    exact h.store hc (by simpa [hp.log] using hn) hp hP hmagic
  | @done i hf =>
    have hp := pastStore_published s.writer data s.mem i
    exact h.store hc (by simpa [hp.log] using hn) hp hP hmagic

theorem Counted.init (dtype : Dtype) (owner : ℕ) : Counted (Session.init G ι dtype owner) where
  lt i := by simp [Session.init, Session.start, Segment.init]
  pin x hx := by cases hx
  nodup := List.nodup_nil
  marked := ⟨fun i => by simp [Session.init, Session.start, Segment.init],
    fun i j hi => by simp [Session.init, Session.start, Segment.init] at hi⟩
  last_le := le_rfl
  kept := Or.inl rfl
  nums := rfl
  magic := rfl

section
variable [DecidableEq ι]

/-- A reader's call, or a write by a writer that knows the count. -/
theorem Counted.call {s s' : Session G ι} (h : Counted s) {c : Call G ι} (hp : Session.plain c)
    (hs : s.step c = some s')
    (hw : ∀ data, c = .write data → s.writer.lastEntrySeq = s.mem.log.length)
    (hn : s'.mem.log.length < 2 ^ 63) :
    Counted s' ∧ (s.writer.lastEntrySeq = s.mem.log.length →
      s'.writer.lastEntrySeq = s'.mem.log.length) := by
  obtain ⟨hP, ⟨i, data, rfl, -, hf, rfl⟩ | hS⟩ := Session.plain_step h.toPinned hp hs
  · have hp := pastStore_published s.writer data s.mem i
    have hlen : s.mem.log.length + 1 < 2 ^ 63 := by
      have := congrArg List.length hp.log
      simp only [List.length_append, List.length_singleton] at this
      exact this ▸ hn
    refine ⟨h.store (hw data rfl) hlen hp hP rfl, fun hc => ?_⟩
    simp [Session.wrote, RawWriter.next, hc, u64_of_lt (show s.mem.log.length + 1 < 2 ^ 64 by omega)]
  · exact ⟨h.same hP hS, fun hc => by rw [hS.writer, hS.log, hc]⟩

/-- One event in the life of a segment. -/
theorem Inv.step {l l' : Life G ι} {a : LifeAct G ι} (h : l.Inv) (hs : l.step a = some l')
    (hp : !l.losesNewest a) (hn : l'.ses.mem.log.length < 2 ^ 63) : l'.Inv := by
  obtain ⟨hC, hcount⟩ := h
  cases a with
  | attach =>
    simp only [Life.step] at hs
    split_ifs at hs
    obtain ⟨s, hr, rfl⟩ := Option.map_eq_some_iff.1 hs
    simp only [Session.step, Session.call_reattach, decodeHeader_ok hC.magic] at hr
    cases hr
    refine ⟨⟨⟨hC.lt, hC.pin, hC.nodup⟩, hC.marked, hC.last_le, hC.kept, hC.nums, hC.magic⟩,
      fun _ => ?_⟩
    rw [resumed_lastEntrySeq]
    exact recoveredSeq_eq hC.last_le hC.marked.le hC.kept
  | exit =>
    simp only [Life.step] at hs
    split_ifs at hs
    cases hs
    exact ⟨hC, nofun⟩
  | write data =>
    simp only [Life.step] at hs
    split_ifs at hs with hb
    obtain ⟨s, hr, rfl⟩ := Option.map_eq_some_iff.1 hs
    obtain ⟨hC', hcount'⟩ := hC.call rfl hr (fun _ _ => hcount hb) hn
    exact ⟨hC', fun _ => hcount' (hcount hb)⟩
  | crash data n =>
    simp only [Life.step] at hs
    split_ifs at hs with hb
    cases hs
    refine ⟨hC.crash (hcount hb) (write_solo data (Prog.solo_advance n _ _)) hn ?_, nofun⟩
    intro i hfill hf hlt hi
    have hc := hcount hb
    simp [losesNewest, Session.cut, hfill, hf, hc, hlt, hi] at hp
  | tryAcquire r f =>
    simp only [Life.step] at hs
    obtain ⟨s, hr, rfl⟩ := Option.map_eq_some_iff.1 hs
    obtain ⟨hC', hcount'⟩ := hC.call rfl hr nofun hn
    exact ⟨hC', fun hb => hcount' (hcount hb)⟩
  | release x =>
    simp only [Life.step] at hs
    obtain ⟨s, hr, rfl⟩ := Option.map_eq_some_iff.1 hs
    obtain ⟨hC', hcount'⟩ := hC.call rfl hr nofun hn
    exact ⟨hC', fun hb => hcount' (hcount hb)⟩

theorem log_le {l l' : Life G ι} {a : LifeAct G ι} (hs : l.step a = some l') :
    l.ses.mem.log.length ≤ l'.ses.mem.log.length := by
  cases a with
  | attach | write data =>
    simp only [Life.step] at hs
    split_ifs at hs
    obtain ⟨s, hr, rfl⟩ := Option.map_eq_some_iff.1 hs
    exact Session.step_log hr
  | exit =>
    simp only [Life.step] at hs
    split_ifs at hs
    cases hs
    exact le_rfl
  | crash data n =>
    simp only [Life.step] at hs
    split_ifs at hs
    cases hs
    exact (write_solo data (Prog.solo_advance n _ _)).log_le
  | tryAcquire r f | release x =>
    simp only [Life.step] at hs
    obtain ⟨s, hr, rfl⟩ := Option.map_eq_some_iff.1 hs
    exact Session.step_log hr

/-- **Numbers are consecutive.**  In a life of fewer than `2 ^ 63` publishes in which
    no crash loses the newest entry, the `k`-th publish stores the number `k`, and no
    two slots hold the same entry. -/
theorem numbers_consecutive {dtype : Dtype} {owner : ℕ} {l : Life G ι}
    (h : Reach step (fun l a _ => !l.losesNewest a) (init G ι dtype owner) l)
    (hn : l.ses.mem.log.length < 2 ^ 63) :
    l.ses.mem.nums = (List.range l.ses.mem.log.length).map (fun k => ((k + 1 : ℕ) : ℤ)) ∧
    ∀ i j, l.ses.mem.seg.words i ≠ 0 →
      (l.ses.mem.seg.words i).natAbs = (l.ses.mem.seg.words j).natAbs → i = j := by
  have hI : l.Inv := (h.bounded (fun l => l.ses.mem.log.length) (fun _ _ _ => log_le) hn).inv
    ⟨Counted.init dtype owner, nofun⟩ fun _ _ _ hI hs hp => hI.step hs hp.1 hp.2
  exact ⟨hI.counted.nums, hI.counted.marked.inj⟩

/-- A writer crashes right after storing the word of entry 1; its successors go on
    with 2 and 3. -/
theorem numbers_consecutive_crash : ∃ l : Life (.tiny 0) Unit,
    l.ses.mem.log.length = 3 ∧
    l.ses.mem.nums = (List.range l.ses.mem.log.length).map (fun k => ((k + 1 : ℕ) : ℤ)) := by
  have hrun : (steps step (fun l a => !l.losesNewest a) (init (.tiny 0) Unit .u8 7)
      [.attach, .crash (List.replicate 8 1) 11, .attach, .write (List.replicate 8 2), .exit,
        .attach, .write (List.replicate 8 3)]).map (fun l => l.ses.mem.log.length) =
      some 3 := by decide +kernel
  obtain ⟨l, hl, hlen⟩ := reach_eval hrun
  exact ⟨l, hlen, (numbers_consecutive hl (by rw [hlen]; norm_num)).1⟩

/-- **A number can be reused**: the second writer knows from the slot word that entry 1
    exists, clears that slot and crashes; the third stores the number 1 again. -/
theorem number_reused : ∃ l : Life (.tiny 0) Unit,
    Reach step (fun _ _ _ => True) (init (.tiny 0) Unit .u8 7) l ∧ l.ses.mem.nums = [1, 1] := by
  have hrun : (steps step (fun _ _ => true) (init (.tiny 0) Unit .u8 7)
      [.attach, .crash (List.replicate 8 1) 11, .attach, .crash (List.replicate 8 2) 2,
        .attach, .write (List.replicate 8 3)]).map (fun l => l.ses.mem.nums) =
      some [1, 1] := by decide +kernel
  obtain ⟨l, hl, hn⟩ := reach_eval hrun
  exact ⟨l, hl.mono fun _ _ _ _ => trivial, hn⟩

end

end Life

end ZeroChannel
