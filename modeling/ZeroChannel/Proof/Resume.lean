/-
  Where a successor resumes.

  A writer crashes somewhere in a `write`.  Its successor recovers the number of
  publishes from every crash point.  It recovers the cursor too, except from the
  point between the store of the slot word and the store of `write_index`, when
  the slot was reached by skipping held ones (`crash_resume`, `resume_lost`).
-/
import ZeroChannel.Proof.Marks

namespace ZeroChannel

open Concur

variable {G : Geometry} {ι : Type}

namespace Session

/-! ## The ring between two calls -/

/-- A session between two calls: counters and cursor agree, and the newest entry is
    just behind the cursor. -/
structure Resting (s : Session G ι) : Prop extends s.Pinned where
  marked : Marked s.mem.seg.words s.mem.log.length
  last : s.mem.seg.hdr .lastEntrySeq = s.mem.log.length
  count : s.writer.lastEntrySeq = s.mem.log.length
  index : s.mem.seg.hdr .writeIndex = s.writer.currentIndex.val
  magic : s.mem.seg.hdr .magic = MAGIC_VERSION
  newest : 0 < s.mem.log.length → ∃ i, (s.mem.seg.words i).natAbs = s.mem.log.length ∧
    s.writer.currentIndex = G.slot (i.val + 1)

theorem Resting.init (dtype : Dtype) (owner : ℕ) : (init G ι dtype owner).Resting where
  toPinned := .init dtype owner
  marked := ⟨fun i => by simp [Session.init, start, Segment.init],
    fun i j hi => by simp [Session.init, start, Segment.init] at hi⟩
  last := rfl
  count := rfl
  index := by simp [Session.init, start, Segment.init]
  magic := rfl
  newest h := by cases h

theorem Resting.same {s s' : Session G ι} (h : s.Resting) (hP : s'.Pinned) (hS : s.Same s') :
    s'.Resting where
  toPinned := hP
  marked := by rw [hS.log]; exact h.marked.congr hS.marks
  last := by rw [hS.hdr, hS.log, h.last]
  count := by rw [hS.writer, hS.log, h.count]
  index := by rw [hS.hdr, hS.writer, h.index]
  magic := by rw [hS.hdr, h.magic]
  newest := by
    rw [hS.log, hS.writer]
    intro h0
    obtain ⟨i, hi, hc⟩ := h.newest h0
    exact ⟨i, (hS.marks i).trans hi, hc⟩

/-- The number the next publish stores. -/
theorem Resting.seq {s : Session G ι} (h : s.Resting) (hn : s.mem.log.length + 1 < 2 ^ 63) :
    u64 (s.writer.lastEntrySeq + 1) = s.mem.log.length + 1 := by
  rw [h.count, u64_of_lt (by omega)]

theorem Resting.wrote {s : Session G ι} (h : s.Resting) {i : Slot G} {data : List UInt8}
    (hi : 0 ≤ s.mem.seg.words i) (hn : s.mem.log.length + 1 < 2 ^ 63) :
    (s.wrote i data).Resting := by
  have hseq := h.seq hn
  have hw : ∀ j, (s.wrote i data).mem.seg.words j =
      if j = i then ((s.mem.log.length + 1 : ℕ) : ℤ) else s.mem.seg.words j := by
    intro j
    rw [wrote_words, hseq, asI64_of_lt hn]
  have hlog : (s.wrote i data).mem.log.length = s.mem.log.length + 1 := by
    simp [Session.wrote]
  refine ⟨h.toPinned.wrote hi data, ?_, ?_, ?_, ?_, h.magic, fun _ => ⟨i, ?_, ?_⟩⟩
  · rw [hlog]
    exact h.marked.store hw
  · simp [Session.wrote, hseq]
  · simp [Session.wrote, RawWriter.next, hseq]
  · simp [Session.wrote, RawWriter.next]
  · rw [hlog, hw, if_pos rfl, Int.natAbs_natCast]
  · rfl

theorem resting_reach [DecidableEq ι] {dtype : Dtype} {owner : ℕ} {s : Session G ι}
    (h : Reach step (fun _ c s' => plain c ∧ s'.mem.log.length < 2 ^ 63)
      (init G ι dtype owner) s) : s.Resting := by
  refine h.inv (Resting.init dtype owner) ?_
  rintro s c s' hR hs ⟨hc, hn⟩
  obtain ⟨hP, ⟨i, data, rfl, -, hf, rfl⟩ | hS⟩ := plain_step hR.toPinned hc hs
  · refine hR.wrote (free?_nonneg hf) ?_
    simp only [Session.wrote, Hist.published_log, Hist.claimed_log, List.length_append,
      List.length_singleton] at hn
    omega
  · exact hR.same hP hS

/-! ## What attaching makes of a crashed ring -/

theorem resumed_currentIndex {words : Slot G → ℤ} {writeIndex last n : ℕ}
    (hn : recoveredSeq words last = n) :
    (resumed words writeIndex last).currentIndex =
      if (words (G.slot writeIndex)).natAbs ≠ 0 ∧ (words (G.slot writeIndex)).natAbs = n then
        G.slot (writeIndex + 1)
      else G.slot writeIndex := by
  unfold resumed
  rw [hn]
  dsimp only
  split_ifs <;> simp

/-- The header's index is just past the newest entry: it is kept. -/
theorem resumed_after {words : Slot G → ℤ} {last n : ℕ} (hM : Marked words n)
    (hn : recoveredSeq words last = n) (h0 : 0 < n) {i : Slot G} (hi : (words i).natAbs = n) :
    (resumed words (G.slot (i.val + 1)).val last).currentIndex = G.slot (i.val + 1) := by
  rw [resumed_currentIndex hn, G.slot_self]
  split_ifs with hat
  · -- only in a ring of one slot is the slot past the newest entry the newest itself
    have he : G.slot (i.val + 1) = i := hM.inj _ _ (by omega) (by rw [hat.2, hi])
    rw [he]
    exact he
  · rfl

/-- The successor resumes right: its count is the number of publishes, and its
    cursor is just past the newest entry, if the ring still holds that. -/
def ResumesRight (s : Session G ι) (w : RawWriter G) : Prop :=
  w.lastEntrySeq = s.mem.log.length ∧
    ∀ i, 0 < s.mem.log.length → (s.mem.seg.words i).natAbs = s.mem.log.length →
      w.currentIndex = G.slot (i.val + 1)

/-- The crash is at the store of `write_index`, after a claim that skipped some held
    slots but did not go all the way round to the slot before the cursor. -/
def Stranded (s : Session G ι) (o : Option (SegOp G)) : Prop :=
  (∃ v, o = some (.store .writeIndex v)) ∧ ∃ d, 0 < d ∧ d + 1 < G.entryCount ∧
    free? s.mem.seg.words s.writer.currentIndex.val G.entryCount =
      some (G.slot (s.writer.currentIndex.val + d))

/-- A cursor just past the newest entry reaches its slot last. -/
theorem claims_newest_last {words : Slot G → ℤ} {i : Slot G}
    (h : free? words (G.slot (i.val + 1)).val G.entryCount = some i) {j : Slot G} (hj : j ≠ i) :
    words j < 0 := by
  obtain ⟨d, hd, hi, -, hneg⟩ := free?_some h
  obtain ⟨e, he, rfl⟩ := slot_ahead (G.slot (i.val + 1)) j
  refine hneg e (lt_of_le_of_ne ?_ ?_)
  · by_contra hlt
    -- the slot before the cursor is at the largest distance
    have hd' : d + 1 = G.entryCount := by
      by_contra hne
      refine slot_ne (G := G) (a := i.val) (b := i.val + 1 + d) (by omega) (by omega) ?_
      rw [G.slot_self]
      simpa using hi
    omega
  · rintro rfl
    exact hj hi.symm

section
variable {s : Session G ι} (h : s.Resting)
include h

/-- A crash that left the ring's newest entry where it was, or cleared it. -/
theorem Resting.crash_before {h' : Hist G} (hM : Marked h'.seg.words s.mem.log.length)
    (hlog : h'.log = s.mem.log) (hhdr : h'.seg.hdr = s.mem.seg.hdr)
    (hw : ∀ j, h'.seg.words j ≠ 0 → h'.seg.words j = s.mem.seg.words j) :
    recoveredSeq h'.seg.words (h'.seg.hdr .lastEntrySeq) = h'.log.length ∧
    ∀ i, 0 < h'.log.length → (h'.seg.words i).natAbs = h'.log.length →
      (resumed h'.seg.words (h'.seg.hdr .writeIndex) (h'.seg.hdr .lastEntrySeq)).currentIndex =
        G.slot (i.val + 1) := by
  have hrec : recoveredSeq h'.seg.words (h'.seg.hdr .lastEntrySeq) = s.mem.log.length := by
    rw [hhdr, h.last]
    exact recoveredSeq_eq le_rfl hM.le (Or.inl rfl)
  refine ⟨by rw [hrec, hlog], fun i h0 hi => ?_⟩
  rw [hlog] at h0 hi
  -- the newest entry is the one just behind the cursor
  obtain ⟨k, hk, hc⟩ := h.newest h0
  obtain rfl : i = k := by
    have hwi := hw i (by omega)
    exact h.marked.inj i k (by omega) (by rw [← hwi, hi, hk])
  have hwi : h'.seg.hdr .writeIndex = (G.slot (i.val + 1)).val := by
    rw [hhdr, h.index, hc]
  rw [hwi]
  exact resumed_after hM hrec h0 hi

/-- A crash after the slot word was stored. -/
theorem Resting.crash_after (hn : s.mem.log.length + 1 < 2 ^ 63) {data : List UInt8} {h' : Hist G}
    {i : Slot G} (hp : PastStore s.writer data s.mem h' i) :
    Marked h'.seg.words h'.log.length ∧ (h'.seg.words i).natAbs = h'.log.length ∧
      recoveredSeq h'.seg.words (h'.seg.hdr .lastEntrySeq) = h'.log.length ∧
      ∀ j, h'.seg.words j =
        if j = i then ((s.mem.log.length + 1 : ℕ) : ℤ) else s.mem.seg.words j := by
  have hw : ∀ j, h'.seg.words j =
      if j = i then ((s.mem.log.length + 1 : ℕ) : ℤ) else s.mem.seg.words j := by
    intro j
    rw [hp.words, h.seq hn, asI64_of_lt hn]
  have hlog : h'.log.length = s.mem.log.length + 1 := by simp [hp.log]
  have hM := h.marked.store hw
  have hi : (h'.seg.words i).natAbs = s.mem.log.length + 1 := by
    rw [hw, if_pos rfl, Int.natAbs_natCast]
  have hlast : h'.seg.hdr .lastEntrySeq ≤ s.mem.log.length + 1 := by
    have := h.last
    have := h.seq hn
    rcases hp.last with hl | hl <;> omega
  rw [hlog]
  exact ⟨hM, hi, recoveredSeq_eq hlast hM.le (Or.inr ⟨i, hi⟩), hw⟩

omit h in
theorem stranded_iff {o : Option (SegOp G)} {d : ℕ} {i : Slot G}
    (hf : free? s.mem.seg.words s.writer.currentIndex.val G.entryCount = some i)
    (hd : d < G.entryCount) (hi : i = G.slot (s.writer.currentIndex.val + d)) :
    s.Stranded o ↔ (∃ v, o = some (.store .writeIndex v)) ∧ 0 < d ∧ d + 1 < G.entryCount := by
  refine and_congr_right fun _ => ⟨?_, fun ⟨h₁, h₂⟩ => ⟨d, h₁, h₂, by rw [hf, hi]⟩⟩
  rintro ⟨e, h₁, h₂, he⟩
  rw [hf, Option.some.injEq, hi] at he
  rcases lt_trichotomy d e with hlt | rfl | hlt
  · exact absurd he (slot_ne (by omega) (by omega))
  · exact ⟨h₁, h₂⟩
  · exact absurd he.symm (slot_ne (by omega) (by omega))

/-- With the slot word stored and the header's index still at the cursor, the cursor
    recovered is right unless some slots, but not all others, were skipped. -/
theorem Resting.crash_index {h' : Hist G} {d : ℕ} {i : Slot G}
    (hrec : recoveredSeq h'.seg.words (h'.seg.hdr .lastEntrySeq) = s.mem.log.length + 1)
    (hw : ∀ j, h'.seg.words j =
      if j = i then ((s.mem.log.length + 1 : ℕ) : ℤ) else s.mem.seg.words j)
    (hindex : h'.seg.hdr .writeIndex = s.writer.currentIndex.val) (hd : d < G.entryCount)
    (hi : i = G.slot (s.writer.currentIndex.val + d)) :
    (resumed h'.seg.words (h'.seg.hdr .writeIndex) (h'.seg.hdr .lastEntrySeq)).currentIndex =
        G.slot (i.val + 1) ↔ ¬ (0 < d ∧ d + 1 < G.entryCount) := by
  set c := s.writer.currentIndex with hcdef
  have hsucc : G.slot (i.val + 1) = G.slot (c.val + d + 1) := by
    rw [hi, G.slot_val, slot_mod_add]
  rw [resumed_currentIndex hrec, hindex, G.slot_self, hsucc]
  rcases Nat.eq_zero_or_pos d with rfl | hd0
  · -- no slot was skipped: the word at the cursor is the new one
    have hic : c = i := by rw [hi, Nat.add_zero, G.slot_self]
    have hci : (h'.seg.words c).natAbs = s.mem.log.length + 1 := by
      rw [hw, if_pos hic, Int.natAbs_natCast]
    rw [if_pos ⟨by omega, hci⟩]
    simp
  · -- the word at the cursor is an older one
    have hci : c ≠ i := by
      intro e
      refine slot_ne (G := G) (a := c.val) (b := c.val + d) (by omega) (by omega) ?_
      rw [← hi, ← e, G.slot_self]
    have hle := h.marked.le c
    rw [if_neg (by rw [hw, if_neg hci]; omega)]
    constructor
    · rintro he ⟨-, hlt⟩
      refine slot_ne (G := G) (a := c.val) (b := c.val + d + 1) (by omega) (by omega) ?_
      rw [G.slot_self, ← he]
    · intro hlt
      have hN : d + 1 = G.entryCount := by omega
      rw [Nat.add_assoc, hN, slot_add_count, G.slot_self]

/-- **A crashed write**: the count a successor recovers, and when it recovers the
    cursor. -/
theorem Resting.crash (hn : s.mem.log.length + 1 < 2 ^ 63) {data : List UInt8}
    {o : Option (SegOp G)} {h' : Hist G} (hc : WriteAt s.writer data s.mem o h') :
    Marked h'.seg.words h'.log.length ∧
    recoveredSeq h'.seg.words (h'.seg.hdr .lastEntrySeq) = h'.log.length ∧
    ((∀ i, 0 < h'.log.length → (h'.seg.words i).natAbs = h'.log.length →
      (resumed h'.seg.words (h'.seg.hdr .writeIndex) (h'.seg.hdr .lastEntrySeq)).currentIndex =
        G.slot (i.val + 1)) ↔ ¬ s.Stranded o) := by
  cases hc with
  | claiming ho =>
    obtain ⟨h₁, h₂⟩ := h.crash_before h.marked rfl rfl fun _ _ => rfl
    refine ⟨h.marked, h₁, iff_of_true h₂ ?_⟩
    rintro ⟨⟨v, rfl⟩, -⟩
    simp at ho
  | @copying i b o hf ho =>
    have hM : Marked (s.mem.claimed i b).seg.words s.mem.log.length :=
      h.marked.clear fun j => Hist.claimed_words _ _ _ j
    have hw : ∀ j, (s.mem.claimed i b).seg.words j ≠ 0 →
        (s.mem.claimed i b).seg.words j = s.mem.seg.words j := by
      intro j hj
      rw [Hist.claimed_words] at hj ⊢
      split_ifs at hj ⊢
      · exact absurd rfl hj
      · rfl
    obtain ⟨h₁, h₂⟩ := h.crash_before hM rfl rfl hw
    refine ⟨hM, h₁, iff_of_true h₂ ?_⟩
    rintro ⟨⟨v, rfl⟩, -⟩
    simp at ho
  | @stored i v hf =>
    obtain ⟨hM, hi, hrec, hw⟩ := h.crash_after hn (pastStore_stored _ data _ i)
    refine ⟨hM, hrec, ?_⟩
    obtain ⟨d, hd, hid, -⟩ := free?_some hf
    have hstr : s.Stranded (some (.store .writeIndex v)) ↔ 0 < d ∧ d + 1 < G.entryCount := by
      rw [stranded_iff hf hd hid]
      exact and_iff_right ⟨v, rfl⟩
    rw [hstr, ← h.crash_index (hrec.trans (by simp)) hw h.index hd hid]
    constructor
    · intro hall
      exact hall i (by simp) hi
    · intro hone j h0 hj
      rw [hM.inj j i (by omega) (hj.trans hi.symm)]
      exact hone
  | @indexed i v hf =>
    obtain ⟨hM, hi, hrec, -⟩ := h.crash_after hn (pastStore_indexed _ data _ i)
    refine ⟨hM, hrec, iff_of_true (fun j h0 hj => ?_) ?_⟩
    · rw [Hist.indexed_writeIndex, hM.inj j i (by omega) (hj.trans hi.symm)]
      exact resumed_after hM hrec h0 hi
    · rintro ⟨⟨v, hv⟩, -⟩
      simp at hv
  | @done i hf =>
    obtain ⟨hM, hi, hrec, -⟩ := h.crash_after hn (pastStore_published _ data _ i)
    refine ⟨hM, hrec, iff_of_true (fun j h0 hj => ?_) ?_⟩
    · rw [Hist.published_writeIndex, hM.inj j i (by omega) (hj.trans hi.symm)]
      exact resumed_after hM hrec h0 hi
    · rintro ⟨⟨v, hv⟩, -⟩
      simp at hv

end

variable [DecidableEq ι]

/-- The next write does not erase the newest entry while another slot is free. -/
def KeepsNewest (s : Session G ι) : Prop :=
  ∀ data i, s.claims (.write data) = some i → 0 < s.mem.log.length →
    (s.mem.seg.words i).natAbs = s.mem.log.length → ∀ j, j ≠ i → s.mem.seg.words j < 0

/-- **Where a successor resumes.**  After any sequence of writes, acquisitions and
    releases, a writer crashes anywhere in one further write; whatever is released
    after that, a successor can attach, and it resumes right (and does not erase the
    newest entry while another slot is free) if and only if the crash did not strand
    the cursor. -/
theorem crash_resume {dtype : Dtype} {owner : ℕ} {s s₂ : Session G ι} {data : List UInt8}
    {q : SegProg G (Except ZeroChannelError Unit × RawWriter G)} {h' : Hist G}
    (h : Reach step (fun _ c _ => plain c) (init G ι dtype owner) s)
    (hn : s.mem.log.length < 2 ^ 63 - 1)
    (hc : Prog.Solo (Hist.writerExec data) (s.writer.write data) s.mem q h')
    (hr : Reach step (fun _ c _ => ∃ x, c = .release x) { s with mem := h' } s₂) :
    s₂.mem.log = h'.log ∧ ∃ s₃, s₂.step .reattach = some s₃ ∧
      (s₂.ResumesRight s₃.writer ∧ s₃.KeepsNewest ↔ ¬ s.Stranded q.next?) := by
  have hR := resting_reach
    (h.bounded (fun s => s.mem.log.length) (fun _ _ _ => step_log) (hn.trans (by norm_num)))
  have hat := write_solo data hc
  obtain ⟨hP, hS⟩ := reading_reach (hR.toPinned.crash hat)
    (hr.mono fun _ c _ ⟨_, hc⟩ => by rw [hc]; rfl)
  obtain ⟨hM, hrec, hiff⟩ := hR.crash (by omega) hat
  have hmagic : s₂.mem.seg.hdr .magic = MAGIC_VERSION := by
    rw [hS.hdr]
    exact (hat.hdr (by decide) (by decide)).trans hR.magic
  refine ⟨hS.log, _, by rw [step, call_reattach, decodeHeader_ok hmagic]; rfl, ?_⟩
  -- what was released does not matter: recovery reads magnitudes
  have hw := resumed_congr hS.marks
  have hM₂ : Marked s₂.mem.seg.words s₂.mem.log.length := by
    rw [hS.log]
    exact hM.congr hS.marks
  rw [← hiff]
  constructor
  · rintro ⟨⟨-, hidx⟩, -⟩ i h0 hi
    have := hidx i (by rw [hS.log]; exact h0) (by rw [hS.log, hS.marks]; exact hi)
    rwa [hS.hdr, hw] at this
  · intro hidx
    have hright : s₂.ResumesRight (resumed s₂.mem.seg.words (s₂.mem.seg.hdr .writeIndex)
        (s₂.mem.seg.hdr .lastEntrySeq)) := by
      rw [hS.hdr, hw]
      refine ⟨?_, fun i h0 hi => hidx i ?_ ?_⟩
      · rw [resumed_lastEntrySeq, hS.log]
        exact hrec
      · rwa [hS.log] at h0
      · rwa [hS.log, hS.marks] at hi
    refine ⟨hright, fun data i hcl h0 hi j hj => ?_⟩
    simp only [claims] at hcl
    split_ifs at hcl
    rw [hright.2 i h0 hi] at hcl
    exact claims_newest_last hcl hj

/-- A writer crashes with the word of entry 2 stored and entry 1 pinned; the pin is
    released, and the successor resumes right. -/
theorem crash_resume_released : ∃ s₂ s₃ : Session (.tiny 1) Unit,
    s₂.mem.log.length = 2 ∧ s₂.step .reattach = some s₃ ∧ s₂.ResumesRight s₃.writer := by
  have hrun : (steps step (fun _ c => plain c) (init (.tiny 1) Unit .u8 7)
      [.write (List.replicate 8 1), .tryAcquire () none]).map (fun s =>
        let c := Prog.advance (Hist.writerExec (List.replicate 8 2)) 11
          (s.writer.write (List.replicate 8 2)) s.mem
        (s.mem.log.length, c.2.log.length,
          (step { s with mem := c.2 } (.release ⟨Geometry.slot _ 0, 1⟩)).isSome)) =
      some (1, 2, true) := by decide +kernel
  obtain ⟨s, hs, he⟩ := reach_eval hrun
  simp only [Prod.mk.injEq] at he
  obtain ⟨hn, hlen, hsome⟩ := he
  obtain ⟨s₂, hr⟩ := Option.isSome_iff_exists.1 hsome
  obtain ⟨hlog, s₃, h₃, hiff⟩ := crash_resume hs (by rw [hn]; norm_num)
    (Prog.solo_advance 11 _ _) (.tail .refl hr ⟨_, rfl⟩)
  refine ⟨s₂, s₃, by rw [hlog, hlen], h₃, (hiff.2 ?_).1⟩
  rintro ⟨-, d, h₁, h₂, -⟩
  have hN : (Geometry.tiny 1).entryCount = 2 := rfl
  omega

/-- **A stranded cursor**: with entry 1 pinned in a ring of three, the writer skips
    its slot and crashes after storing the word of entry 4 in the next one.  The
    successor resumes at the pinned slot, not after entry 4. -/
theorem resume_lost : ∃ (s s₃ : Session (.tiny 2) Unit)
    (q : SegProg (.tiny 2) (Except ZeroChannelError Unit × RawWriter (.tiny 2))) (h' : Hist _),
    Reach step (fun _ c _ => plain c) (init (.tiny 2) Unit .u8 7) s ∧
    Prog.Solo (Hist.writerExec (List.replicate 8 4)) (s.writer.write (List.replicate 8 4)) s.mem
      q h' ∧
    step { s with mem := h' } .reattach = some s₃ ∧
    h'.log.length = 4 ∧ (h'.seg.words (Geometry.slot _ 1)).natAbs = 4 ∧
    s₃.writer.currentIndex = Geometry.slot _ 0 := by
  have hrun : (steps step (fun _ c => plain c) (init (.tiny 2) Unit .u8 7)
      [.write (List.replicate 8 1), .write (List.replicate 8 2), .write (List.replicate 8 3),
        .tryAcquire () none]).map (fun s =>
        let c := Prog.advance (Hist.writerExec (List.replicate 8 4)) 12
          (s.writer.write (List.replicate 8 4)) s.mem
        (c.2.log.length, (c.2.seg.words (Geometry.slot _ 1)).natAbs,
          (step { s with mem := c.2 } .reattach).map fun s₃ => s₃.writer.currentIndex)) =
      some (4, 4, some (Geometry.slot _ 0)) := by decide +kernel
  obtain ⟨s, hs, he⟩ := reach_eval hrun
  simp only [Prod.mk.injEq, Option.map_eq_some_iff] at he
  obtain ⟨hlen, hword, s₃, h₃, hidx⟩ := he
  exact ⟨s, s₃, _, _, hs, Prog.solo_advance 12 _ _, h₃, hlen, hword, hidx⟩

end Session

end ZeroChannel
