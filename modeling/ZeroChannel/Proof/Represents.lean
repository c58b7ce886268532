/-
  The representation invariant of the ring.

  Between uninterrupted calls the words are distinct numbers of entries, up to
  sign, on the payloads published as those entries; the header repeats what the
  writer knows; and the negative words are those of the outstanding read handles.
  A held slot is skipped, so nothing is said of where an entry lives, except that
  the cursor is just past the newest one.
-/
import ZeroChannel.Proof.Resume
import ZeroChannel.Proof.WriteHandles

namespace ZeroChannel

open Concur

variable {G : Geometry} {ι : Type}

theorem RawWriter.eq_of {w w' : RawWriter G} (h₁ : w.currentIndex = w'.currentIndex)
    (h₂ : w.lastEntrySeq = w'.lastEntrySeq) : w = w' := by
  cases w
  cases w'
  exact (RawWriter.mk.injEq ..).mpr ⟨h₁, h₂⟩

namespace Session

/-- Between `acquire` and the commit or drop of its handle the writer makes no other
    call, and it is not replaced. -/
def orderly (s : Session G ι) : Call G ι → Bool
  | .write _ | .acquire | .reattach => s.writeHandles.isEmpty
  | _ => true

/-- **The representation invariant.** -/
structure Represents (s : Session G ι) : Prop extends s.Pinned where
  marked : Marked s.mem.seg.words s.mem.log.length
  magic : s.mem.seg.hdr .magic = MAGIC_VERSION
  count : s.writer.lastEntrySeq = s.mem.log.length
  last : s.mem.seg.hdr .lastEntrySeq = s.mem.log.length
  index : s.mem.seg.hdr .writeIndex = s.writer.currentIndex.val
  newest : ∀ i, 0 < s.mem.log.length → (s.mem.seg.words i).natAbs = s.mem.log.length →
    s.writer.currentIndex = G.slot (i.val + 1)
  neg : ∀ i, s.mem.seg.words i < 0 → ∃ x ∈ s.readHandles, x.index = i
  data : ∀ i (n : ℕ), 0 < n → s.mem.seg.words i = n →
    s.mem.log[n - 1]? = some (bytesOf (s.mem.seg.payload i))
  view : ∀ x ∈ s.readHandles, s.mem.log[x.entrySeq - 1]? = some (x.asBytes s.mem.seg)
  handle : s.writeHandles = [] ∨ ∃ i, s.writeHandles = [⟨i⟩] ∧ s.mem.seg.words i = 0

theorem Represents.init (dtype : Dtype) (owner : ℕ) :
    (init G ι dtype owner).Represents where
  toPinned := .init dtype owner
  marked := ⟨fun _ => le_rfl, fun _ _ hi => absurd rfl hi⟩
  magic := rfl
  count := rfl
  last := rfl
  index := (Nat.zero_mod _).symm
  newest _ h := absurd h (lt_irrefl 0)
  neg _ h := absurd h (lt_irrefl 0)
  data i n hn hi := by
    have h0 : (0 : ℤ) = n := hi
    omega
  view _ hx := absurd hx List.not_mem_nil
  handle := Or.inl rfl

namespace Represents
variable {s : Session G ι} (h : s.Represents)
include h

theorem seq (hn : s.mem.log.length + 1 < 2 ^ 63) :
    u64 (s.writer.lastEntrySeq + 1) = s.mem.log.length + 1 := by
  rw [h.count, u64_of_lt (by omega)]

theorem le_length {i : Slot G} {n : ℕ} (hi : s.mem.seg.words i = n) : n ≤ s.mem.log.length := by
  have := h.marked.le i
  omega

theorem entry_le {x : ReadHandle G} (hx : x ∈ s.readHandles) : x.entrySeq ≤ s.mem.log.length := by
  have := h.marked.le x.index
  have := (h.pin x hx).2.2
  omega

/-- What no reader's slot has to do with. -/
theorem view_of {s' : Session G ι} {i : Slot G} (hi : 0 ≤ s.mem.seg.words i)
    (hlog : s.mem.log <+: s'.mem.log)
    (hpay : ∀ j ≠ i, s'.mem.seg.payload j = s.mem.seg.payload j) :
    ∀ x ∈ s.readHandles, s'.mem.log[x.entrySeq - 1]? = some (x.asBytes s'.mem.seg) := by
  intro x hx
  have hpos := (h.pin x hx).1
  have hle := h.entry_le hx
  obtain ⟨t, ht⟩ := hlog
  rw [← ht, List.getElem?_append_left (by omega), h.view x hx, ReadHandle.asBytes,
    ReadHandle.asBytes, hpay _ (h.ne hx hi)]

/-- The next entry is published in slot `i`. -/
theorem publish {s' : Session G ι} {i : Slot G} {data : List UInt8} (hP : s'.Pinned)
    (hi : 0 ≤ s.mem.seg.words i) (hseq : s'.mem.log.length < 2 ^ 63)
    (hw : ∀ j, s'.mem.seg.words j =
      if j = i then asI64 (u64 (s.writer.lastEntrySeq + 1)) else s.mem.seg.words j)
    (hlog : s'.mem.log = s.mem.log ++ [data])
    (hpay : ∀ j ≠ i, s'.mem.seg.payload j = s.mem.seg.payload j)
    (hdata : bytesOf (s'.mem.seg.payload i) = data)
    (hmagic : s'.mem.seg.hdr .magic = s.mem.seg.hdr .magic)
    (hlast : s'.mem.seg.hdr .lastEntrySeq = u64 (s.writer.lastEntrySeq + 1))
    (hindex : s'.mem.seg.hdr .writeIndex = (G.slot (i.val + 1)).val)
    (hwriter : s'.writer = s.writer.next i) (hread : s'.readHandles = s.readHandles)
    (hhandle : s'.writeHandles = []) : s'.Represents := by
  have hlen : s'.mem.log.length = s.mem.log.length + 1 := by rw [hlog]; simp
  have hn := h.seq (by omega)
  rw [hn, asI64_of_lt (by omega)] at hw
  refine ⟨hP, ?_, hmagic.trans h.magic, ?_, ?_, ?_, fun j _ hj => ?_, fun j hj => ?_,
    fun j n hn hj => ?_, ?_, Or.inl hhandle⟩
  · rw [hlen]
    exact h.marked.store hw
  · rw [hwriter, hlen]
    exact hn
  · rw [hlast, hn, hlen]
  · rw [hindex, hwriter]
    rfl
  · -- the newest number stands in slot `i` only
    have hji : j = i := by
      by_contra hne
      have := h.marked.le j
      rw [hw, if_neg hne] at hj
      omega
    rw [hwriter, hji]
    rfl
  · rw [hw] at hj
    split_ifs at hj
    · omega
    · rw [hread]
      exact h.neg j hj
  · rw [hw] at hj
    rw [hlog]
    split_ifs at hj with hji
    · subst hji
      have hnn : n - 1 = s.mem.log.length := by omega
      rw [hnn, hdata]
      exact List.getElem?_concat_length
    · have := h.le_length hj
      rw [List.getElem?_append_left (by omega), hpay j hji]
      exact h.data j n hn hj
  · rw [hread]
    exact h.view_of hi (hlog ▸ List.prefix_append _ _) hpay

theorem wrote {i : Slot G} {data : List UInt8} (hi : 0 ≤ s.mem.seg.words i)
    (hlen : data.length = G.payloadBytes) (hh : s.writeHandles = [])
    (hn : s.mem.log.length + 1 < 2 ^ 63) : (s.wrote i data).Represents := by
  refine h.publish (h.toPinned.wrote hi data) hi ?_ (wrote_words s i · data)
    rfl (fun j hj => ?_) ?_ rfl rfl rfl rfl rfl hh
  · simpa [Session.wrote] using hn
  · simp [Session.wrote, hj]
  · simp [Session.wrote, bytesOf_blockOf hlen]

theorem committed {x : WriteHandle G} (hx : x ∈ s.writeHandles)
    (hn : s.mem.log.length + 1 < 2 ^ 63) : (s.committed x).Represents := by
  rcases h.handle with hh | ⟨i, hh, hi⟩
  · rw [hh] at hx
    cases hx
  · rw [hh] at hx
    obtain rfl := List.mem_singleton.1 hx
    refine h.publish (h.toPinned.committed hi.ge) hi.ge ?_ (fun j => ?_) rfl (fun _ _ => rfl) rfl rfl
      rfl rfl rfl rfl ?_
    · simpa [Session.committed] using hn
    · exact Hist.published_words _ _ _ _ j
    · simp [Session.committed, hh]

theorem acquired {i : Slot G} (hi : 0 ≤ s.mem.seg.words i) (hh : s.writeHandles = []) :
    (s.acquired i).Represents := by
  have hw := acquired_words s i
  refine ⟨h.toPinned.acquired hi, h.marked.clear hw, h.magic, h.count, h.last, h.index,
    fun j hlen hj => ?_, fun j hj => ?_, fun j n hn hj => ?_, ?_, Or.inr ⟨i, ?_, ?_⟩⟩
  · have hlen' : 0 < s.mem.log.length := hlen
    have hj' : ((s.acquired i).mem.seg.words j).natAbs = s.mem.log.length := hj
    rw [hw] at hj'
    split_ifs at hj'
    · omega
    · exact h.newest j hlen' hj'
  · rw [hw] at hj
    split_ifs at hj
    · omega
    · exact h.neg j hj
  · rw [hw] at hj
    split_ifs at hj
    · omega
    · exact h.data j n hn hj
  · exact h.view_of hi (List.prefix_rfl) fun _ _ => rfl
  · simp [Session.acquired, hh]
  · rw [hw, if_pos rfl]

theorem filled {x : WriteHandle G} (hx : x ∈ s.writeHandles) (j : Fin G.payloadBytes) (b : UInt8) :
    (s.filled x j b).Represents := by
  rcases h.handle with hh | ⟨i, hh, hi⟩
  · rw [hh] at hx
    cases hx
  · rw [hh] at hx
    obtain rfl := List.mem_singleton.1 hx
    have hpay : ∀ k ≠ i, (s.filled ⟨i⟩ j b).mem.seg.payload k = s.mem.seg.payload k :=
      fun k hk => Segment.setByte_ne _ hk _ _
    refine ⟨⟨h.lt, h.pin, h.nodup⟩, h.marked, h.magic, h.count, h.last, h.index, h.newest, h.neg,
      fun k n hn hk => ?_, h.view_of hi.ge List.prefix_rfl hpay, Or.inr ⟨i, hh, hi⟩⟩
    have hk' : s.mem.seg.words k = n := hk
    rw [hpay k fun e => by rw [e, hi] at hk'; omega]
    exact h.data k n hn hk'

theorem abandoned {x : WriteHandle G} (hx : x ∈ s.writeHandles) :
    Represents { s with writeHandles := s.writeHandles.erase x } := by
  refine ⟨⟨h.lt, h.pin, h.nodup⟩, h.marked, h.magic, h.count, h.last, h.index, h.newest, h.neg,
    h.data, h.view, Or.inl ?_⟩
  rcases h.handle with hh | ⟨i, hh, -⟩
  · rw [hh] at hx
    cases hx
  · rw [hh] at hx
    obtain rfl := List.mem_singleton.1 hx
    simp [hh]

theorem pinned {i : Slot G} {n : ℕ} (hn : 0 < n) (hlt : n < 2 ^ 63) (hi : s.mem.seg.words i = n)
    (readers : ι → RawReader G) :
    Represents { s with mem := s.mem.pinned ⟨i, n⟩, readers,
                        readHandles := s.readHandles ++ [⟨i, n⟩] } := by
  have habs : ∀ j, ((s.mem.pinned ⟨i, n⟩).seg.words j).natAbs = (s.mem.seg.words j).natAbs := by
    intro j
    simp only [Hist.pinned_words]
    split_ifs with hj
    · rw [hj, hi, Int.natAbs_neg]
    · rfl
  refine ⟨h.toPinned.pinned hn hlt hi readers, h.marked.congr habs, h.magic, h.count, h.last,
    h.index, fun j hl hj => h.newest j hl (habs j ▸ hj), fun j hj => ?_, fun j m hm hj => ?_,
    fun x hx => ?_, h.handle.imp_right fun ⟨k, hk, h0⟩ => ⟨k, hk, ?_⟩⟩
  · simp only [Hist.pinned_words] at hj
    split_ifs at hj with hji
    · exact ⟨⟨i, n⟩, List.mem_append_right _ (List.mem_singleton_self _), hji.symm⟩
    · obtain ⟨x, hx, hxj⟩ := h.neg j hj
      exact ⟨x, List.mem_append_left _ hx, hxj⟩
  · simp only [Hist.pinned_words] at hj
    split_ifs at hj
    · omega
    · exact h.data j m hm hj
  · rcases List.mem_append.1 hx with hx | hx
    · exact h.view x hx
    · obtain rfl := List.mem_singleton.1 hx
      exact h.data i n hn hi
  · simp only [Hist.pinned_words]
    rw [if_neg fun e => by rw [e, hi] at h0; omega]
    exact h0

theorem released {x : ReadHandle G} (hx : x ∈ s.readHandles) :
    Represents { s with mem := s.mem.released x, readHandles := s.readHandles.erase x } := by
  obtain ⟨hpos, hlt, hw⟩ := h.pin x hx
  have habs : ∀ j, ((s.mem.released x).seg.words j).natAbs = (s.mem.seg.words j).natAbs := by
    intro j
    simp only [Hist.released_words]
    split_ifs with hj
    · rw [hj, hw, Int.natAbs_neg]
    · rfl
  refine ⟨h.toPinned.released hx, h.marked.congr habs, h.magic, h.count, h.last, h.index,
    fun j hl hj => h.newest j hl (habs j ▸ hj), fun j hj => ?_, fun j m hm hj => ?_,
    fun y hy => h.view y (List.mem_of_mem_erase hy), h.handle.imp_right fun ⟨k, hk, h0⟩ =>
      ⟨k, hk, ?_⟩⟩
  · simp only [Hist.released_words] at hj
    split_ifs at hj with hji
    · omega
    · obtain ⟨y, hy, hyj⟩ := h.neg j hj
      exact ⟨y, (List.mem_erase_of_ne fun e => hji (by rw [← hyj, e])).2 hy, hyj⟩
  · simp only [Hist.released_words] at hj
    split_ifs at hj with hji
    · obtain rfl : x.entrySeq = m := by omega
      rw [hji]
      exact h.view x hx
    · exact h.data j m hm hj
  · simp only [Hist.released_words]
    rw [if_neg fun e => by rw [e, hw] at h0; omega]
    exact h0

/-- A clean successor is the writer it replaces. -/
theorem resumed_eq :
    resumed s.mem.seg.words s.writer.currentIndex.val s.mem.log.length = s.writer := by
  have hn : recoveredSeq s.mem.seg.words s.mem.log.length = s.mem.log.length :=
    recoveredSeq_eq le_rfl h.marked.le (Or.inl rfl)
  have hc := @resumed_currentIndex _ s.mem.seg.words s.writer.currentIndex.val _ _ hn
  rw [G.slot_self] at hc
  have hcur : (resumed s.mem.seg.words s.writer.currentIndex.val s.mem.log.length).currentIndex =
      s.writer.currentIndex := by
    rw [hc]
    split_ifs with hat
    · exact (h.newest _ (by omega) hat.2).symm
    · rfl
  have hlast := resumed_lastEntrySeq s.mem.seg.words s.writer.currentIndex.val s.mem.log.length
  rw [hn] at hlast
  exact RawWriter.eq_of hcur (hlast.trans h.count.symm)

end Represents

section
variable [DecidableEq ι]

/-- A clean reattachment changes nothing. -/
theorem Represents.reattach {s s' : Session G ι} (h : s.Represents)
    (hs : s.step .reattach = some s') : s' = s := by
  rw [Session.step, call_reattach, decodeHeader_ok h.magic] at hs
  cases hs
  rw [h.index, h.last, h.resumed_eq]

/-- One call. -/
theorem Represents.step {s s' : Session G ι} (h : s.Represents) {c : Call G ι}
    (hs : s.step c = some s') (hc : s.orderly c) (hlog : s'.mem.log.length < 2 ^ 63) :
    s'.Represents := by
  cases step_effect h.toPinned hs with
  | quiet _ hw =>
    rcases hw with rfl | rfl
    · exact ⟨⟨h.lt, h.pin, h.nodup⟩, h.marked, h.magic, h.count, h.last, h.index, h.newest, h.neg,
        h.data, h.view, h.handle⟩
    · rw [h.reattach hs]
      exact h
  | @write i data hlen hcl =>
    refine h.wrote (claims_nonneg hcl) hlen (List.isEmpty_iff.1 hc) ?_
    simpa [Session.wrote] using hlog
  | acquire hcl => exact h.acquired (claims_nonneg hcl) (List.isEmpty_iff.1 hc)
  | fill hx => exact h.filled hx _ _
  | commit hx =>
    refine h.committed hx ?_
    simpa [Session.committed] using hlog
  | abandon hx => exact h.abandoned hx
  | tryAcquire hn hlt hi => exact h.pinned hn hlt hi _
  | release hx => exact h.released hx

/-- **The ring is represented.**  In every run of fewer than `2 ^ 63 - 1` publishes whose
    writer finishes with a handle before its next call: the words are distinct numbers,
    up to sign, of entries published; the header repeats the writer's counters; the
    negative words belong, one to one, to the outstanding read handles; and each word
    and each handle is on the payload of its entry. -/
theorem represents {dtype : Dtype} {owner : ℕ} {s : Session G ι}
    (h : Reach Session.step (fun s c _ => s.orderly c) (init G ι dtype owner) s)
    (hlog : s.mem.log.length < 2 ^ 63 - 1) :
    (∀ i, s.mem.seg.words i ≠ 0 →
      1 ≤ (s.mem.seg.words i).natAbs ∧ (s.mem.seg.words i).natAbs ≤ s.writer.lastEntrySeq) ∧
    (∀ i j, s.mem.seg.words i ≠ 0 →
      (s.mem.seg.words i).natAbs = (s.mem.seg.words j).natAbs → i = j) ∧
    s.mem.seg.hdr .lastEntrySeq = s.writer.lastEntrySeq ∧
    s.mem.seg.hdr .writeIndex = s.writer.currentIndex.val ∧
    (∀ i, s.mem.seg.words i < 0 → ∃! x, x ∈ s.readHandles ∧ x.index = i) ∧
    (∀ x ∈ s.readHandles, 0 < x.entrySeq ∧ s.mem.seg.words x.index = -(x.entrySeq : ℤ) ∧
      s.mem.log[x.entrySeq - 1]? = some (x.asBytes s.mem.seg)) ∧
    s.readHandles.Nodup ∧
    ∀ i, 0 < s.mem.seg.words i →
      s.mem.log[(s.mem.seg.words i).toNat - 1]? = some (bytesOf (s.mem.seg.payload i)) := by
  have hR : s.Represents := by
    refine (h.bounded (fun s => s.mem.log.length) (fun _ _ _ => step_log) hlog).inv
      (.init dtype owner) ?_
    rintro s c s' hI hs ⟨hc, hn⟩
    exact hI.step hs hc (by omega)
  refine ⟨fun i hi => ⟨by omega, hR.count ▸ hR.marked.le i⟩, hR.marked.inj,
    hR.last.trans hR.count.symm, hR.index, fun i hi => ?_, fun x hx => ?_, hR.nodup, fun i hi => ?_⟩
  · obtain ⟨x, hx, hxi⟩ := hR.neg i hi
    refine ⟨x, ⟨hx, hxi⟩, ?_⟩
    rintro y ⟨hy, hyi⟩
    exact hR.index_inj hy hx (hyi.trans hxi.symm)
  · obtain ⟨hpos, -, hw⟩ := hR.pin x hx
    exact ⟨hpos, hw, hR.view x hx⟩
  · exact hR.data i _ (by omega) (by omega)

/-- Two entries, the second of them pinned; a handle dropped uncommitted, and a
    successor attached. -/
theorem represents_pinned : ∃ s : Session (.tiny 1) Unit,
    s.readHandles = [⟨Geometry.slot _ 1, 2⟩] ∧ s.writer.lastEntrySeq = 2 ∧
    (∀ i, s.mem.seg.words i < 0 → ∃! x, x ∈ s.readHandles ∧ x.index = i) := by
  have hrun : (steps Session.step orderly (init (.tiny 1) Unit .u8 7)
      [.write (List.replicate 8 1), .write (List.replicate 8 2), .tryAcquire () (some 1),
        .acquire, .fill ⟨Geometry.slot _ 0⟩ ⟨0, by decide⟩ 5, .abandon ⟨Geometry.slot _ 0⟩,
        .reattach]).map (fun s => (s.readHandles, s.writer.lastEntrySeq, s.mem.log.length)) =
      some ([⟨Geometry.slot _ 1, 2⟩], 2, 2) := by decide +kernel
  obtain ⟨s, hs, he⟩ := reach_eval hrun
  simp only [Prod.mk.injEq] at he
  obtain ⟨h₁, h₂, h₃⟩ := he
  exact ⟨s, h₁, h₂, (represents hs (by rw [h₃]; norm_num)).2.2.2.2.1⟩

end

end Session

end ZeroChannel
