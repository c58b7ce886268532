/-
  The watermark promises nothing that the ring does not hold.

  Beside one-copy readers only the writer changes the memory, so at every moment it
  has run some part of a write alone.  `WriteAt` lists the memories in which that
  can be, and in each of them the header counts the publishes, or all but the last,
  and the newest entry it counts, or a newer one, is in the ring (`watermark_kept`).
-/
import ZeroChannel.Proof.Seqlock
import ZeroChannel.Proof.WriteAlone
import ZeroChannel.Proof.Ring

namespace ZeroChannel

open Concur

variable {G : Geometry}

/-! ## Between two writes -/

/-- The ring holds the newest entries, as many as it has slots, and the cursor is at
    the slot of the next one. -/
structure AtRest (w : RawWriter G) (h : Hist G) : Prop where
  window : Window h.seg.words (max 1 (h.log.length + 1 - G.entryCount)) h.log.length
  writer : w = ⟨G.slot h.log.length, h.log.length⟩
  last : h.seg.hdr .lastEntrySeq = h.log.length

namespace AtRest
variable {w : RawWriter G} {h : Hist G} (hI : AtRest w h)
include hI

theorem claims : free? h.seg.words w.currentIndex.val G.entryCount = some (G.slot h.log.length) := by
  rw [hI.writer]
  exact free?_cursor (hI.window.range _).1

theorem seq (hn : h.log.length + 1 < 2 ^ 63) :
    u64 (w.lastEntrySeq + 1) = h.log.length + 1 := by
  have hcount : w.lastEntrySeq = h.log.length := by rw [hI.writer]
  rw [hcount, u64_of_lt (by omega)]

/-- The words after the store of the slot word. -/
theorem words (hn : h.log.length + 1 < 2 ^ 63) {data : List UInt8} {h' : Hist G}
    (hp : PastStore w data h h' (G.slot h.log.length)) :
    Window h'.seg.words (max 1 (h'.log.length + 1 - G.entryCount)) h'.log.length := by
  have hpos := G.count_pos
  have hlen : h'.log.length = h.log.length + 1 := by simp [hp.log]
  rw [hlen]
  refine hI.window.write (by omega) (by omega) fun j => ?_
  rw [hp.words, hI.seq hn, asI64_of_lt hn]

/-- One write. -/
theorem write {data : List UInt8} {res : Except ZeroChannelError Unit} {w' : RawWriter G}
    {h' : Hist G} (hr : (w.write data).run (Hist.writerExec data) h = ((res, w'), h'))
    (hn : h'.log.length < 2 ^ 63) : AtRest w' h' := by
  by_cases hlen : data.length = G.payloadBytes
  · rw [write_run data w h hlen, hI.claims] at hr
    cases hr
    have hn' : h.log.length + 1 < 2 ^ 63 := by simpa using hn
    refine ⟨hI.words hn' (pastStore_published w data h _), ?_, ?_⟩
    · have hcur : G.slot ((G.slot h.log.length).val + 1) = G.slot (h.log.length + 1) := by simp
      rw [RawWriter.next, hI.seq hn', hcur]
      simp
    · simp [hI.seq hn']
  · rw [write_len data w hlen] at hr
    cases hr
    exact hI

end AtRest

/-! ## During a write -/

/-- The writer has cleared the slot of the next entry and not stored its word yet. -/
def Building (o : Option (SegOp G)) : Prop :=
  (∃ i j b, o = some (.storeByte i j b)) ∨ ∃ i v, o = some (.storeSeq i v)

/-- What the header promises, the writer being about to perform `o`. -/
structure Promised (o : Option (SegOp G)) (h : Hist G) : Prop where
  last : h.seg.hdr .lastEntrySeq = h.log.length ∨ h.seg.hdr .lastEntrySeq + 1 = h.log.length
  kept : 0 < h.seg.hdr .lastEntrySeq → G.entryCount = 1 ∧ Building o ∨
    ∃ i, (h.seg.hdr .lastEntrySeq : ℤ) ≤ h.seg.words i

section
variable {w : RawWriter G} {data : List UInt8} {h h' : Hist G} {o : Option (SegOp G)}

/-- The newest entry is in the ring. -/
theorem AtRest.promised (hI : AtRest w h) (o : Option (SegOp G)) : Promised o h := by
  have hpos := G.count_pos
  refine ⟨Or.inl hI.last, fun h0 => Or.inr ⟨G.slot (h.log.length - 1), ?_⟩⟩
  rw [hI.last] at h0 ⊢
  rw [hI.window.present h.log.length (by omega) le_rfl]

/-- The entry just stored is in the ring. -/
theorem AtRest.promised_stored (hI : AtRest w h) (hn : h.log.length + 1 < 2 ^ 63)
    (hp : PastStore w data h h' (G.slot h.log.length))
    (hlast : h'.seg.hdr .lastEntrySeq = h.log.length ∨
      h'.seg.hdr .lastEntrySeq = h.log.length + 1) : Promised o h' := by
  have hlen : h'.log.length = h.log.length + 1 := by simp [hp.log]
  refine ⟨by omega, fun _ => Or.inr ⟨G.slot h.log.length, ?_⟩⟩
  rw [hp.words, if_pos rfl, hI.seq hn, asI64_of_lt hn]
  omega

/-- **The promise at each point of a write.** -/
theorem AtRest.during (hI : AtRest w h) (hc : WriteAt w data h o h')
    (hn : h'.log.length < 2 ^ 63 - 1) : Promised o h' := by
  have hle := hc.log_le
  have hlast := hI.last
  cases hc with
  | claiming => exact hI.promised _
  | @copying i b o hf ho =>
    refine ⟨Or.inl hlast, fun h0 => ?_⟩
    by_cases hN : G.entryCount = 1
    · refine Or.inl ⟨hN, ?_⟩
      rcases ho with ⟨j, v, rfl⟩ | ⟨v, rfl⟩
      · exact Or.inl ⟨i, j, v, rfl⟩
      · exact Or.inr ⟨i, v, rfl⟩
    · -- the slot cleared is not that of the newest entry
      have hpos := G.count_pos
      have hlen : 0 < h.log.length := hlast ▸ h0
      rw [hI.claims, Option.some.injEq] at hf
      refine Or.inr ⟨G.slot (h.log.length - 1), ?_⟩
      have hne : G.slot (h.log.length - 1) ≠ i := by
        rw [← hf]
        exact slot_ne (by omega) (by omega)
      rw [Hist.claimed_words, if_neg hne, Hist.claimed_hdr, hlast,
        hI.window.present h.log.length (by omega) le_rfl]
  | stored hf =>
    rw [hI.claims, Option.some.injEq] at hf
    subst hf
    exact hI.promised_stored (by omega) (pastStore_stored w data h _) (Or.inl hlast)
  | indexed hf =>
    rw [hI.claims, Option.some.injEq] at hf
    subst hf
    exact hI.promised_stored (by omega) (pastStore_indexed w data h _) (Or.inl hlast)
  | done hf =>
    rw [hI.claims, Option.some.injEq] at hf
    subst hf
    exact hI.promised_stored (by omega) (pastStore_published w data h _)
      (Or.inr (by simp [hI.seq (show h.log.length + 1 < 2 ^ 63 by omega)]))

/-- The watermark is the old one until the call returns. -/
theorem AtRest.last_until (hI : AtRest w h) (hc : WriteAt w data h o h') (ho : o ≠ none) :
    h'.seg.hdr .lastEntrySeq = h.log.length := by
  cases hc with
  | claiming => exact hI.last
  | copying => exact hI.last
  | stored => exact hI.last
  | indexed => exact hI.last
  | done => exact absurd rfl ho

theorem AtRest.last_le (hI : AtRest w h) (hc : WriteAt w data h o h')
    (hn : h'.log.length < 2 ^ 63 - 1) : h.log.length ≤ h'.seg.hdr .lastEntrySeq := by
  have hlast := hI.last
  have hle := hc.log_le
  cases hc with
  | claiming => exact hlast.ge
  | copying => exact hlast.ge
  | stored => exact hlast.ge
  | indexed => exact hlast.ge
  | done =>
    rw [Hist.published_lastEntrySeq, hI.seq (by simp at hn; omega)]
    omega

end

/-! ## Runs -/

section
variable {ι : Type} [DecidableEq ι]

/-- Beside one-copy readers, the writer has run some part of a write alone. -/
theorem writes_alone {dtype : Dtype} {owner : ℕ} {s : (channel G ι none).Conf}
    (h : Reach Pool.step (fun _ _ s' => s'.mem.log.length < 2 ^ 63 - 1)
      (channelInit G ι none dtype owner) s) :
    (seqOutline G ι).Holds s ∧ Pool.SoleAt (.writer : Party ι) AtRest s := by
  refine h.inv (I := fun s => (seqOutline G ι).Holds s ∧
    Pool.SoleAt (.writer : Party ι) AtRest s) ⟨seqOutline_init dtype owner, ?_⟩ ?_
  · refine ⟨⟨G.slot 0, 0⟩, _, ⟨.empty G (by simp), rfl, rfl⟩, Or.inl ⟨rfl, rfl⟩⟩
  · rintro s a s' ⟨hL, hW⟩ hs hp
    refine ⟨(seqOutline G ι).step hL hs hp, hW.step hs (fun u o ha hu ho => ?_) ?_⟩
    · subst ha
      cases u with
      | writer => exact absurd rfl hu
      | reader r => exact (seqOutline G ι).guar hL hs hp ho
    · rintro w m data p res w' hI he hr
      cases he
      exact hI.write hr (lt_trans hp (by norm_num))

/-- **The promise at every moment of a run.** -/
theorem promised_reach {dtype : Dtype} {owner : ℕ} {s : (channel G ι none).Conf}
    (h : Reach Pool.step (fun _ _ s' => s'.mem.log.length < 2 ^ 63 - 1)
      (channelInit G ι none dtype owner) s) (hn : s.mem.log.length < 2 ^ 63 - 1) :
    Promised (s.ctl .writer).next? s.mem := by
  obtain ⟨-, w, m, hI, hat⟩ := writes_alone h
  rcases hat with ⟨hc, rfl⟩ | ⟨data, p, q, he, hc, hsolo⟩
  · exact hI.promised _
  · cases he
    rw [hc]
    exact hI.during (write_solo data hsolo) hn

/-- A step does not lower the watermark. -/
theorem last_step {dtype : Dtype} {owner : ℕ} {s s' : (channel G ι none).Conf}
    {a : (channel G ι none).Act}
    (h : Reach Pool.step (fun _ _ s' => s'.mem.log.length < 2 ^ 63 - 1)
      (channelInit G ι none dtype owner) s) (hs : Pool.step s a = some s')
    (hn : s'.mem.log.length < 2 ^ 63 - 1) :
    s.mem.seg.hdr .lastEntrySeq ≤ s'.mem.seg.hdr .lastEntrySeq := by
  obtain ⟨hL, w, m, hI, hat⟩ := writes_alone h
  rcases Pool.step_cases hs with ⟨_, _, _, _, -, -, -, rfl⟩ | ⟨_, _, _, _, -, -, rfl⟩ |
    ⟨t, c, o, k, rfl, hl, hs'⟩
  · exact le_rfl
  · exact le_rfl
  · cases t with
    | reader r =>
      have hm : s'.mem = s.mem := (seqOutline G ι).guar hL hs hn (by rw [hl]; rfl)
      rw [hm]
    | writer =>
      rcases hat with ⟨hc, -⟩ | ⟨data, p, q, he, hc, hsolo⟩
      · rw [hl] at hc
        cases hc
      · cases he
        rw [hl] at hc
        cases hc
        subst hs'
        rw [hI.last_until (write_solo _ hsolo) (Option.some_ne_none o)]
        exact hI.last_le (write_solo _ hsolo.snoc) hn

/-- **The watermark is kept.**  At every moment of every run of fewer than `2 ^ 63 - 1`
    publishes, operation by operation: the header counts the publishes, or all but the
    last; its count never decreases; and the newest entry it counts, or a newer one, is
    in the ring, unless the ring has one slot and that is being written.  With two slots
    or more, whenever a gate passes an entry newer than the watermark is in the ring. -/
theorem watermark_kept {dtype : Dtype} {owner : ℕ} {s s' : (channel G ι none).Conf}
    (h : Reach Pool.step (fun _ _ _ => True) (channelInit G ι none dtype owner) s)
    (h' : Reach Pool.step (fun _ _ _ => True) s s') (hlog : s'.mem.log.length < 2 ^ 63 - 1) :
    (s'.mem.seg.hdr .lastEntrySeq = s'.mem.log.length ∨
      s'.mem.seg.hdr .lastEntrySeq + 1 = s'.mem.log.length) ∧
    s.mem.seg.hdr .lastEntrySeq ≤ s'.mem.seg.hdr .lastEntrySeq ∧
    (0 < s'.mem.seg.hdr .lastEntrySeq → G.entryCount = 1 ∧ Building (s'.ctl .writer).next? ∨
      ∃ i, (s'.mem.seg.hdr .lastEntrySeq : ℤ) ≤ s'.mem.seg.words i) ∧
    (2 ≤ G.entryCount → ∀ w, w < s'.mem.seg.hdr .lastEntrySeq →
      ∃ i, (w : ℤ) < s'.mem.seg.words i) := by
  have hgrow : ∀ (s : (channel G ι none).Conf) a s', Pool.step s a = some s' →
      s.mem.log.length ≤ s'.mem.log.length := fun _ _ _ hs => (log_grows hs).length_le
  have hb' := (h'.bounded (fun s => s.mem.log.length) hgrow hlog).mono fun _ _ _ h => h.2
  have hlog₀ : s.mem.log.length < 2 ^ 63 - 1 :=
    (h'.inv (I := fun t => s.mem.log.length ≤ t.mem.log.length) le_rfl
      fun _ _ _ hI hs _ => hI.trans (hgrow _ _ _ hs)).trans_lt hlog
  have hb := (h.bounded (fun s => s.mem.log.length) hgrow hlog₀).mono fun _ _ _ h => h.2
  have hP := promised_reach (hb.trans hb') hlog
  refine ⟨hP.last, ?_, hP.kept, fun hN w hw => ?_⟩
  · -- step by step along the second part of the run
    refine (hb'.inv (I := fun t => Reach Pool.step _ _ t ∧
      s.mem.seg.hdr .lastEntrySeq ≤ t.mem.seg.hdr .lastEntrySeq) ⟨hb, le_rfl⟩ ?_).2
    rintro t a t' ⟨ht, hle⟩ hs hn
    exact ⟨ht.tail hs hn, hle.trans (last_step ht hs hn)⟩
  · rcases hP.kept (by omega) with ⟨hN', -⟩ | ⟨i, hi⟩
    · omega
    · exact ⟨i, by omega⟩

/-- In the middle of the second write to a ring of two, with entry 1 advertised: it is in
    the ring. -/
theorem watermark_kept_building : ∃ s : (channel (.tiny 1) Unit none).Conf,
    s.mem.seg.hdr .lastEntrySeq = 1 ∧
    (s.ctl .writer).next? = some (.storeByte (Geometry.slot _ 1) ⟨3, by decide⟩ 2) ∧
    ∃ i, 0 < s.mem.seg.words i := by
  have hrun : (steps Pool.step (fun _ _ => true) (channelInit (.tiny 1) Unit none .u8 7)
      (List.flatten [Pool.burst .writer (List.replicate 8 1) 14,
        Pool.burst .writer (List.replicate 8 2) 5])).map (fun s =>
          (s.mem.log.length, s.mem.seg.hdr .lastEntrySeq,
            ((s.ctl .writer).next? : Option (SegOp (.tiny 1))))) =
      some (1, 1, some (.storeByte (Geometry.slot _ 1) ⟨3, by decide⟩ 2)) := by
    decide +kernel
  obtain ⟨s, hs, he⟩ := reach_eval hrun
  simp only [Prod.mk.injEq] at he
  obtain ⟨hlen, hlast, hnext⟩ := he
  have hkept := watermark_kept (hs.mono fun _ _ _ _ => trivial) .refl (by rw [hlen]; norm_num)
  obtain ⟨i, hi⟩ := hkept.2.2.2 le_rfl 0 (by rw [hlast]; norm_num)
  exact ⟨s, hlast, hnext, i, hi⟩

/-- Any number of writes can be made, one after the other. -/
theorem writes_reach (dtype : Dtype) (owner : ℕ) : ∀ n, n < 2 ^ 63 →
    ∃ s w, Reach Pool.step (fun _ _ _ => True) (channelInit G ι none dtype owner) s ∧
      s.ctl .writer = .idle w ∧ AtRest w s.mem ∧ s.mem.log.length = n := by
  intro n
  induction n with
  | zero =>
    intro _
    exact ⟨_, _, .refl, rfl, ⟨.empty G (by simp), rfl, rfl⟩, rfl⟩
  | succ n ih =>
    intro hn
    obtain ⟨s, w, hs, hc, hI, hlen⟩ := ih (by omega)
    have hdata : (List.replicate G.payloadBytes (0 : UInt8)).length = G.payloadBytes :=
      List.length_replicate
    have hr := write_run _ w s.mem hdata
    rw [hI.claims] at hr
    obtain ⟨s', hs', hm, hc'⟩ := Pool.reach_call hc rfl hr
    have hlen' : s'.mem.log.length = n + 1 := by
      rw [hm]
      simp [hlen]
    refine ⟨s', _, hs.trans hs', hc', ?_, hlen'⟩
    rw [hm] at hlen' ⊢
    exact hI.write hr (hlen'.trans_lt hn)

end

/-- **The watermark outgrows the ring**: the number of publish `2 ^ 63` is advertised, but a
    slot word cannot hold it. -/
theorem watermark_wrapped : ∃ s : (channel (.tiny 1) Unit none).Conf,
    Reach Pool.step (fun _ _ _ => True) (channelInit (.tiny 1) Unit none .u8 7) s ∧
    s.mem.seg.hdr .lastEntrySeq = 2 ^ 63 ∧ ∀ i, s.mem.seg.words i < 2 ^ 63 := by
  obtain ⟨s, w, hs, hc, hI, hlen⟩ := writes_reach (G := .tiny 1) (ι := Unit) .u8 7 (2 ^ 63 - 1)
    (by norm_num)
  have hdata : (List.replicate 8 (0 : UInt8)).length = (Geometry.tiny 1).payloadBytes := rfl
  have hr := write_run _ w s.mem hdata
  rw [hI.claims] at hr
  obtain ⟨s', hs', hm, -⟩ := Pool.reach_call hc rfl hr
  have hcount : w.lastEntrySeq = 2 ^ 63 - 1 := by rw [hI.writer, hlen]
  refine ⟨s', hs.trans hs', ?_, fun i => ?_⟩
  · rw [hm, Hist.published_lastEntrySeq, hcount]
    rfl
  · rw [hm, (pastStore_published w _ s.mem _).words]
    split_ifs
    · exact asI64_u64_lt _
    · exact hI.window.lt (by omega) i

end ZeroChannel
