/-
  How far a call gets under interference.

  A one-copy read that finds nothing although the gate was open has been overtaken: an
  attempt fails only when the slot it located is claimed behind its back, and the next
  attempt locates a newer entry, while the entry that was the newest at the call stays
  in its slot for a lap (`read_progress`; of a ring of one slot this says nothing, as a writer
  in the middle of a write has taken the only slot).  A write finds every slot held only if each
  of them is held at some moment of the call (`write_unheld`).
-/
import ZeroChannel.Proof.Watermark
import ZeroChannel.Proof.Minimal
import ZeroChannel.Concur.Bound

namespace ZeroChannel

open Concur

variable {G : Geometry}

/-! ## The ring at every moment -/

/-- The ring holds the newest entries, all of its slots but perhaps the next one being
    taken. -/
structure Ringed (h : Hist G) : Prop where
  lt : h.log.length < 2 ^ 63
  window : ∃ lo, Window h.seg.words lo h.log.length ∧ lo ≤ max 1 (h.log.length + 2 - G.entryCount)

section
variable {w : RawWriter G} {data : List UInt8} {h h' : Hist G} {o : Option (SegOp G)}

theorem AtRest.ringed (hI : AtRest w h) (hn : h.log.length < 2 ^ 63) : Ringed h :=
  ⟨hn, _, hI.window, by omega⟩

theorem AtRest.ringed_stored (hI : AtRest w h) (hn : h'.log.length < 2 ^ 63)
    (hp : PastStore w data h h' (G.slot h.log.length)) : Ringed h' := by
  have hlen : h'.log.length = h.log.length + 1 := by simp [hp.log]
  exact ⟨hn, _, hI.words (hlen ▸ hn) hp, by omega⟩

/-- The ring at each point of a write. -/
theorem AtRest.ringed_during (hI : AtRest w h) (hc : WriteAt w data h o h')
    (hn : h'.log.length < 2 ^ 63) : Ringed h' := by
  have hpos := G.count_pos
  cases hc with
  | claiming => exact hI.ringed hn
  | @copying i b o hf ho =>
    rw [hI.claims, Option.some.injEq] at hf
    subst hf
    exact ⟨hn, _, hI.window.clear rfl (Hist.claimed_words h _ b),
      by simp only [Hist.claimed_log]; omega⟩
  | stored hf =>
    rw [hI.claims, Option.some.injEq] at hf
    subst hf
    exact hI.ringed_stored hn (pastStore_stored w data h _)
  | indexed hf =>
    rw [hI.claims, Option.some.injEq] at hf
    subst hf
    exact hI.ringed_stored hn (pastStore_indexed w data h _)
  | done hf =>
    rw [hI.claims, Option.some.injEq] at hf
    subst hf
    exact hI.ringed_stored hn (pastStore_published w data h _)

end

section
variable {ι : Type} [DecidableEq ι]

theorem ringed_reach {dtype : Dtype} {owner : ℕ} {s : (channel G ι none).Conf}
    (h : Reach Pool.step (fun _ _ s' => s'.mem.log.length < 2 ^ 63 - 1)
      (channelInit G ι none dtype owner) s) : Ringed s.mem := by
  obtain ⟨hL, w, m, hI, hat⟩ := writes_alone h
  rcases hat with ⟨-, hm⟩ | ⟨data, p, q, he, -, hsolo⟩
  · rw [hm]
    exact hI.ringed (hm ▸ hL.1.bound)
  · cases he
    exact hI.ringed_during (write_solo data hsolo) hL.1.bound

/-- What a step of another party does to the memory. -/
theorem forward_step {dtype : Dtype} {owner : ℕ} {s s' : (channel G ι none).Conf} {u : Party ι}
    (h : Reach Pool.step (fun _ _ s' => s'.mem.log.length < 2 ^ 63 - 1)
      (channelInit G ι none dtype owner) s) (hs : Pool.step s (.move u) = some s')
    (hn : s'.mem.log.length < 2 ^ 63 - 1) : Forward s.mem s'.mem := by
  obtain ⟨hL, -⟩ := writes_alone h
  rcases Pool.step_cases hs with ⟨_, _, _, _, ha, -⟩ | ⟨_, _, _, _, ha, -, rfl⟩ |
    ⟨t, c, o, k, ha, hl, -⟩
  · cases ha
  · exact Forward.refl hL.1
  · cases ha
    have hg := (seqOutline G ι).guar hL hs hn (by rw [hl]; rfl)
    cases u with
    | writer => exact hg
    | reader r =>
      have hm : s'.mem = s.mem := hg
      rw [hm]
      exact Forward.refl hL.1

end

/-! ## Attempts that fail -/

/-- `t` attempts have failed since the log had the length `n₀`: the entries `t` behind are
    gone. -/
structure Behind (n₀ t : ℕ) (h : Hist G) : Prop where
  late : n₀ + t ≤ h.log.length + 1
  gone : ∀ n, 0 < n → n + G.entryCount < n₀ + 1 + t → n ≤ h.log.length ∧ ∀ i, h.seg.words i ≠ n

/-- Entry `n` was located in slot `i` after `t` failed attempts. -/
structure LocatedAt (n₀ t : ℕ) (i : Slot G) (n : ℕ) (h : Hist G) : Prop where
  pos : 0 < n
  le : n ≤ h.log.length
  near : n₀ + 1 + t ≤ n + G.entryCount
  slot : i = G.slot (n - 1)

section
variable {n₀ t n : ℕ} {i : Slot G} {h h' : Hist G}

theorem Behind.forward (hb : Behind n₀ t h) (hf : Forward h h') : Behind n₀ t h' := by
  have hlen := hf.log.length_le
  refine ⟨hb.late.trans (by omega), fun n hn hlt => ?_⟩
  obtain ⟨hle, hw⟩ := hb.gone n hn hlt
  exact ⟨hle.trans hlen, fun i => hf.gone i n hn hle (hw i)⟩

theorem LocatedAt.forward (hl : LocatedAt n₀ t i n h) (hf : Forward h h') :
    LocatedAt n₀ t i n h' := ⟨hl.pos, hl.le.trans hf.log.length_le, hl.near, hl.slot⟩

/-- Nothing has failed at the call. -/
theorem Ringed.behind (hr : Ringed h) : Behind h.log.length 0 h := by
  obtain ⟨lo, hw, -⟩ := hr.window
  have hwidth := hw.width
  refine ⟨by omega, fun n hn hlt => ⟨by omega, fun i hi => ?_⟩⟩
  have := (hw.slot_of hn hi).1
  omega

/-- What a scan can locate. -/
theorem Ringed.locatedAt (hr : Ringed h) (hb : Behind n₀ t h) (hi : 0 < h.seg.words i) :
    LocatedAt n₀ t i (h.seg.words i).toNat h := by
  obtain ⟨lo, hw, -⟩ := hr.window
  have hn : h.seg.words i = ((h.seg.words i).toNat : ℤ) := by omega
  obtain ⟨-, hle, hslot⟩ := hw.slot_of (by omega) hn
  refine ⟨by omega, hle, ?_, hslot⟩
  by_contra hlt
  exact (hb.gone _ (by omega) (by omega)).2 i hn

/-- **A failed attempt**: the slot has been claimed, and the writer is a lap ahead. -/
theorem LocatedAt.failed (hl : LocatedAt n₀ t i n h) (hr : Ringed h) (hi : h.seg.words i ≠ n) :
    Behind n₀ (t + 1) h := by
  obtain ⟨lo, hw, hlo⟩ := hr.window
  have hpos := hl.pos
  have hle := hl.le
  have hnear := hl.near
  have hgone : n < lo := by
    by_contra hlt
    exact hi (hl.slot ▸ hw.present n (not_lt.1 hlt) hle)
  refine ⟨by omega, fun k hk hlt => ⟨by omega, fun j hj => ?_⟩⟩
  have := (hw.slot_of hk hj).1
  omega

end

/-! ## One-copy reads -/

/-- The memory during a read with watermark `w` that was called when `n₀` entries had been
    published, and that is overtaken by fewer entries than it has attempts and the ring has
    slots. -/
structure Undisturbed (w n₀ : ℕ) (h : Hist G) : Prop where
  ringed : Ringed h
  gate : w < h.seg.hdr .lastEntrySeq
  since : n₀ ≤ h.log.length
  few : h.log.length + 1 < n₀ + min READ_RETRIES G.entryCount

section
variable {w n₀ : ℕ}

/-- The newest entry at the call stays in its slot. -/
theorem Undisturbed.stays {h : Hist G} (hu : Undisturbed w n₀ h) (h₀ : 0 < n₀) :
    h.seg.words (G.slot (n₀ - 1)) = n₀ := by
  obtain ⟨lo, hw, hlo⟩ := hu.ringed.window
  have := hu.since
  have := hu.few
  exact hw.present n₀ (by omega) (by omega)

/-- The contract of the reader. -/
abbrev overtaken (w n₀ : ℕ) : Contract (segSig G) (Hist G) := within Forward (Undisturbed w n₀)

variable (w n₀) in
theorem overtaken_loads : Loads Hist.seg (Hist.readerExec (G := G)) (overtaken w n₀) :=
  within_loads readerExec_reads _ _

variable (hw : w < n₀)
include hw

/-- Something is located. -/
theorem locate_progress (r : RawReader G) {t : ℕ} {h : Hist G} (hu : Undisturbed w n₀ h)
    (hb : Behind n₀ t h) :
    Valid Hist.readerExec (overtaken w n₀)
      (fun a h => (Undisturbed w n₀ h ∧ Behind n₀ t h) ∧ ∃ i n, a = some (i, n) ∧ w < n ∧
        LocatedAt n₀ t i n h) (r.locate w) h := by
  have hfound : Valid Hist.readerExec (overtaken w n₀)
      (fun a _ => ∃ i n, a = some (i, n) ∧ n ≤ n₀) (r.locate w) h := by
    refine (locate_met (k := G.slot (n₀ - 1)) readerExec_reads hw r h).weaken ?_
      (fun s hs => hs.stays (by omega)) fun _ _ _ _ => trivial
    rintro o s s' ⟨-, hs'⟩
    exact ⟨trivial, hs'.stays (by omega)⟩
  have hspec := valid_locate (w := w) (J := fun h => Undisturbed w n₀ h ∧ Behind n₀ t h)
    (K := LocatedAt n₀ t) (overtaken_loads w n₀)
    (fun o s s' hs hJ => ⟨hs.2, hJ.2.forward hs.1⟩) (fun o s s' i n hs hK => hK.forward hs.1)
    (fun s i hJ => (hJ.1.ringed.window.choose_spec.1).lt hJ.1.ringed.lt i)
    (fun s i hJ hi _ => hJ.1.ringed.locatedAt hJ.2 hi) r ⟨hu, hb⟩
  refine (hspec.and hfound).mono ?_
  rintro a s ⟨⟨hJ, ha⟩, i, n, rfl, -⟩
  obtain ⟨hwn, hl⟩ := ha i n rfl
  exact ⟨hJ, i, n, rfl, hwn, hl⟩

/-- **The attempts do not run out.** -/
theorem readAttempts_progress (r : RawReader G) : ∀ (k t : ℕ) (dst : List UInt8) (h : Hist G),
    t + k = READ_RETRIES → Undisturbed w n₀ h → Behind n₀ t h →
    Valid Hist.readerExec (overtaken w n₀) (fun a _ => a.1 ≠ none) (r.readAttempts w dst k) h := by
  intro k
  induction k with
  | zero =>
    intro t dst h ht hu hb
    have := hu.few
    have := hb.late
    omega
  | succ k ih =>
    intro t dst h ht hu hb
    refine ((locate_progress hw r hu hb).mono ?_).bind
    rintro a h₁ ⟨hJ₁, i, n, rfl, hwn, hl₁⟩
    dsimp only
    refine ((valid_copyOut (J := fun h => Undisturbed w n₀ h ∧ Behind n₀ t h)
      (K := LocatedAt n₀ t) (C := fun _ _ _ _ _ => True) (overtaken_loads w n₀)
      (fun o s s' hs hJ => ⟨hs.2, hJ.2.forward hs.1⟩) (fun o s s' i n hs hK => hK.forward hs.1)
      (fun _ _ _ _ _ _ _ _ _ => trivial) (fun _ _ _ _ _ _ => trivial) hJ₁ hl₁).mono
      fun dst' h₂ ⟨_, hl₂, _, _⟩ => ?_).bind
    refine (valid_loadSeq (overtaken_loads w n₀) fun h₃ hr _ => ?_).bind
    have hl₃ := hl₂.forward hr.1
    have hn : asI64 n = n := asI64_of_lt (hl₃.le.trans_lt hr.2.ringed.lt)
    rw [hn]
    split_ifs with hraw
    · -- the writer has claimed the slot meanwhile
      exact ih (t + 1) dst' h₃ (by omega) hr.2 (hl₃.failed hr.2.ringed hraw)
    · exact Option.some_ne_none n

theorem readInto_progress {r : RawReader G} {f : Option ℕ} (hf : f.getD r.lastEntrySeq = w)
    (dst : List UInt8) {h : Hist G} (hlen : dst.length = G.payloadBytes)
    (hu : Undisturbed w n₀ h) (hn : h.log.length = n₀) :
    Valid Hist.readerExec (overtaken w n₀) (fun a _ => a.1 ≠ .ok none) (r.readInto dst f) h := by
  unfold RawReader.readInto
  rw [if_neg (not_not.2 hlen)]
  have hgate : Valid Hist.readerExec (overtaken w n₀)
      (fun a h => a = some w ∧ Undisturbed w n₀ h ∧ Behind n₀ 0 h) (r.watermark f) h := by
    refine (valid_loadHdr (overtaken_loads w n₀) fun h₁ hr _ => ?_).bind
    rw [hf, if_neg (not_le.2 hr.2.gate)]
    exact ⟨rfl, hr.2, (hn ▸ hu.ringed.behind).forward hr.1⟩
  refine (hgate.mono ?_).bind
  rintro a h₁ ⟨rfl, hu₁, hb₁⟩
  refine ((readAttempts_progress hw r READ_RETRIES 0 dst h₁ (Nat.zero_add _) hu₁ hb₁).mono
    fun a h₂ ha => ?_).bind
  exact fun he => ha (Except.ok.inj he)

end

section
variable {ι : Type} [DecidableEq ι]

/-- The first `n` publishes of a run fit into the words. -/
abbrev Few (s : (channel G ι none).Conf) (dtype : Dtype) (owner : ℕ) : Prop :=
  Reach Pool.step (fun _ _ s' => s'.mem.log.length < 2 ^ 63 - 1) (channelInit G ι none dtype owner) s

/-- **Reads make progress.**  In every run of one writer and any number of one-copy readers,
    operation by operation: a read into a buffer of the right size that is called when
    something newer than its watermark is advertised, and that nevertheless answers
    `None`, has been overtaken by at least `min 4 N - 1` publishes during the call (none, if
    there is one slot only). -/
theorem read_progress {dtype : Dtype} {owner : ℕ} {s s' : (channel G ι none).Conf}
    (h : Reach Pool.step (fun _ _ _ => True) (channelInit G ι none dtype owner) s) {r : ι}
    {l : ReaderLoc G} {dst dst' : List UInt8} {f : Option ℕ}
    (hc : Pool.Spans (fun _ => True) s s' (.reader r) l (ReaderCall.readInto dst f)
      (ReaderOut.readInto (.ok none) dst'))
    (hlen : dst.length = G.payloadBytes)
    (hgate : f.getD l.raw.lastEntrySeq < s.mem.seg.hdr .lastEntrySeq)
    (hlog : s'.mem.log.length < 2 ^ 63 - 1) :
    s.mem.log.length + min READ_RETRIES G.entryCount ≤ s'.mem.log.length + 1 := by
  have hgrow : ∀ (s : (channel G ι none).Conf) a s', Pool.step s a = some s' →
      s.mem.log.length ≤ s'.mem.log.length := fun _ _ _ hs => (log_grows hs).length_le
  by_contra hfew
  have hspan := hc.bounded (fun h => h.log.length) hgrow (Nat.lt_succ_self _)
  have hsr : s.mem.log.length ≤ s'.mem.log.length := by
    obtain ⟨s₁, s₂, h₁, -, h₂, h₃⟩ := hc.run
    exact (hgrow _ _ _ h₁).trans ((h₂.inv (I := fun t => s₁.mem.log.length ≤ t.mem.log.length)
      le_rfl fun _ _ _ hI hs _ => hI.trans (hgrow _ _ _ hs)).trans (hgrow _ _ _ h₃))
  have hs₀ := ((h.bounded (fun s => s.mem.log.length) hgrow (hsr.trans_lt hlog)).mono
    fun _ _ _ h => h.2)
  -- what holds of the configurations of the call
  let I : (channel G ι none).Conf → Prop := fun t => Few t dtype owner ∧
    f.getD l.raw.lastEntrySeq < t.mem.seg.hdr .lastEntrySeq ∧ s.mem.log.length ≤ t.mem.log.length ∧
    t.mem.log.length < s'.mem.log.length + 1
  have hI : I s := ⟨hs₀, hgate, le_rfl, by omega⟩
  have hkeep : ∀ t a t', I t → Pool.step t a = some t' →
      (True ∧ t'.mem.log.length < s'.mem.log.length + 1) → I t' := by
    rintro t a t' ⟨ht, hg, hle, -⟩ hs ⟨-, hlt⟩
    exact ⟨ht.tail hs (by omega), hg.trans_le (last_step ht hs (by omega)),
      hle.trans (hgrow _ _ _ hs), hlt⟩
  have hund : ∀ t, I t → Undisturbed (f.getD l.raw.lastEntrySeq) s.mem.log.length t.mem := by
    rintro t ⟨ht, hg, hle, hlt⟩
    exact ⟨ringed_reach ht, hg, hle, by omega⟩
  have hw : f.getD l.raw.lastEntrySeq < s.mem.log.length := by
    have := (promised_reach hs₀ (hsr.trans_lt hlog)).last
    omega
  let J : Hist G → Prop := fun h => (True ∧ h.log.length < s'.mem.log.length + 1) ∧
    Undisturbed (f.getD l.raw.lastEntrySeq) s.mem.log.length h
  have hR : Pool.OthersIn I J (.reader r) Forward :=
    ⟨fun t hI => Forward.refl (writes_alone hI.1).1.1, fun _ _ _ => Forward.trans,
      fun t a t' hI hs hp => hkeep t a t' hI hs hp.1,
      fun t u t' hI hs hp _ => forward_step hI.1 hs (by have := hp.1.2; omega)⟩
  have hv : Valid Hist.readerExec (within Forward J) (fun a _ => a.1 ≠ .ok none)
      (l.raw.readInto dst f) s.mem :=
    (readInto_progress hw rfl dst hlen (hund s hI) rfl).weaken (fun _ _ _ hr => ⟨hr.1, hr.2.2⟩)
      (fun _ hJ => hJ.2) fun _ _ _ _ => trivial
  obtain ⟨l', -, hne⟩ := (hspan.with_inv hI hkeep hund).post_in hR hI
    (Q := fun a => ∀ dst', a.1 ≠ ReaderOut.readInto (.ok none) dst') fun p hp => by
      cases hp
      exact (hv.mono fun a h₁ ha dst' he => ha (ReaderOut.readInto.inj he).1).bind
  exact hne dst' rfl

/-- Two slots: the writer takes each of them just before the reader's scan comes to it. -/
theorem read_progress_chased : ∃ (s s' : (channel (.tiny 1) Unit none).Conf) (l : ReaderLoc (.tiny 1)),
    Pool.Spans (fun _ => True) s s' (.reader ()) l
      (ReaderCall.readInto (List.replicate 8 0) none)
      (ReaderOut.readInto (.ok none) (List.replicate 8 0)) ∧
    s.mem.log.length = 1 ∧ s'.mem.log.length = 3 ∧
    s.mem.log.length + min READ_RETRIES (Geometry.tiny 1).entryCount ≤ s'.mem.log.length + 1 := by
  have hrun : ((steps Pool.step (fun _ _ => true) (channelInit (.tiny 1) Unit none .u8 7)
      (Pool.burst .writer (List.replicate 8 1) 14)).bind fun s =>
      (Pool.step s (.call (.reader ()) (ReaderCall.readInto (List.replicate 8 0) none))).bind fun s₁ =>
      (steps Pool.step (fun _ _ => true) s₁
        (List.replicate 2 (.move (.reader ())) ++ Pool.burst .writer (List.replicate 8 2) 14 ++
          Pool.burst .writer (List.replicate 8 3) 2 ++ .move (.reader ()) ::
          List.replicate 12 (.move .writer) ++ Pool.burst .writer (List.replicate 8 4) 2 ++
          [.move (.reader ())])).bind
        fun s₂ => (Pool.step s₂ (.move (.reader ()))).map fun s' =>
          ((s.ctl (.reader ())).idle?.map fun l : ReaderLoc (.tiny 1) => l.raw.lastEntrySeq,
            ((s.hist (.reader ())).length, (s₂.hist (.reader ())).length),
            (s.mem.log.length, s.mem.seg.hdr .lastEntrySeq, s'.mem.log.length),
            decide (readsOf s' () = [(.readInto (List.replicate 8 0) none,
              .readInto (.ok none) (List.replicate 8 0))]))) =
      some (some 0, (0, 0), (1, 1, 3), true) := by decide +kernel
  obtain ⟨s, hs, hrun⟩ := Option.bind_eq_some_iff.1 hrun
  obtain ⟨s₁, h₁, hrun⟩ := Option.bind_eq_some_iff.1 hrun
  obtain ⟨s₂, h₂, hrun⟩ := Option.bind_eq_some_iff.1 hrun
  obtain ⟨s', h₃, he⟩ := Option.map_eq_some_iff.1 hrun
  simp only [Prod.mk.injEq] at he
  obtain ⟨hl, ⟨hh, hh₂⟩, ⟨hn, hlast, hn'⟩, hh'⟩ := he
  have hh' : readsOf s' () = _ := of_decide_eq_true hh'
  obtain ⟨l, hl, hmark⟩ := Option.map_eq_some_iff.1 hl
  have hnil : s.hist (.reader ()) = [] := List.length_eq_zero_iff.1 hh
  have hS : Pool.Spans (fun _ => True) s s' (.reader ()) l
      (ReaderCall.readInto (List.replicate 8 0) none)
      (ReaderOut.readInto (.ok none) (List.replicate 8 0)) := by
    refine .of_run (Pool.Ctl.idle?_eq.1 hl) h₁ trivial
      ((reach_of_steps .refl h₂).mono fun _ _ _ _ => trivial) (hh₂.trans hh.symm) h₃ ?_
    rw [hnil]
    exact hh'
  refine ⟨s, s', l, hS, hn, hn', read_progress ((reach_of_steps .refl hs).mono fun _ _ _ _ => trivial)
    hS rfl ?_ (by rw [hn']; norm_num)⟩
  rw [hlast, Option.getD_none, hmark]
  norm_num

end

/-! ## Writes -/

section
variable {i : Slot G}

/-- The contract of the writer while slot `i` is held by nobody. -/
abbrev whileFree (i : Slot G) : Contract (segSig G) (Hist G) :=
  within (fun _ _ => True) fun h => 0 ≤ h.seg.words i

/-- The scan ends at a slot that is never held, or before it. -/
theorem claimFrom_free (data : List UInt8) (w : RawWriter G) : ∀ (k n : ℕ) (h : Hist G),
    (∃ d < k, i = G.slot (w.currentIndex.val + (n + d))) →
    Valid (Hist.writerExec data) (whileFree i) (fun a _ => ∃ j, a = .ok j) (w.claimFrom n k) h := by
  intro k
  induction k with
  | zero =>
    rintro n h ⟨d, hd, -⟩
    omega
  | succ k ih =>
    rintro n h ⟨d, hd, hi⟩
    refine (writer_loadSeq fun h₁ hr _ => ⟨trivial, ?_⟩).bind
    split_ifs with hneg
    · refine ih (n + 1) h₁ ?_
      obtain _ | d := d
      · -- the slot itself is not held
        have := hr.2
        rw [hi, Nat.add_zero] at this
        omega
      · exact ⟨d, by omega, by rw [hi]; congr 1; omega⟩
    · exact (writer_clearSeq fun _ _ _ => ⟨trivial, _, rfl⟩).bind

theorem write_free (data : List UInt8) (w : RawWriter G) (h : Hist G)
    (hlen : data.length = G.payloadBytes) :
    Valid (Hist.writerExec data) (whileFree i) (fun a _ => a.1 = .ok ()) (w.write data) h := by
  unfold RawWriter.write
  rw [if_neg (not_not.2 hlen)]
  have hclaim : Valid (Hist.writerExec data) (whileFree i) (fun a _ => ∃ j, a = .ok j)
      w.claimSlot h := by
    obtain ⟨d, hd, hi⟩ := slot_ahead w.currentIndex i
    exact claimFrom_free data w _ 0 h ⟨d, hd, by rw [Nat.zero_add]; exact hi⟩
  refine (hclaim.mono ?_).bind
  rintro a h₁ ⟨j, rfl⟩
  have hrest : ∀ {α : Type} (p : SegProg G α) (h : Hist G),
      Valid (Hist.writerExec data) (whileFree i) (fun _ _ => True) p h := by
    intro α p
    induction p with
    | pure a => exact fun _ => trivial
    | op o k ih => exact fun _ _ _ _ => ⟨trivial, ih _ _⟩
  refine ((hrest _ h₁).mono fun _ h₂ _ => ?_).bind
  exact ((hrest _ h₂).mono fun _ _ _ => rfl).bind

end

section
variable {ι : Type} [DecidableEq ι] {zc : Option ι}

/-- **A write that finds a free slot.**  From whatever state, beside readers that acquire and
    release as they like: if one slot is at no moment of the call held, a write of the
    right size succeeds.  So it is `Busy` only if each slot was held at some moment. -/
theorem write_unheld {s s' : (channel G ι zc).Conf} {w : RawWriter G} {data : List UInt8}
    {o : Except ZeroChannelError Unit} {i : Slot G}
    (hc : Pool.Spans (fun h : Hist G => 0 ≤ h.seg.words i) s s' .writer w data o)
    (hlen : data.length = G.payloadBytes) : o = .ok () := by
  obtain ⟨w', -, ho⟩ := hc.post (R := fun _ _ => True)
    ⟨fun _ => trivial, fun _ _ _ _ _ => trivial, fun _ _ _ _ _ => trivial⟩
    (Q := fun a => a.1 = .ok ()) fun p h hp => by
      cases hp
      exact write_free data w h hlen
  exact ho

/-- The writes that are completed, with their answers. -/
def writesOf (s : (channel G ι zc).Conf) : List (List UInt8 × Except ZeroChannelError Unit) :=
  s.hist .writer

/-- Slot 0 is pinned, slot 1 is not: the third write goes to slot 1. -/
theorem write_unheld_pinned : ∃ (s s' : (channel (.tiny 1) Unit (some ())).Conf)
    (w : RawWriter (.tiny 1)), s.mem.seg.words (Geometry.slot _ 0) = -1 ∧
    Pool.Spans (fun h : Hist (.tiny 1) => 0 ≤ h.seg.words (Geometry.slot _ 1)) s s' .writer w
      (List.replicate 8 3 : List UInt8) (.ok () : Except ZeroChannelError Unit) ∧
    (.ok () : Except ZeroChannelError Unit) = .ok () := by
  have hrun : ((steps Pool.step (fun _ _ => true) (channelInit (.tiny 1) Unit (some ()) .u8 7)
      (List.flatten [Pool.burst .writer (List.replicate 8 1) 14,
        Pool.burst .writer (List.replicate 8 2) 14,
        Pool.burst (.reader ()) (.tryAcquire none) 6])).bind fun s =>
      (Pool.step s (.call .writer (List.replicate 8 3 : List UInt8))).bind fun s₁ =>
      (steps Pool.step (fun s _ => decide (0 ≤ s.mem.seg.words (Geometry.slot _ 1))) s₁
        (List.replicate 14 (.move .writer))).bind
        fun s₂ => (Pool.step s₂ (.move .writer)).map fun s' =>
          ((s.mem.seg.words (Geometry.slot _ 0), (s.ctl .writer).idle?.isSome),
            (s₁.mem.seg.words (Geometry.slot _ 1), s₂.mem.seg.words (Geometry.slot _ 1)),
            decide ((writesOf s₂).length = (writesOf s).length),
            decide (writesOf s' = writesOf s ++ [(List.replicate 8 3, .ok ())]))) =
      some ((-1, true), (2, 3), true, true) := by decide +kernel
  obtain ⟨s, -, hrun⟩ := Option.bind_eq_some_iff.1 hrun
  obtain ⟨s₁, h₁, hrun⟩ := Option.bind_eq_some_iff.1 hrun
  obtain ⟨s₂, h₂, hrun⟩ := Option.bind_eq_some_iff.1 hrun
  obtain ⟨s', h₃, he⟩ := Option.map_eq_some_iff.1 hrun
  simp only [Prod.mk.injEq] at he
  obtain ⟨⟨hheld, hl⟩, ⟨hw₁, hw₂⟩, hh₂, hh'⟩ := he
  have hh' : writesOf s' = writesOf s ++ _ := of_decide_eq_true hh'
  have hh₂ : (writesOf s₂).length = _ := of_decide_eq_true hh₂
  obtain ⟨w, hl⟩ := Option.isSome_iff_exists.1 hl
  have hR : Reach Pool.step (fun (s : (channel (.tiny 1) Unit (some ())).Conf) _ _ =>
      0 ≤ s.mem.seg.words (Geometry.slot _ 1)) s₁ s₂ :=
    (reach_of_steps .refl h₂).mono fun _ _ _ hok => of_decide_eq_true hok
  have hS : Pool.Spans (fun h : Hist (.tiny 1) => 0 ≤ h.seg.words (Geometry.slot _ 1)) s s' .writer w
      (List.replicate 8 3 : List UInt8) (.ok () : Except ZeroChannelError Unit) :=
    .of_run (Pool.Ctl.idle?_eq.1 hl) h₁ (by rw [hw₁]; norm_num) (hR.entered (by rw [hw₂]; norm_num))
      hh₂ h₃ hh'
  exact ⟨s, s', w, hheld, hS, write_unheld hS rfl⟩

end

/-! ## Every call returns -/

section

theorem atMost_claimFrom (w : RawWriter G) : ∀ (k n : ℕ), (w.claimFrom n k).AtMost (k + 1) := by
  intro k
  induction k with
  | zero =>
    intro n
    exact Prog.atMost_pure _ _
  | succ k ih =>
    intro n
    have hclear : ∀ i : Slot G, (do
        clearSeq i
        pure (.ok i) : SegProg G (Except ZeroChannelError (Slot G))).AtMost (k + 1) :=
      fun i => (Prog.atMost_act _).bind (n := k) (fun _ => Prog.atMost_pure _ _) |>.mono (by omega)
    rw [show k + 1 + 1 = 1 + (k + 1) by omega]
    refine (Prog.atMost_act _).bind fun raw => ?_
    split_ifs
    · exact ih (n + 1)
    · exact hclear _

theorem atMost_publish (w : RawWriter G) (i : Slot G) : (w.publish i).AtMost 3 :=
  fun _ _ _ => trivial

theorem atMost_copyIn (i : Slot G) (b : Block G) :
    (RawWriter.copyIn i b).AtMost G.payloadBytes := by
  have h := Prog.AtMost.foldlM (f := fun (_ : Unit) j => storeByte i j (b j))
    (fun _ _ => Prog.atMost_act _) (List.finRange G.payloadBytes) ()
  rwa [List.length_finRange, Nat.mul_one] at h

/-- The operations of a write: the probes, the claim, the copy and three stores. -/
def writeBound (G : Geometry) : ℕ := G.entryCount + 1 + (G.payloadBytes + 3)

theorem atMost_write (w : RawWriter G) (data : List UInt8) : (w.write data).AtMost (writeBound G) := by
  unfold RawWriter.write
  split_ifs
  · exact Prog.atMost_pure _ _
  · refine (atMost_claimFrom w _ 0).bind fun a => ?_
    match a with
    | .error e => exact Prog.atMost_pure _ _
    | .ok i =>
      exact (atMost_copyIn i _).bind fun _ => (atMost_publish w i).bind (n := 0) fun _ => trivial

theorem atMost_scan (w : ℕ) : (RawReader.scan w : SegProg G _).AtMost G.entryCount := by
  have h := Prog.AtMost.foldlM (n := 1) (f := fun best (idx : Slot G) => (do
      let raw ← loadSeq idx
      pure (RawReader.better w best idx raw) : SegProg G (Option (Slot G × ℕ))))
    (fun _ _ => (Prog.atMost_act _).bind (n := 0) fun _ => trivial) (List.finRange G.entryCount) none
  rwa [List.length_finRange, Nat.mul_one] at h

theorem atMost_locate (r : RawReader G) (w : ℕ) : (r.locate w).AtMost (1 + G.entryCount) := by
  refine (Prog.atMost_act _).bind fun next => ?_
  split_ifs
  · exact Prog.atMost_pure _ _
  · exact atMost_scan w

theorem atMost_watermark (r : RawReader G) (f : Option ℕ) : (r.watermark f).AtMost 1 := by
  refine (Prog.atMost_act _).bind (n := 0) fun last => ?_
  split_ifs <;> trivial

theorem atMost_copyOut (i : Slot G) (dst : List UInt8) :
    (RawReader.copyOut i dst).AtMost G.payloadBytes := by
  have h := Prog.AtMost.foldlM (n := 1) (f := fun dst (j : Fin G.payloadBytes) => (do
      let b ← loadByte i j
      pure (dst.set j.val b) : SegProg G (List UInt8)))
    (fun _ _ => (Prog.atMost_act _).bind (n := 0) fun _ => trivial)
    (List.finRange G.payloadBytes) dst
  rwa [List.length_finRange, Nat.mul_one] at h

/-- The operations of one attempt of a read: a probe, the scan, the copy and the second look. -/
def attemptBound (G : Geometry) : ℕ := 1 + G.entryCount + (G.payloadBytes + 1)

theorem atMost_readAttempts (r : RawReader G) (w : ℕ) : ∀ (k : ℕ) (dst : List UInt8),
    (r.readAttempts w dst k).AtMost (k * attemptBound G) := by
  intro k
  induction k with
  | zero =>
    intro dst
    exact Prog.atMost_pure _ _
  | succ k ih =>
    intro dst
    have hsum : (k + 1) * attemptBound G =
        1 + G.entryCount + (G.payloadBytes + (1 + k * attemptBound G)) := by
      rw [Nat.succ_mul]
      unfold attemptBound
      omega
    rw [hsum]
    refine (atMost_locate r w).bind fun a => ?_
    match a with
    | none => exact Prog.atMost_pure _ _
    | some (i, n) =>
      refine (atMost_copyOut i dst).bind fun dst' => (Prog.atMost_act _).bind fun raw => ?_
      split_ifs
      · exact ih dst'
      · exact Prog.atMost_pure _ _

theorem atMost_acquireAttempts (r : RawReader G) (w : ℕ) : ∀ k : ℕ,
    (r.acquireAttempts w k).AtMost (k * (1 + G.entryCount + 1)) := by
  intro k
  induction k with
  | zero => exact Prog.atMost_pure _ _
  | succ k ih =>
    rw [Nat.succ_mul, Nat.add_comm, Nat.add_assoc]
    refine (atMost_locate r w).bind fun a => ?_
    match a with
    | none => exact Prog.atMost_pure _ _
    | some (i, n) =>
      refine (Prog.atMost_act _).bind fun b => ?_
      split_ifs
      · exact Prog.atMost_pure _ _
      · exact ih

theorem atMost_readInto (r : RawReader G) (dst : List UInt8) (f : Option ℕ) :
    (r.readInto dst f).AtMost (1 + READ_RETRIES * attemptBound G) := by
  unfold RawReader.readInto
  split_ifs
  · exact Prog.atMost_pure _ _
  · refine (atMost_watermark r f).bind fun a => ?_
    match a with
    | none => exact Prog.atMost_pure _ _
    | some w => exact (atMost_readAttempts r w READ_RETRIES dst).bind (n := 0) fun _ => trivial

theorem atMost_tryAcquire (r : RawReader G) (f : Option ℕ) :
    (r.tryAcquire f).AtMost (1 + READ_RETRIES * (1 + G.entryCount + 1)) := by
  refine (atMost_watermark r f).bind fun a => ?_
  match a with
  | none => exact Prog.atMost_pure _ _
  | some w => exact atMost_acquireAttempts r w READ_RETRIES

/-- The operations of the calls. -/
def callBound (G : Geometry) (ι : Type) [DecidableEq ι] (zc : Option ι) :
    ∀ t, (channel G ι zc).Call t → ℕ
  | .writer, _ => writeBound G
  | .reader _, .readInto _ _ => 1 + READ_RETRIES * attemptBound G
  | .reader _, .tryAcquire _ => 1 + READ_RETRIES * (1 + G.entryCount + 1)
  | .reader _, .release _ => 1

variable {ι : Type} [DecidableEq ι] {zc : Option ι}

theorem atMost_enter (t : Party ι) (c : (channel G ι zc).Call t) (l : (channel G ι zc).Loc t)
    (p : SegProg G _) (h : (channel G ι zc).enter t c l = some p) :
    p.AtMost (callBound G ι zc t c) := by
  cases t with
  | writer =>
    cases h
    exact atMost_write l c
  | reader r =>
    cases c with
    | readInto dst f =>
      cases h
      exact (atMost_readInto l.raw dst f).bind (n := 0) fun _ => trivial
    | tryAcquire f =>
      simp only [channel, ReaderLoc.enter] at h
      split_ifs at h
      cases h
      exact (atMost_tryAcquire l.raw f).bind (n := 0) fun _ => trivial
    | release x =>
      simp only [channel, ReaderLoc.enter] at h
      split_ifs at h
      cases h
      exact Prog.AtMost.bind (n := 0) (Prog.atMost_act _) fun _ => trivial

/-- **The calls are wait-free.**  In every state and under every schedule: a party that has
    made a call has returned from it after a number of its own moves that depends on the
    call and the geometry only, whatever the others do and wherever they stop. -/
theorem wait_free {s s₁ s' : (channel G ι zc).Conf} {t : Party ι} {c : (channel G ι zc).Call t}
    {as : List (channel G ι zc).Act} (hcall : Pool.step s (.call t c) = some s₁)
    (hs : steps Pool.step (fun _ _ => true) s₁ as = some s')
    (hn : callBound G ι zc t c < as.countP (Pool.Act.moves t)) :
    (s.hist t).length < (s'.hist t).length :=
  Pool.returns hcall (atMost_enter t c) hs hn

/-- A reader has stopped in the middle of a read; the writer returns after 14 moves. -/
theorem wait_free_stopped : ∃ s s' : (channel (.tiny 0) Unit none).Conf,
    (s.ctl (.reader ())).next?.isSome ∧ (s.hist .writer).length = 1 ∧
    (s.hist .writer).length < (s'.hist .writer).length := by
  have hrun : ((steps Pool.step (fun _ _ => true) (channelInit (.tiny 0) Unit none .u8 7)
      (List.flatten [Pool.burst .writer (List.replicate 8 1) 14,
        Pool.burst (.reader ()) (.readInto (List.replicate 8 0) none) 5])).bind fun s =>
      (Pool.step s (.call .writer (List.replicate 8 2 : List UInt8))).bind fun s₁ =>
      (steps Pool.step (fun _ _ => true) s₁ (List.replicate 14 (.move .writer))).map fun _ =>
        ((s.ctl (.reader ())).next?.isSome, (s.hist .writer).length)) = some (true, 1) := by
    decide +kernel
  obtain ⟨s, -, hrun⟩ := Option.bind_eq_some_iff.1 hrun
  obtain ⟨s₁, h₁, hrun⟩ := Option.bind_eq_some_iff.1 hrun
  obtain ⟨s', h₂, he⟩ := Option.map_eq_some_iff.1 hrun
  obtain ⟨hnext, hlen⟩ := Prod.mk.inj he
  exact ⟨s, s', hnext, hlen, wait_free h₁ h₂ (by decide)⟩

end

end ZeroChannel
