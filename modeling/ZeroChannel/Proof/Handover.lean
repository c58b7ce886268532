/-
  What a successor inherits.

  A successor takes its snapshot of the header before it claims the role.  The
  count it recovers is right in every interleaving; the cursor is right if and only
  if the stores of `write_index` that came in between are, counted around the ring,
  at most one (`handover_resumes`, `handover_stale`).
-/
import ZeroChannel.Handover
import ZeroChannel.Proof.BoundedLog
import Mathlib.Data.Nat.ModEq

namespace ZeroChannel

open Concur

variable {G : Geometry}

theorem slot_eq_iff {a b : ℕ} : G.slot a = G.slot b ↔ a ≡ b [MOD G.entryCount] := Fin.ext_iff

theorem slot_add_congr {a b : ℕ} (h : G.slot a = G.slot b) (d : ℕ) :
    G.slot (a + d) = G.slot (b + d) :=
  slot_eq_iff.2 ((slot_eq_iff.1 h).add_right d)

namespace Handover

/-! ## What the two sides may change -/

/-- The ring holds the entries up to `n`, `i` stores of `write_index` were made, and
    the watermark is at `l`. -/
structure Ring (h : Handover G) (lo n i l : ℕ) : Prop where
  window : Window h.hist.seg.words lo n
  index : h.hist.seg.hdr .writeIndex = (G.slot i).val
  last : h.hist.seg.hdr .lastEntrySeq = l
  log : h.hist.log.length = n
  late : h.late ≤ i

/-- The writer `w` is between two calls. -/
def Rest (w : RawWriter G) (h : Handover G) : Prop :=
  ∃ lo n, h.Ring lo n n n ∧ lo ≤ max 1 n ∧ w = ⟨G.slot n, n⟩

/-- What the successor may change: the owners, and what was counted as late. -/
structure Quiet (h h' : Handover G) : Prop where
  words : h'.hist.seg.words = h.hist.seg.words
  index : h'.hist.seg.hdr .writeIndex = h.hist.seg.hdr .writeIndex
  last : h'.hist.seg.hdr .lastEntrySeq = h.hist.seg.hdr .lastEntrySeq
  log : h'.hist.log = h.hist.log
  late : h'.late ≤ h.late
  released : h'.released = h.released

/-- What the first writer may change: the cursor moves on with `late`, the watermark
    grows, the words stay once the role is released, and the role until then. -/
structure Follows (h h' : Handover G) : Prop where
  index : ∃ d, h'.late = h.late + d ∧
    G.slot (h'.hist.seg.hdr .writeIndex) = G.slot (h.hist.seg.hdr .writeIndex + d)
  last : h.hist.seg.hdr .lastEntrySeq ≤ h'.hist.seg.hdr .lastEntrySeq
  released : h.released → h'.released ∧ h'.hist.seg.words = h.hist.seg.words
  role : h'.released = false →
    h'.hist.seg.hdr .writerOwner = h.hist.seg.hdr .writerOwner

theorem Quiet.refl (h : Handover G) : Quiet h h := ⟨rfl, rfl, rfl, rfl, le_rfl, rfl⟩

theorem Quiet.trans {h₁ h₂ h₃ : Handover G} (h : Quiet h₁ h₂) (h' : Quiet h₂ h₃) : Quiet h₁ h₃ :=
  ⟨h'.words.trans h.words, h'.index.trans h.index, h'.last.trans h.last, h'.log.trans h.log,
    h'.late.trans h.late, h'.released.trans h.released⟩

/-- A step that does not touch the header. -/
theorem Follows.of_hdr {h h' : Handover G} (hl : h'.late = h.late)
    (hh : h'.hist.seg.hdr = h.hist.seg.hdr)
    (hr : h.released → h'.released ∧ h'.hist.seg.words = h.hist.seg.words) : Follows h h' :=
  ⟨⟨0, hl, by rw [hh]; rfl⟩, by rw [hh], hr, fun _ => by rw [hh]⟩

theorem Follows.refl (h : Handover G) : Follows h h := .of_hdr rfl rfl fun hr => ⟨hr, rfl⟩

theorem Follows.not_released {h h' : Handover G} (hf : Follows h h') (hr : h'.released = false) :
    h.released = false := by
  by_contra hne
  rw [(hf.released (by simpa using hne)).1] at hr
  cases hr

theorem Follows.trans {h₁ h₂ h₃ : Handover G} (h : Follows h₁ h₂) (h' : Follows h₂ h₃) :
    Follows h₁ h₃ := by
  obtain ⟨⟨d, hd, hi⟩, hl, hr, ho⟩ := h
  obtain ⟨⟨d', hd', hi'⟩, hl', hr', ho'⟩ := id h'
  refine ⟨⟨d + d', by omega, ?_⟩, hl.trans hl', fun h => ?_,
    fun h => (ho' h).trans (ho (h'.not_released h))⟩
  · rw [hi', slot_add_congr hi, Nat.add_assoc]
  · obtain ⟨h₂, hw⟩ := hr h
    obtain ⟨h₃, hw'⟩ := hr' h₂
    exact ⟨h₃, hw'.trans hw⟩

theorem Ring.quiet {h h' : Handover G} {lo n i l : ℕ} (hR : h.Ring lo n i l) (hq : Quiet h h') :
    h'.Ring lo n i l where
  window := by rw [hq.words]; exact hR.window
  index := hq.index.trans hR.index
  last := hq.last.trans hR.last
  log := by rw [hq.log, hR.log]
  late := hq.late.trans hR.late

theorem Rest.quiet {w : RawWriter G} {h h' : Handover G} (hR : Rest w h) (hq : Quiet h h') :
    Rest w h' := by
  obtain ⟨lo, n, hR, hlo, hw⟩ := hR
  exact ⟨lo, n, hR.quiet hq, hlo, hw⟩

variable (G) in
/-- The contract of the first writer: its operations come before the release. -/
def oldSide : Contract (segSig G) (Handover G) where
  ok h := h.hist.log.length < 2 ^ 63
  rely _ := Quiet
  guar _ h h' := h.released = false ∧ Follows h h'

variable (G) in
/-- The contract of the successor: the role stays with the first writer until that
    releases it. -/
def newSide : Contract (segSig G) (Handover G) where
  ok _ := True
  rely _ := Follows
  guar _ h h' := Quiet h h' ∧
    (h.released ∨ h'.hist.seg.hdr .writerOwner = h.hist.seg.hdr .writerOwner)

/-! ## The first writer -/

section
variable (data : List UInt8)

/-- Mid-write: the ring, the slot of the next entry cleared. -/
def Cleared (n : ℕ) (h : Handover G) : Prop :=
  ∃ lo, h.Ring lo n n n ∧ n + 2 - G.entryCount ≤ lo ∧ lo ≤ n + 1 ∧ h.released = false

theorem claimSlot_old {h : Handover G} {lo n : ℕ} (hR : h.Ring lo n n n) (hlo : lo ≤ n + 1)
    (hb : h.released = false) :
    Valid (oldExec data) (oldSide G) (fun r h => r = .ok (G.slot n) ∧ Cleared n h)
      (RawWriter.claimSlot ⟨G.slot n, n⟩) h := by
  obtain ⟨k, hk⟩ : ∃ k, G.entryCount = k + 1 := ⟨G.entryCount - 1, by have := G.count_pos; omega⟩
  unfold RawWriter.claimSlot
  rw [hk]
  unfold RawWriter.claimFrom
  intro h₁ hq₁ _
  have hR₁ := hR.quiet hq₁
  have hb₁ := hq₁.released.trans hb
  refine ⟨⟨hb₁, .refl _⟩, ?_⟩
  -- no slot is held, so the cursor's own is claimed
  simp only [oldExec, Hist.writerExec, Segment.exec, Prog.bind_pure, Nat.add_zero, G.slot_self]
  rw [if_neg (not_lt.2 (hR₁.window.range _).1)]
  intro h₂ hq₂ _
  have hR₂ := hR₁.quiet hq₂
  have hb₂ := hq₂.released.trans hb₁
  refine ⟨⟨hb₂, .of_hdr rfl rfl fun hr => ?_⟩, rfl, ?_⟩
  · rw [hb₂] at hr
    cases hr
  · have hpos := G.count_pos
    refine ⟨max lo (n + 2 - G.entryCount), ⟨?_, hR₂.index, hR₂.last, hR₂.log, hR₂.late⟩,
      le_max_right _ _, by omega, hb₂⟩
    exact hR₂.window.clear rfl fun j => Segment.setWord_words _ _ _ _

theorem copyIn_old {h : Handover G} {n : ℕ} (hC : Cleared n h) (i : Slot G) (b : Block G) :
    Valid (oldExec data) (oldSide G) (fun _ => Cleared n) (RawWriter.copyIn i b) h := by
  refine Valid.foldlM (I := fun _ _ => Cleared n) (fun j js _ h hC => ?_) _ _ _ hC
  obtain ⟨lo, hR, hlo, hle, hb⟩ := hC
  intro h₁ hq _
  have hR₁ := hR.quiet hq
  have hb₁ := hq.released.trans hb
  refine ⟨⟨hb₁, .of_hdr rfl rfl fun hr => ⟨hr, rfl⟩⟩, lo, ?_, hlo, hle, hb₁⟩
  exact ⟨hR₁.window, hR₁.index, hR₁.last, hR₁.log, hR₁.late⟩

/-! The ring after each of the three stores of `publish`. -/

theorem Ring.stored {h : Handover G} {lo n : ℕ} (hR : h.Ring lo n n n)
    (hlo : n + 2 - G.entryCount ≤ lo) (hle : lo ≤ n + 1) (hn : n + 1 < 2 ^ 63) :
    (oldExec data (.storeSeq (G.slot n) (asI64 (u64 (n + 1)))) h).2.Ring lo (n + 1) n n where
  window := by
    refine hR.window.publish hlo (fun j => ?_) hle
    simp only [oldExec, Hist.writerExec, Hist.put_seg, Segment.setWord_words,
      u64_of_lt (show n + 1 < 2 ^ 64 by omega), asI64_of_lt hn]
  index := hR.index
  last := hR.last
  log := by simp [oldExec, Hist.writerExec, hR.log]
  late := hR.late

theorem Ring.indexed {h : Handover G} {lo n : ℕ} (hR : h.Ring lo (n + 1) n n) :
    (oldExec data (.store .writeIndex (G.slot ((G.slot n).val + 1)).val) h).2.Ring
      lo (n + 1) (n + 1) n where
  window := hR.window
  index := by simp [oldExec, Hist.writerExec, Segment.exec]
  last := hR.last
  log := hR.log
  late := by
    have := hR.late
    simp only [oldExec, if_true]
    omega

theorem Ring.advertised {h : Handover G} {lo n : ℕ} (hR : h.Ring lo (n + 1) (n + 1) n)
    (hn : n + 1 < 2 ^ 63) :
    (oldExec data (.store .lastEntrySeq (u64 (n + 1))) h).2.Ring lo (n + 1) (n + 1) (n + 1) where
  window := hR.window
  index := hR.index
  last := by
    simp [oldExec, Hist.writerExec, Segment.exec, u64_of_lt (show n + 1 < 2 ^ 64 by omega)]
  log := hR.log
  late := hR.late

theorem publish_old {h : Handover G} {n : ℕ} (hC : Cleared n h) :
    Valid (oldExec data) (oldSide G) (fun r h => Rest r.2 h ∧ h.released = false)
      (RawWriter.publish ⟨G.slot n, n⟩ (G.slot n)) h := by
  obtain ⟨lo, hR, hlo, hle, hb⟩ := hC
  unfold RawWriter.publish
  intro h₁ hq₁ hn₁
  have hR₁ := hR.quiet hq₁
  have hb₁ := hq₁.released.trans hb
  have hn : n + 1 < 2 ^ 63 := by
    simpa [oldSide, oldExec, Hist.writerExec, hR₁.log] using hn₁
  refine ⟨⟨hb₁, .of_hdr rfl rfl fun hr => ?_⟩, ?_⟩
  · rw [hb₁] at hr
    cases hr
  intro h₂ hq₂ _
  have hR₂ := (hR₁.stored data hlo hle hn).quiet hq₂
  have hb₂ : h₂.released = false := hq₂.released.trans hb₁
  refine ⟨⟨hb₂, ⟨⟨1, rfl, ?_⟩, le_rfl, fun hr => ⟨hr, rfl⟩, fun _ => rfl⟩⟩, ?_⟩
  · simp [oldExec, Hist.writerExec, Segment.exec, hR₂.index]
  intro h₃ hq₃ _
  have hR₃ := (hR₂.indexed data).quiet hq₃
  have hb₃ : h₃.released = false := hq₃.released.trans hb₂
  have hR₄ := hR₃.advertised data hn
  refine ⟨⟨hb₃, ⟨⟨0, rfl, rfl⟩, ?_, fun hr => ⟨hr, rfl⟩, fun _ => rfl⟩⟩, ?_⟩
  · rw [hR₃.last]
    exact (Nat.le_succ n).trans hR₄.last.ge
  · have hseq : u64 (n + 1) = n + 1 := u64_of_lt (by omega)
    exact ⟨⟨lo, n + 1, hR₄, by omega, by simp [hseq]⟩, hb₃⟩

/-- **A write of the first writer**, whatever the successor does meanwhile. -/
theorem write_old {w : RawWriter G} {h : Handover G} (hR : Rest w h) (hb : h.released = false) :
    Valid (oldExec data) (oldSide G) (fun r h => Rest r.2 h ∧ h.released = false)
      (w.write data) h := by
  unfold RawWriter.write
  split_ifs with hlen
  · exact ⟨hR, hb⟩
  obtain ⟨lo, n, hR, hlo, rfl⟩ := hR
  refine ((claimSlot_old data hR (by omega) hb).mono fun r h₁ ⟨hr, hC⟩ => ?_).bind
  subst hr
  refine ((copyIn_old data hC _ _).mono fun _ h₂ hC => ?_).bind
  exact ((publish_old data hC).mono fun r h₃ hr => hr).bind

/-- **The drop of the first writer.** -/
theorem drop_old {me : Pid} {w : RawWriter G} {h : Handover G} (hR : Rest w h)
    (hb : h.released = false) :
    Valid (oldExec []) (oldSide G) (fun _ h => Rest w h ∧ h.released = true) (dropWriter me) h := by
  obtain ⟨lo, n, hR, hlo, hw⟩ := hR
  intro h₁ hq _
  have hR₁ := hR.quiet hq
  have hb₁ := hq.released.trans hb
  have hhdr : ∀ x, x ≠ .writerOwner →
      (oldExec [] (.cas .writerOwner me.val 0) h₁).2.hist.seg.hdr x = h₁.hist.seg.hdr x := by
    intro x hx
    simp only [oldExec, Hist.writerExec, Segment.exec]
    split_ifs
    · exact Segment.setHdr_ne _ hx _
    · rfl
  have hwords : (oldExec [] (.cas .writerOwner me.val 0) h₁).2.hist.seg.words =
      h₁.hist.seg.words := by
    simp only [oldExec, Hist.writerExec, Segment.exec]
    split_ifs <;> rfl
  refine ⟨⟨hb₁, ⟨⟨0, rfl, ?_⟩, ?_, fun hr => ⟨rfl, hwords⟩, fun hr => Bool.noConfusion hr⟩⟩, ?_⟩
  · rw [hhdr _ (by decide), Nat.add_zero]
  · rw [hhdr _ (by decide)]
  · refine ⟨⟨lo, n, ⟨?_, ?_, ?_, hR₁.log, hR₁.late⟩, hlo, hw⟩, rfl⟩
    · rw [hwords]
      exact hR₁.window
    · exact (hhdr _ (by decide)).trans hR₁.index
    · exact (hhdr _ (by decide)).trans hR₁.last

end

/-! ## The successor -/

/-- The memory with a header word replaced. -/
def withHdr (h : Handover G) (x : HeaderWord) (v : ℕ) : Handover G :=
  { h with hist := { h.hist with seg := h.hist.seg.setHdr x v } }

/-- The successor has seen the cursor `j` and the watermark `l`; the first writer
    holds the role until it releases it. -/
structure Seen (pid : Pid) (j l : ℕ) (h : Handover G) : Prop where
  index : G.slot (h.hist.seg.hdr .writeIndex) = G.slot (j + h.late)
  last : l ≤ h.hist.seg.hdr .lastEntrySeq
  role : h.released = false → h.hist.seg.hdr .writerOwner = pid.val

/-- The role is free of the first writer, and `w` was recovered from the snapshot. -/
def Inherits (pid : Pid) (w : RawWriter G) (h : Handover G) : Prop :=
  h.released ∧ ∃ j l, Seen pid j l h ∧ w = resumed h.hist.seg.words j l

variable {pid : Pid} {α : Type} {Q : α → Handover G → Prop} {h : Handover G}

theorem Seen.follows {h' : Handover G} {j l : ℕ} (hs : Seen pid j l h) (hf : Follows h h') :
    Seen pid j l h' := by
  obtain ⟨⟨d, hd, hi⟩, hl, -, ho⟩ := id hf
  refine ⟨?_, hs.last.trans hl, fun hb => (ho hb).trans (hs.role (hf.not_released hb))⟩
  rw [hi, slot_add_congr hs.index, hd, Nat.add_assoc]

theorem Inherits.follows {h' : Handover G} {w : RawWriter G} (hw : Inherits pid w h)
    (hf : Follows h h') : Inherits pid w h' := by
  obtain ⟨hr, j, l, hs, rfl⟩ := hw
  obtain ⟨hr', hwords⟩ := hf.released hr
  exact ⟨hr', j, l, hs.follows hf, by rw [hwords]⟩

theorem quiet_withHdr (h : Handover G) {x : HeaderWord} (h₁ : x ≠ .writeIndex)
    (h₂ : x ≠ .lastEntrySeq) (v : ℕ) : Quiet h (h.withHdr x v) :=
  ⟨rfl, Segment.setHdr_ne _ h₁.symm v, Segment.setHdr_ne _ h₂.symm v, rfl, le_rfl, rfl⟩

theorem Seen.withHdr {j l : ℕ} (hs : Seen pid j l h) {x : HeaderWord} (h₁ : x ≠ .writeIndex)
    (h₂ : x ≠ .lastEntrySeq) (h₃ : h.released ∨ x ≠ .writerOwner) (v : ℕ) :
    Seen pid j l (h.withHdr x v) where
  index := by rw [(quiet_withHdr h h₁ h₂ v).index]; exact hs.index
  last := by rw [(quiet_withHdr h h₁ h₂ v).last]; exact hs.last
  role hb := by
    rcases h₃ with h₃ | h₃
    · rw [show h.released = false from hb] at h₃
      cases h₃
    · exact (Segment.setHdr_ne _ h₃.symm v).trans (hs.role hb)

/-- The rule for loads of header words. -/
theorem load_new {x : HeaderWord} {f : ℕ → SegProg G α}
    (hk : ∀ h', Follows h h' → Valid newExec (newSide G) Q (f (h'.hist.seg.hdr x)) (h'.loaded x)) :
    Valid newExec (newSide G) Q (loadHdr x >>= f) h := by
  intro h' hf _
  refine ⟨⟨⟨rfl, rfl, rfl, rfl, ?_, rfl⟩, Or.inr rfl⟩, hk h' hf⟩
  simp only [newExec, loaded]
  split_ifs <;> omega

/-- The rule for compare-exchanges of owner words: one of the writer role can only
    succeed when the first writer has released it. -/
theorem cas_new {x : HeaderWord} {old v : ℕ} {f : Except ℕ Unit → SegProg G α}
    (h₁ : x ≠ .writeIndex) (h₂ : x ≠ .lastEntrySeq)
    (hsafe : ∀ h', Follows h h' → x = .writerOwner → h'.hist.seg.hdr x = old → h'.released)
    (hok : ∀ h', Follows h h' → h'.hist.seg.hdr x = old →
      Valid newExec (newSide G) Q (f (.ok ())) (h'.withHdr x v))
    (herr : ∀ h', Follows h h' → h'.hist.seg.hdr x ≠ old →
      Valid newExec (newSide G) Q (f (.error (h'.hist.seg.hdr x))) h') :
    Valid newExec (newSide G) Q (casHdr x old v >>= f) h := by
  intro h' hf _
  simp only [newExec, Segment.exec]
  split_ifs with he
  · refine ⟨⟨quiet_withHdr h' h₁ h₂ v, ?_⟩, hok h' hf he⟩
    by_cases hx : x = .writerOwner
    · exact Or.inl (hsafe h' hf hx he)
    · exact Or.inr (Segment.setHdr_ne _ (Ne.symm hx) v)
  · exact ⟨⟨Quiet.refl h', Or.inr rfl⟩, herr h' hf he⟩

/-- The header a successor goes by was seen. -/
def Snapshot (pid : Pid) (r : Except ZeroChannelError (Option Header)) (h : Handover G) : Prop :=
  ∀ header, r = .ok (some header) → Seen pid header.writeIndex header.lastEntrySeq h

theorem readHeader_new (hb : h.released = false → h.hist.seg.hdr .writerOwner = pid.val) :
    Valid newExec (newSide G) (Snapshot pid) (readHeader loadHdr) h := by
  unfold readHeader
  refine load_new fun h₁ hf₁ => ?_
  split_ifs
  · exact nofun
  · exact nofun
  · exact nofun
  refine load_new fun h₂ hf₂ => ?_
  refine load_new fun h₃ hf₃ => ?_
  refine load_new fun h₄ hf₄ => ?_
  have hs : Seen pid (h₄.hist.seg.hdr .writeIndex) 0 (h₄.loaded .writeIndex) := by
    refine ⟨rfl, Nat.zero_le _, fun hr => ?_⟩
    have hf := (hf₁.trans hf₂).trans (hf₃.trans hf₄)
    exact (hf.role hr).trans (hb (hf.not_released hr))
  refine load_new fun h₅ hf₅ => ?_
  refine load_new fun h₆ hf₆ => ?_
  have hs₆ := (hs.follows hf₅).follows hf₆
  rintro _ ⟨⟩
  exact ⟨hs₆.index, le_rfl, hs₆.role⟩

theorem processAlive_seg (alive : ℕ → Bool) (n : ℕ) :
    processAlive (segMapping G alive) n = Prog.pure (n ≠ 0 && alive n) := by
  unfold processAlive
  split_ifs with hn <;> simp [hn, segMapping]

/-- The bid for the deed leaves the snapshot alone. -/
theorem claimSegment_new (alive : ℕ → Bool) (me : Pid) {j l : ℕ} : ∀ (fuel : ℕ) {h : Handover G},
    Seen pid j l h →
      Valid newExec (newSide G) (fun _ => Seen pid j l) (claimSegment (segMapping G alive) me fuel) h := by
  intro fuel
  induction fuel with
  | zero =>
    intro h hs
    exact hs
  | succ fuel ih =>
    intro h hs
    have hx : HeaderWord.segmentOwner ≠ .writerOwner := by decide
    unfold claimSegment
    refine cas_new (by decide) (by decide) (fun _ _ hw => absurd hw hx) (fun h₁ hf₁ _ => ?_)
      fun h₁ hf₁ _ => ?_
    · exact (hs.follows hf₁).withHdr (by decide) (by decide) (Or.inr hx) _
    have hs₁ := hs.follows hf₁
    dsimp only
    split_ifs
    · exact hs₁
    rw [processAlive_seg, Prog.pure_bind']
    split_ifs
    · exact hs₁
    refine cas_new (by decide) (by decide) (fun _ _ hw => absurd hw hx) (fun h₂ hf₂ _ => ?_)
      fun h₂ hf₂ _ => ?_
    · exact (hs₁.follows hf₂).withHdr (by decide) (by decide) (Or.inr hx) _
    · exact ih (hs₁.follows hf₂)

/-- **The role is claimed only after the first writer has released it.** -/
theorem claimRole_new {alive : ℕ → Bool} (ha : alive pid.val) (me : Pid) (role name : String)
    {j l : ℕ} : ∀ (fuel : ℕ) {h : Handover G}, Seen pid j l h →
      Valid newExec (newSide G) (fun r h => Seen pid j l h ∧ (r = some (.ok ()) → h.released))
        (claimRole (segMapping G alive) me .writerOwner role name fuel) h := by
  intro fuel
  induction fuel with
  | zero =>
    intro h hs
    exact ⟨hs, fun h => by cases h⟩
  | succ fuel ih =>
    intro h hs
    -- until the release the cell holds the first writer's process
    have hsafe : ∀ h' : Handover G, Seen pid j l h' → h'.hist.seg.hdr .writerOwner ≠ pid.val →
        h'.released := fun h' hs' hne => by
      by_contra hr
      exact hne (hs'.role (by simpa using hr))
    unfold claimRole
    refine cas_new (by decide) (by decide) (fun h₁ hf₁ _ he => ?_) (fun h₁ hf₁ he => ?_)
      fun h₁ hf₁ _ => ?_
    · exact hsafe h₁ (hs.follows hf₁) (by rw [he]; exact pid.pos.ne)
    · have hr := hsafe h₁ (hs.follows hf₁) (by rw [he]; exact pid.pos.ne)
      exact ⟨(hs.follows hf₁).withHdr (by decide) (by decide) (Or.inl hr) _, fun _ => hr⟩
    have hs₁ := hs.follows hf₁
    simp only [processAlive_seg, Prog.pure_bind']
    split_ifs with hlive
    · exact ⟨hs₁, nofun⟩
    -- the holder is dead, so it is not the first writer
    have hne : h₁.hist.seg.hdr .writerOwner ≠ pid.val := by
      intro he
      rw [he, pid.asU32_val] at hlive
      simp [ha, pid.pos.ne'] at hlive
    refine cas_new (by decide) (by decide) (fun h₂ hf₂ _ he => ?_) (fun h₂ hf₂ he => ?_)
      fun h₂ hf₂ _ => ?_
    · exact hsafe h₂ (hs₁.follows hf₂) (he ▸ hne)
    · have hr := hsafe h₂ (hs₁.follows hf₂) (he ▸ hne)
      exact ⟨(hs₁.follows hf₂).withHdr (by decide) (by decide) (Or.inl hr) _, fun _ => hr⟩
    · exact ih (hs₁.follows hf₂)

/-- The scan of a ring nobody writes to any more. -/
theorem attach_new {header : Header} (hs : Seen pid header.writeIndex header.lastEntrySeq h)
    (hr : h.released) :
    Valid newExec (newSide G) (Inherits pid) (RawWriter.attach header) h := by
  unfold RawWriter.attach recoverState
  -- the maximum over the words still to visit gives the count
  let I : List (Slot G) → ℕ → Handover G → Prop := fun l m h =>
    Seen pid header.writeIndex header.lastEntrySeq h ∧ h.released ∧
      l.foldl (fun m i => max m (h.hist.seg.words i).natAbs) m =
        recoveredSeq h.hist.seg.words header.lastEntrySeq
  have hI : ∀ {l m} {h h' : Handover G}, I l m h → Follows h h' → I l m h' := by
    rintro l m h h' ⟨hs, hr, hm⟩ hf
    obtain ⟨hr', hw⟩ := hf.released hr
    exact ⟨hs.follows hf, hr', by rw [hw]; exact hm⟩
  have hscan : Valid newExec (newSide G) (I []) (recoverScan header.lastEntrySeq) h := by
    refine Valid.foldlM (I := I) (fun i l m h hm => ?_) _ _ _ ⟨hs, hr, rfl⟩
    intro h₁ hf _
    refine ⟨⟨Quiet.refl _, Or.inr rfl⟩, ?_⟩
    obtain ⟨hs₁, hr₁, hm₁⟩ := hI hm hf
    refine ⟨hs₁, hr₁, ?_⟩
    simp only [newExec, Segment.exec]
    rw [← hm₁, List.foldl_cons, max_def_lt]
    rfl
  refine (hscan.mono fun m h₁ hm => ?_).bind.bind
  intro h₂ hf _
  obtain ⟨hs₂, hr₂, hm₂⟩ := hI hm hf
  simp only [List.foldl_nil] at hm₂
  refine ⟨⟨Quiet.refl _, Or.inr rfl⟩, ?_⟩
  simp only [newExec, Segment.exec, Prog.bind_pure, hm₂]
  split_ifs with hat
  · refine ⟨hr₂, header.writeIndex, header.lastEntrySeq, hs₂, ?_⟩
    simp only [resumed, if_pos hat]
  · refine ⟨hr₂, header.writeIndex, header.lastEntrySeq, hs₂, ?_⟩
    simp only [resumed, if_neg hat]

/-- What a bid that succeeds ends with. -/
def Constructed (pid : Pid) (r : Option (Except ZeroChannelError (Option (RawWriter G))))
    (h : Handover G) : Prop :=
  ∀ w, r = some (.ok (some w)) → Inherits pid w h

theorem bind_new {bid : Bid} (ha : bid.alive pid.val) (me : Pid) (name : String) {header : Header}
    (hs : Seen pid header.writeIndex header.lastEntrySeq h) :
    Valid newExec (newSide G) (Constructed pid) (bid.bind G me name header) h := by
  unfold Bid.bind bindWriter
  refine Valid.bind (Valid.bind ((claimRole_new ha me _ name _ hs).mono fun r h₁ ⟨hs₁, hr⟩ => ?_))
  match r, hr with
  | none, _ => exact nofun
  | some (.error _), _ => exact nofun
  | some (.ok ()), hr =>
    refine ((attach_new hs₁ (hr rfl)).mono fun w h₂ hw => ?_).bind
    rintro _ ⟨⟩
    exact hw

/-- The checks hand the header on as it was read. -/
theorem Snapshot.checked {header : Header} (hr : Snapshot pid (.ok (some header)) h)
    {e : Except ZeroChannelError (Option Header)} (he : ∀ x, e = .ok (some x) → x = header) :
    Snapshot pid e h := by
  intro x hx
  obtain rfl := he x hx
  exact hr _ rfl

theorem acceptHeader_new (alive : ℕ → Bool) (payloadBytes entryCount : ℕ) (dtype : Dtype)
    (hb : h.released = false → h.hist.seg.hdr .writerOwner = pid.val) :
    Valid newExec (newSide G) (Snapshot pid)
      (acceptHeader (segMapping G alive) payloadBytes entryCount dtype) h := by
  unfold acceptHeader
  refine ((readHeader_new hb).mono fun r h₁ hr => ?_).bind
  match r, hr with
  | .error _, _ => exact nofun
  | .ok none, _ => exact nofun
  | .ok (some header), hr =>
    refine hr.checked fun x hx => ?_
    cases hv : validateHeader header payloadBytes entryCount <;>
      cases hd : checkDtype header dtype <;> simp_all [bind, Except.bind, pure, Except.pure]

theorem attachHeader_new (alive : ℕ → Bool) (dtype : Dtype)
    (hb : h.released = false → h.hist.seg.hdr .writerOwner = pid.val) :
    Valid newExec (newSide G) (Snapshot pid) (attachHeader (segMapping G alive) dtype) h := by
  unfold attachHeader
  refine ((readHeader_new hb).mono fun r h₁ hr => ?_).bind
  match r, hr with
  | .error _, _ => exact nofun
  | .ok none, _ => exact nofun
  | .ok (some header), hr =>
    refine hr.checked fun x hx => ?_
    split_ifs at hx
    · cases hx
    · cases hd : checkDtype header dtype <;> simp_all [bind, Except.bind, pure, Except.pure]

/-- **The construction of the successor**, whatever the first writer does meanwhile. -/
theorem construct_new {bid : Bid} (ha : bid.alive pid.val) (me : Pid) (name : String)
    (hb : h.released = false → h.hist.seg.hdr .writerOwner = pid.val) :
    Valid newExec (newSide G) (Constructed pid) (bid.construct G me name) h := by
  unfold Bid.construct
  split
  · split
    · exact nofun
    · refine ((acceptHeader_new bid.alive _ _ bid.dtype hb).mono fun r h₁ hr => ?_).bind
      match r, hr with
      | .error _, _ => exact nofun
      | .ok none, _ => exact nofun
      | .ok (some header), hr =>
        refine ((claimSegment_new bid.alive me bid.fuel (hr _ rfl)).mono fun d h₂ hs₂ => ?_).bind
        match d with
        | none => exact nofun
        | some _ => exact bind_new ha me name hs₂
  · refine ((attachHeader_new bid.alive bid.dtype hb).mono fun r h₁ hr => ?_).bind
    match r, hr with
    | .error _, _ => exact nofun
    | .ok none, _ => exact nofun
    | .ok (some header), hr => exact bind_new ha me name (hr _ rfl)

end Handover

/-! ## Runs -/

section
variable {name : String} {pid₁ pid₂ : Pid}

/-- What holds of each writer between its calls. -/
def handoverIdle (G : Geometry) (name : String) (pid₁ pid₂ : Pid) :
    ∀ t, (handover G name pid₁ pid₂).Loc t → Handover G → Prop
  | .old, l, h => Handover.Rest l.writer h ∧ h.released = !l.bound
  | .new, l, h => ∀ w, l = some w → Handover.Inherits pid₁ w h

/-- **The proof outline**, for runs of fewer than `2 ^ 63` writes. -/
def handoverOutline (G : Geometry) (name : String) (pid₁ pid₂ : Pid) :
    (handover G name pid₁ pid₂).Outline fun _ _ s' => s'.mem.hist.log.length < 2 ^ 63 where
  glob h := h.released = false → h.hist.seg.hdr .writerOwner = pid₁.val
  con
    | .old => Handover.oldSide G
    | .new => Handover.newSide G
  idle t _ := handoverIdle G name pid₁ pid₂ t
  post t _ _ r := handoverIdle G name pid₁ pid₂ t r.2
  refl
    | .old, _, h, _ => Handover.Quiet.refl h
    | .new, _, h, _ => Handover.Follows.refl h
  trans
    | .old, _, _, _, _, h, h' => Handover.Quiet.trans h h'
    | .new, _, _, _, _, h, h' => Handover.Follows.trans h h'
  keep
    | .old, _, _, _, ⟨_, hf⟩, hg => fun hr => (hf.role hr).trans (hg (hf.not_released hr))
    | .new, _, h, _, ⟨hq, ho⟩, hg => fun hr => by
      have hr' : h.released = false := hq.released.symm.trans hr
      exact (ho.resolve_left (by simp [hr'])).trans (hg hr')
  enter
    | .old, _, .write data, l, p, h, _, ⟨hR, hb⟩, hp => by
      simp only [handover] at hp
      split_ifs at hp with hl
      cases hp
      refine ((Handover.write_old data hR (by rw [hb, hl]; rfl)).mono fun r h' ⟨hR', hb'⟩ => ?_).bind
      exact ⟨hR', by simpa [hl] using hb'⟩
    | .old, _, .drop, l, p, h, _, ⟨hR, hb⟩, hp => by
      simp only [handover] at hp
      split_ifs at hp with hl
      cases hp
      refine ((Handover.drop_old hR (by rw [hb, hl]; rfl)).mono fun _ h' ⟨hR', hb'⟩ => ?_).bind
      exact ⟨hR', hb'⟩
    | .new, _, bid, l, p, h, hg, _, hp => by
      simp only [handover] at hp
      split_ifs at hp with hl
      cases hp
      refine ((Handover.construct_new hl.2 pid₂ name hg).mono fun r h' hr => ?_).bind
      intro w hw
      match r, hr with
      | none, _ => cases hw
      | some (.error _), _ => cases hw
      | some (.ok _), hr =>
        cases hw
        exact hr w rfl
  ret _ _ _ _ _ h := h
  idle_env
    | .old, _, _, _, _, ⟨hR, hb⟩, hq => ⟨hR.quiet hq, hq.released.trans hb⟩
    | .new, _, _, _, _, hi, hf => fun w hw => (hi w hw).follows hf
  post_env
    | .old, _, _, _, _, _, ⟨hR, hb⟩, hq => ⟨hR.quiet hq, hq.released.trans hb⟩
    | .new, _, _, _, _, _, hi, hf => fun w hw => (hi w hw).follows hf
  ok
    | _, .old, _, _, h => h
    | _, .new, _, _, _ => trivial
  compat
    | _, .old, _, .old, _, _, _, hu, _, _, _, _ => absurd rfl hu
    | _, .old, _, .new, _, _, _, _, _, _, _, ⟨_, hf⟩ => hf
    | _, .new, _, .old, _, _, _, _, _, _, _, ⟨hq, _⟩ => hq
    | _, .new, _, .new, _, _, _, hu, _, _, _, _ => absurd rfl hu

/-! The ring the first writer starts with. -/

/-- Writes, and successions of writers. -/
def Session.writes {ι : Type} : Call G ι → Bool
  | .write _ | .reattach => true
  | _ => false

theorem Session.tracks_reach {ι : Type} [DecidableEq ι] {dtype : Dtype} {owner : ℕ}
    {s : Session G ι} (h : Reach step (fun _ c _ => writes c) (init G ι dtype owner) s)
    (hn : s.mem.log.length < 2 ^ 63 - 1) : ∃ t, s.Tracks t ∧ t.building = none := by
  refine (h.bounded (fun s => s.mem.log.length) (fun _ _ _ => step_log) hn).inv
    (I := fun s => ∃ t, s.Tracks t ∧ t.building = none) ⟨_, .init dtype owner, rfl⟩ ?_
  rintro s c s' ⟨t, hT, hb⟩ hs ⟨hc, hlen⟩
  have hlt : t.entries.length < 2 ^ 63 := by
    have := step_log hs
    rw [← hT.log]
    omega
  obtain ⟨⟨a, s₁⟩, hcall, rfl⟩ := Option.map_eq_some_iff.1 hs
  cases c with
  | write data =>
    have hlog : ∃ a, s.logCall (.write data) = some (a, s₁) := by
      simp only [logCall, hT.idle hb, List.isEmpty_nil, if_true, hcall]
      simp only [call] at hcall
      cases hcall
      exact ⟨_, rfl⟩
    obtain ⟨a, hlog⟩ := hlog
    obtain ⟨t', ht, hT'⟩ := hT.step hlt hlog hlen
    refine ⟨t', hT', ?_⟩
    cases ht <;> exact hb
  | reattach =>
    have hlog : s.logCall .reattach = some (.done, s₁) := by
      simp [logCall, hT.idle hb, hcall]
    obtain ⟨t', ht, hT'⟩ := hT.step hlt hlog hlen
    refine ⟨t', hT', ?_⟩
    cases ht
    exact hb
  | _ => cases hc

theorem handoverOutline_init {ι : Type} [DecidableEq ι] {dtype : Dtype} {owner : ℕ}
    {s : Session G ι}
    (h : Reach Session.step (fun _ c _ => Session.writes c) (.init G ι dtype owner) s)
    (hn : s.mem.log.length < 2 ^ 63 - 1) :
    (handoverOutline G name pid₁ pid₂).Holds (handoverInit s name pid₁ pid₂) := by
  obtain ⟨t, hT, hb⟩ := Session.tracks_reach h hn
  refine ⟨fun _ => Segment.setHdr_self _ _ _, fun u => ?_⟩
  cases u with
  | old =>
    refine ⟨⟨t.oldest, t.entries.length, ⟨hT.window, ?_, ?_, ?_, Nat.zero_le _⟩, ?_, hT.writer⟩, rfl⟩
    · exact (Segment.setHdr_ne _ (by decide) _).trans hT.index
    · exact (Segment.setHdr_ne _ (by decide) _).trans hT.last
    · exact congrArg _ hT.log
    · have := G.count_pos
      simp only [Log.oldest, hb]
      simp
      omega
  | new =>
    intro w hw
    cases hw

theorem Handover.oldExec_log (data : List UInt8) (o : SegOp G) (h : Handover G) :
    h.hist.log.length ≤ (oldExec data o h).2.hist.log.length ∧
      (oldExec data o h).2.hist.log.length ≤ h.hist.log.length + 1 := by
  cases o <;> simp [oldExec, Hist.writerExec]

theorem handover_log {s s' : (handover G name pid₁ pid₂).Conf}
    {a : (handover G name pid₁ pid₂).Act} (h : Pool.step s a = some s') :
    s.mem.hist.log.length ≤ s'.mem.hist.log.length := by
  rcases Pool.step_cases h with ⟨_, _, _, _, -, -, -, rfl⟩ | ⟨_, _, _, _, -, -, rfl⟩ |
    ⟨t, c, o, k, -, -, rfl⟩
  · exact le_rfl
  · exact le_rfl
  · match t, c with
    | .old, .write data => exact (Handover.oldExec_log data o s.mem).1
    | .old, .drop => exact (Handover.oldExec_log [] o s.mem).1
    | .new, _ => cases o <;> exact le_rfl

/-! ## What the successor starts with -/

/-- Recovery from a snapshot, at rest. -/
theorem Handover.Ring.resumed_iff {h : Handover G} {lo n j l : ℕ} (hR : h.Ring lo n n n)
    (hlo : lo ≤ max 1 n) (hs : Seen pid₁ j l h) :
    (resumed h.hist.seg.words j l).lastEntrySeq = n ∧
      (resumed h.hist.seg.words j l = ⟨G.slot n, n⟩ ↔ h.late % G.entryCount ≤ 1) := by
  have hcount : recoveredSeq h.hist.seg.words l = n := by
    refine recoveredSeq_eq (hR.last ▸ hs.last) (fun i => ?_) ?_
    · have := hR.window.range i
      omega
    · rcases Nat.eq_zero_or_pos n with rfl | hpos
      · exact Or.inl (Nat.le_zero.1 (hR.last ▸ hs.last))
      · exact Or.inr ⟨G.slot (n - 1), by rw [hR.window.present n (by omega) le_rfl]; rfl⟩
  refine ⟨by rw [resumed_lastEntrySeq, hcount], ?_⟩
  have hslot : G.slot n = G.slot (j + h.late) := by
    rw [← hs.index, hR.index, G.slot_self]
  -- the newest entry is in the slot of the snapshot exactly if the cursor was one behind
  have hnew : ((h.hist.seg.words (G.slot j)).natAbs ≠ 0 ∧
      (h.hist.seg.words (G.slot j)).natAbs = recoveredSeq h.hist.seg.words l) ↔
      0 < n ∧ G.slot j = G.slot (n - 1) := by
    rw [hcount]
    constructor
    · rintro ⟨h0, he⟩
      have hr := hR.window.range (G.slot j)
      have hw : h.hist.seg.words (G.slot j) = n := by omega
      exact ⟨by omega, (hR.window.slot_of (by omega) hw).2.2⟩
    · rintro ⟨hpos, he⟩
      rw [he, hR.window.present n (by omega) le_rfl]
      exact ⟨by omega, rfl⟩
  unfold resumed
  dsimp only
  rw [hcount] at hnew ⊢
  by_cases hat : 0 < n ∧ G.slot j = G.slot (n - 1)
  · rw [if_pos (hnew.2 hat), G.slot_val, slot_mod_add]
    obtain ⟨hpos, hj⟩ := hat
    have hlate : 1 ≡ h.late [MOD G.entryCount] := by
      refine Nat.ModEq.add_left_cancel' (n - 1) ?_
      rw [Nat.sub_add_cancel hpos]
      exact slot_eq_iff.1 (hslot.trans (slot_add_congr hj _))
    refine iff_of_true ?_ ?_
    · rw [slot_add_congr hj, Nat.sub_add_cancel hpos]
    · exact hlate.symm.le.trans (Nat.mod_le _ _)
  · rw [if_neg (hnew.not.2 hat)]
    constructor
    · intro he
      have hj : G.slot (j + 0) = G.slot (j + h.late) := (RawWriter.mk.inj he).1.trans hslot
      have hlate := Nat.ModEq.add_left_cancel' j (slot_eq_iff.1 hj)
      exact hlate.symm.le.trans ((Nat.mod_le _ _).trans (Nat.zero_le 1))
    · intro hle
      have hzero : h.late % G.entryCount = 0 := by
        by_contra hne
        -- one store behind is one slot behind, unless nothing was ever stored
        have hone : h.late ≡ 1 [MOD G.entryCount] := by
          have hlt := Nat.mod_lt h.late G.count_pos
          rw [Nat.ModEq, Nat.mod_eq_of_lt (show 1 < G.entryCount by omega)]
          omega
        have hpos : 0 < n := by
          have := hR.late
          rcases Nat.eq_zero_or_pos n with rfl | hpos
          · rw [Nat.le_zero.1 this, Nat.zero_mod] at hne
            exact absurd rfl hne
          · exact hpos
        refine hat ⟨hpos, slot_eq_iff.2 (Nat.ModEq.add_right_cancel' 1 ?_)⟩
        rw [Nat.sub_add_cancel hpos]
        exact (hone.symm.add_left j).trans (slot_eq_iff.1 hslot).symm
      have hj : G.slot j = G.slot (j + h.late) :=
        slot_eq_iff.2 (Nat.ModEq.add_left j (show 0 ≡ h.late [MOD G.entryCount] by
          rw [Nat.ModEq, hzero, Nat.zero_mod]))
      rw [hj, hslot]

/-- The first writer has given up the role, with `w` its last state. -/
def Retired (s : (handover G name pid₁ pid₂).Conf) (w : RawWriter G) : Prop :=
  s.ctl .old = .idle ⟨w, false⟩ ∨
    ∃ c o, s.ctl .old = .busy c (.pure (o, ⟨w, false⟩))

/-- **What a successor starts with.**  In every run from a ring left by earlier
    writes, of fewer than `2 ^ 63 - 1` writes in all: when the successor is bound, the
    first writer has given up the role; the successor's count is its count, and the two
    writers are equal if and only if the stores of `write_index` made since the
    successor loaded it are, counted around the ring, at most one. -/
theorem handover_resumes {ι : Type} [DecidableEq ι] {dtype : Dtype} {owner : ℕ}
    {s₀ : Session G ι} {s : (handover G name pid₁ pid₂).Conf} {w₂ : RawWriter G}
    (h₀ : Reach Session.step (fun _ c _ => Session.writes c) (.init G ι dtype owner) s₀)
    (h : Reach Pool.step (fun _ _ _ => True) (handoverInit s₀ name pid₁ pid₂) s)
    (hn : s.mem.hist.log.length < 2 ^ 63 - 1) (hw : s.ctl .new = .idle (some w₂)) :
    ∃ w₁, Retired s w₁ ∧ w₂.lastEntrySeq = w₁.lastEntrySeq ∧
      (w₂ = w₁ ↔ s.mem.late % G.entryCount ≤ 1) := by
  have hR := h.bounded (fun s => s.mem.hist.log.length) (fun _ _ _ => handover_log) hn
  have hn₀ : s₀.mem.log.length < 2 ^ 63 - 1 := by
    refine lt_of_le_of_lt ?_ hn
    exact h.inv (I := fun s => s₀.mem.log.length ≤ s.mem.hist.log.length) le_rfl
      fun _ _ _ hle hs _ => hle.trans (handover_log hs)
  have hL := (handoverOutline G name pid₁ pid₂).reach (handoverOutline_init h₀ hn₀)
    (hR.mono fun _ _ _ hp => show _ < _ by have := hp.2; omega)
  obtain ⟨hrel, j, l, hs, rfl⟩ :=
    (handoverOutline G name pid₁ pid₂).at_idle (hL.2 .new) hw w₂ rfl
  -- the first writer is idle, or has only to return
  obtain ⟨w₁, hret, hrest⟩ : ∃ w₁, Retired s w₁ ∧ Handover.Rest w₁ s.mem := by
    rcases hc : s.ctl .old with ⟨w₁, bound⟩ | ⟨c, p⟩
    · obtain ⟨hrest, hb⟩ := (handoverOutline G name pid₁ pid₂).at_idle (hL.2 .old) hc
      rw [hrel] at hb
      obtain rfl : bound = false := by simpa using hb.symm
      exact ⟨w₁, Or.inl hc, hrest⟩
    · have hv := (handoverOutline G name pid₁ pid₂).at_busy (hL.2 .old) hc
      match p, hv, hc with
      | .pure (o, ⟨w₁, bound⟩), ⟨hrest, hb⟩, hc =>
        rw [hrel] at hb
        obtain rfl : bound = false := by simpa using hb.symm
        exact ⟨w₁, Or.inr ⟨c, o, hc⟩, hrest⟩
      | .op o k, hv, _ =>
        -- the next operation would come after the release
        have hok : (Handover.oldSide G).ok ((handover G name pid₁ pid₂).exec .old c o s.mem).2 := by
          match c with
          | .write data =>
            exact (Handover.oldExec_log data o s.mem).2.trans_lt (by omega)
          | .drop => exact (Handover.oldExec_log [] o s.mem).2.trans_lt (by omega)
        have hg := (hv s.mem (Handover.Quiet.refl _) hok).1.1
        rw [hrel] at hg
        cases hg
  obtain ⟨lo, n, hring, hlo, rfl⟩ := hrest
  obtain ⟨hseq, hiff⟩ := hring.resumed_iff hlo hs
  exact ⟨_, hret, hseq, hiff⟩

/-- The successor loads the cursor, the first writer writes once and goes: the
    successor goes on where it stopped. -/
theorem handover_resumes_once : ∃ (s : (handover (.tiny 2) "ch" ⟨7, by decide, by decide⟩
      ⟨8, by decide, by decide⟩).Conf) (w : RawWriter (.tiny 2)),
    s.ctl .new = .idle (some w) ∧ s.mem.late = 1 ∧ Retired s w := by
  have hrun : (steps Pool.step (fun _ _ => true)
      (handoverInit (Session.init (.tiny 2) Unit .u8 7) "ch" ⟨7, by decide, by decide⟩
        ⟨8, by decide, by decide⟩)
      (List.flatten [Pool.burst .new ⟨none, .u8, fun pid => pid = 7, 1⟩ 4,
        Pool.burst .old (.write (List.replicate 8 1)) 14, Pool.burst .old .drop 2,
        List.replicate 8 (.move .new)])).map (fun s =>
          (((s.ctl .new).idle? : Option (Option (RawWriter (.tiny 2)))), s.mem.late,
            s.mem.hist.log.length)) =
      some (some (some ⟨Geometry.slot _ 1, 1⟩), 1, 1) := by decide +kernel
  obtain ⟨s, hs, he⟩ := reach_eval hrun
  obtain ⟨hw, he⟩ := Prod.mk.inj he
  obtain ⟨hlate, hlog⟩ := Prod.mk.inj he
  have hnew := Pool.Ctl.idle?_eq.1 hw
  obtain ⟨w₁, hret, -, hiff⟩ := handover_resumes .refl (hs.mono fun _ _ _ _ => trivial)
    (by rw [hlog]; norm_num) hnew
  rw [← hiff.2 (by rw [hlate]; decide)] at hret
  exact ⟨s, _, hnew, hlate, hret⟩

/-- **A stale cursor**: between the successor's load of the cursor and its claim of the
    role, the first writer fills two slots of a ring of three and goes.  The successor
    resumes at slot 0, the first writer would have gone on at slot 2. -/
theorem handover_stale : ∃ (s : (handover (.tiny 2) "ch" ⟨7, by decide, by decide⟩
      ⟨8, by decide, by decide⟩).Conf) (w₁ w₂ : RawWriter (.tiny 2)),
    Reach Pool.step (fun _ _ _ => True)
      (handoverInit (Session.init (.tiny 2) Unit .u8 7) "ch" ⟨7, by decide, by decide⟩
        ⟨8, by decide, by decide⟩) s ∧
    Retired s w₁ ∧ s.ctl .new = .idle (some w₂) ∧
    w₁.currentIndex = Geometry.slot _ 2 ∧ w₂.currentIndex = Geometry.slot _ 0 := by
  have hrun : (steps Pool.step (fun _ _ => true)
      (handoverInit (Session.init (.tiny 2) Unit .u8 7) "ch" ⟨7, by decide, by decide⟩
        ⟨8, by decide, by decide⟩)
      (List.flatten [Pool.burst .new ⟨none, .u8, fun pid => pid = 7, 1⟩ 4,
        Pool.burst .old (.write (List.replicate 8 1)) 14,
        Pool.burst .old (.write (List.replicate 8 2)) 14, Pool.burst .old .drop 2,
        List.replicate 8 (.move .new)])).map (fun s =>
          (((s.ctl .old).idle? : Option (OldLoc (.tiny 2))),
            ((s.ctl .new).idle? : Option (Option (RawWriter (.tiny 2)))))) =
      some (some ⟨⟨Geometry.slot _ 2, 2⟩, false⟩, some (some ⟨Geometry.slot _ 0, 2⟩)) := by
    decide +kernel
  obtain ⟨s, hs, he⟩ := reach_eval hrun
  obtain ⟨hold, hnew⟩ := Prod.mk.inj he
  exact ⟨s, _, _, hs.mono fun _ _ _ _ => trivial, Or.inl (Pool.Ctl.idle?_eq.1 hold),
    Pool.Ctl.idle?_eq.1 hnew, rfl, rfl⟩

end

end ZeroChannel
