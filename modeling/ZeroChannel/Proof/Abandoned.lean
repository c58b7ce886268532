/-
  Write handles that are dropped.

  Dropping a handle leaves the cursor where it is, so the next claim goes over the same
  slots again.  It ends in the same slot unless one of those skipped the first time has
  been released meanwhile (`abandoned_reclaimed`, `abandoned_left`).
-/
import ZeroChannel.Proof.Retention
import ZeroChannel.Proof.Represents

namespace ZeroChannel

open Concur

variable {G : Geometry} {ι : Type}

namespace Session

/-- What may happen while a handle is filled. -/
def filling : Call G ι → Bool
  | .fill _ _ _ => true
  | c => reading c

/-- What publishes nothing: calls of readers, and handles acquired, filled and dropped. -/
def withholding : Call G ι → Bool
  | .acquire | .abandon _ => true
  | c => filling c

/-- Slot `j` is skipped by a claim that takes slot `i`. -/
def Skipped (s : Session G ι) (i j : Slot G) : Prop :=
  ahead s.writer.currentIndex j < ahead s.writer.currentIndex i

section
variable [DecidableEq ι]

/-- The next publish, by a write or by the commit of a new handle. -/
inductive NextPublish (s : Session G ι) : Session G ι → Prop
  | write {data s'} : s.orderly (.write data) → s.step (.write data) = some s' →
      s'.mem.log.length = s.mem.log.length + 1 → NextPublish s s'
  | commit {t t' x s'} : s.orderly .acquire → s.step .acquire = some t →
      Reach step (fun _ c _ => filling c) t t' → t'.step (.commit x) = some s' → NextPublish s s'

/-- Runs of writes and calls of readers are represented, with no write handle out. -/
theorem represents_plain {dtype : Dtype} {owner : ℕ} {s : Session G ι}
    (h : Reach step (fun _ c _ => plain c) (init G ι dtype owner) s)
    (hn : s.mem.log.length < 2 ^ 63 - 1) : s.Represents ∧ s.writeHandles = [] := by
  refine (h.bounded (fun s => s.mem.log.length) (fun _ _ _ => step_log) hn).inv
    (I := fun s => s.Represents ∧ s.writeHandles = []) ⟨.init dtype owner, rfl⟩ ?_
  rintro s c s' ⟨hR, hh⟩ hs ⟨hc, hn⟩
  have horderly : s.orderly c := by
    cases c with
    | write | acquire | reattach => exact List.isEmpty_iff.2 hh
    | fill | commit | abandon | attachReader | readInto | tryAcquire | release => rfl
  refine ⟨hR.step hs horderly (by omega), ?_⟩
  cases step_effect hR.toPinned hs with
  | quiet | write | tryAcquire | release => exact hh
  | acquire | fill | commit | abandon => cases hc

/-! ## Calls that publish nothing -/

theorem filling_step {s s' : Session G ι} {c : Call G ι} (hP : s.Pinned) (hc : filling c)
    (h : s.step c = some s') : s'.Pinned ∧ s.Same s' ∧ s'.writeHandles = s.writeHandles := by
  cases step_effect hP h with
  | fill hx => exact ⟨⟨hP.lt, hP.pin, hP.nodup⟩, ⟨fun _ => rfl, rfl, rfl, rfl, rfl⟩, rfl⟩
  | quiet _ hw =>
    rcases hw with hw | rfl
    · exact ⟨⟨hP.lt, hP.pin, hP.nodup⟩, ⟨fun _ => rfl, rfl, rfl, rfl, hw⟩, rfl⟩
    · cases hc
  | tryAcquire | release =>
    obtain ⟨hP', ⟨k, d, hcall, -⟩ | hS⟩ := plain_step hP rfl h
    · cases hcall
    · exact ⟨hP', hS, rfl⟩
  | write | acquire | commit | abandon => cases hc

theorem filling_reach {s s' : Session G ι} (hP : s.Pinned)
    (h : Reach step (fun _ c _ => filling c) s s') :
    s'.Pinned ∧ s.Same s' ∧ s'.writeHandles = s.writeHandles := by
  refine h.inv (I := fun t => t.Pinned ∧ s.Same t ∧ t.writeHandles = s.writeHandles)
    ⟨hP, .refl s, rfl⟩ ?_
  rintro t c t' ⟨hPt, hS, hh⟩ hs hc
  obtain ⟨hP', hS', hh'⟩ := filling_step hPt hc hs
  exact ⟨hP', hS.trans hS', hh'.trans hh⟩

/-- Since the claim of slot `i` in `s` nothing was published, and no slot was cleared
    beyond it. -/
structure Withheld (s : Session G ι) (i : Slot G) (t : Session G ι) : Prop where
  represents : t.Represents
  writer : t.writer = s.writer
  hdr : t.mem.seg.hdr = s.mem.seg.hdr
  log : t.mem.log = s.mem.log
  clear : t.mem.seg.words i = 0
  words : ∀ k, (t.mem.seg.words k).natAbs = (s.mem.seg.words k).natAbs ∨
    t.mem.seg.words k = 0 ∧ (k = i ∨ s.Skipped i k)

section
variable {s t t' : Session G ι} {i : Slot G}

omit [DecidableEq ι] in
/-- The next claim takes slot `i` or a slot skipped before it. -/
theorem Withheld.claims (h : s.Withheld i t) {k : Slot G}
    (hf : free? t.mem.seg.words t.writer.currentIndex.val G.entryCount = some k) :
    k = i ∨ s.Skipped i k := by
  have hle : ahead s.writer.currentIndex k ≤ ahead s.writer.currentIndex i := by
    rw [← h.writer]
    by_contra hlt
    have := (free?_nearest hf).2 i (not_le.1 hlt)
    rw [h.clear] at this
    exact lt_irrefl 0 this
  exact (eq_or_lt_of_le hle).imp ahead_inj id

omit [DecidableEq ι] in
/-- Slots whose words keep their magnitudes. -/
theorem Withheld.same (h : s.Withheld i t) (hR : t'.Represents) (hS : t.Same t') :
    s.Withheld i t' where
  represents := hR
  writer := hS.writer.trans h.writer
  hdr := hS.hdr.trans h.hdr
  log := hS.log.trans h.log
  clear := by
    have := hS.marks i
    rw [h.clear] at this
    omega
  words k := by
    have := hS.marks k
    rcases h.words k with hk | ⟨hk, hki⟩
    · exact Or.inl (this.trans hk)
    · exact Or.inr ⟨by omega, hki⟩

omit [DecidableEq ι] in
/-- A slot claimed and cleared. -/
theorem Withheld.acquired (h : s.Withheld i t) (hh : t.writeHandles = []) {k : Slot G}
    (hf : free? t.mem.seg.words t.writer.currentIndex.val G.entryCount = some k) :
    s.Withheld i (t.acquired k) := by
  have hw := acquired_words t k
  refine ⟨h.represents.acquired (free?_nonneg hf) hh, h.writer, h.hdr, h.log, ?_, fun j => ?_⟩
  · rw [hw, h.clear, ite_self]
  · rw [hw]
    split_ifs with hj
    · rw [hj]
      exact Or.inr ⟨rfl, h.claims hf⟩
    · exact h.words j

/-- One call. -/
theorem Withheld.step (h : s.Withheld i t) (hn : s.mem.log.length < 2 ^ 63) {c : Call G ι}
    (hc : withholding c) (ho : t.orderly c) (hs : t.step c = some t') : s.Withheld i t' := by
  cases c with
  | acquire =>
    have hh : t.writeHandles = [] := List.isEmpty_iff.1 ho
    rw [Session.step, call_acquire] at hs
    cases hf : free? t.mem.seg.words t.writer.currentIndex.val G.entryCount with
    | none =>
      rw [hf] at hs
      cases hs
      exact h
    | some k =>
      rw [hf] at hs
      cases hs
      exact h.acquired hh hf
  | abandon x =>
    simp only [Session.step, call] at hs
    split_ifs at hs with hx
    · cases hs
      exact ⟨h.represents.abandoned hx, h.writer, h.hdr, h.log, h.clear, h.words⟩
    · cases hs
  | fill | attachReader | readInto | tryAcquire | release =>
    obtain ⟨-, hS, -⟩ := filling_step h.represents.toPinned (by exact hc) hs
    exact h.same (h.represents.step hs ho (by rw [hS.log, h.log]; exact hn)) hS
  | write | commit | reattach => cases hc

omit [DecidableEq ι] in
/-- The claim itself. -/
theorem Withheld.start (hR : s.Represents) (hh : s.writeHandles = [])
    (hi : free? s.mem.seg.words s.writer.currentIndex.val G.entryCount = some i) :
    s.Withheld i (s.acquired i) := by
  have hw := acquired_words s i
  refine ⟨hR.acquired (free?_nonneg hi) hh, rfl, rfl, rfl, ?_, fun j => ?_⟩
  · rw [hw, if_pos rfl]
  · rw [hw]
    split_ifs with hj
    · exact Or.inr ⟨rfl, Or.inl hj⟩
    · exact Or.inl rfl

/-! ## The next publish -/

/-- The next publish stores its number in the slot of the last claim, and nowhere else. -/
theorem NextPublish.slot (hp : NextPublish t t') (hR : t.Represents)
    (hn : t.mem.log.length + 1 < 2 ^ 63) :
    ∃ p, free? t.mem.seg.words t.writer.currentIndex.val G.entryCount = some p ∧
      ∀ k, t'.mem.seg.words k = t'.mem.log.length ↔ k = p := by
  have hseq := hR.seq hn
  -- every other word is that of an older entry
  have hiff : ∀ {w : Slot G → ℤ} {p : Slot G}, (∀ k, (w k).natAbs ≤ t.mem.log.length) →
      (∀ k, t'.mem.seg.words k = if k = p then ((t.mem.log.length + 1 : ℕ) : ℤ) else w k) →
      t'.mem.log.length = t.mem.log.length + 1 →
      ∀ k, t'.mem.seg.words k = t'.mem.log.length ↔ k = p := by
    intro w p hw hwords hlog k
    rw [hwords, hlog]
    split_ifs with hk
    · exact iff_of_true rfl hk
    · have := hw k
      exact iff_of_false (by omega) hk
  cases hp with
  | write ho hs hlog =>
    obtain ⟨-, ⟨p, d, hc, -, hf, rfl⟩ | hS⟩ := plain_step hR.toPinned rfl hs
    · refine ⟨p, hf, hiff hR.marked.le (fun k => ?_) hlog⟩
      rw [wrote_words, hseq, asI64_of_lt hn]
    · rw [hS.log] at hlog
      omega
  | @commit t₁ t₂ x _ ho ha hfill hs =>
    have hh : t.writeHandles = [] := List.isEmpty_iff.1 ho
    rw [Session.step, call_acquire] at ha
    rw [Session.step, call_commit] at hs
    split_ifs at hs with hx
    swap
    · cases hs
    cases hs
    cases hf : free? t.mem.seg.words t.writer.currentIndex.val G.entryCount with
    | none =>
      rw [hf] at ha
      cases ha
      obtain ⟨-, -, hsame⟩ := filling_reach hR.toPinned hfill
      rw [hsame, hh] at hx
      cases hx
    | some p =>
      rw [hf] at ha
      cases ha
      have hR₁ := hR.acquired (free?_nonneg hf) hh
      obtain ⟨-, hS, hsame⟩ := filling_reach hR₁.toPinned hfill
      rw [hsame, Session.acquired, hh] at hx
      obtain rfl := List.mem_singleton.1 hx
      have hlog : t₂.mem.log = t.mem.log := hS.log
      have hwriter : t₂.writer = t.writer := hS.writer
      refine ⟨p, rfl, hiff (w := t₂.mem.seg.words) (fun k => ?_) (fun k => ?_) ?_⟩
      · exact (hS.marks k).trans_le (hR₁.marked.le k)
      · simp only [committed, Hist.published_words, hwriter, hseq, asI64_of_lt hn]
      · simp [committed, hlog]

/-- **Whether the next publish reclaims the slot of a dropped handle.**  After any
    sequence of writes, acquisitions and releases, the writer is handed slot `i` and drops
    the handle; readers go on, and the writer acquires and drops further handles.  The
    next publish goes into slot `i`, and no other slot has lost its entry, if and only if
    the slots skipped by the first claim are held when the last one is made. -/
theorem abandoned_reclaimed {dtype : Dtype} {owner : ℕ} {s s₁ s₂ s₃ : Session G ι} {i : Slot G}
    (h : Reach step (fun _ c _ => plain c) (init G ι dtype owner) s)
    (hn : s.mem.log.length < 2 ^ 63 - 1)
    (ha : s.call .acquire = some (.acquire (.ok ⟨i⟩), s₁))
    (hr : Reach step (fun t c _ => withholding c ∧ t.orderly c) s₁ s₂)
    (hp : NextPublish s₂ s₃) :
    (s₃.mem.seg.words i = s₃.mem.log.length ∧
      (∀ k, k ≠ i → (s₂.mem.seg.words k).natAbs = (s.mem.seg.words k).natAbs) ∧
      s₂.writer.lastEntrySeq = s.writer.lastEntrySeq ∧ s₂.mem.seg.hdr = s.mem.seg.hdr) ↔
      ∀ j, s.Skipped i j → s₂.mem.seg.words j < 0 := by
  obtain ⟨hR, hh⟩ := represents_plain h hn
  have hW₁ : s.Withheld i s₁ := by
    rw [call_acquire] at ha
    cases hf : free? s.mem.seg.words s.writer.currentIndex.val G.entryCount with
    | none =>
      rw [hf] at ha
      simp at ha
    | some k =>
      rw [hf] at ha
      simp only [Option.some.injEq, Prod.mk.injEq, Answer.acquire.injEq, Except.ok.injEq,
        WriteHandle.mk.injEq] at ha
      obtain ⟨rfl, rfl⟩ := ha
      exact .start hR hh hf
  have hW : s.Withheld i s₂ :=
    hr.inv hW₁ fun _ _ _ hW hs ⟨hc, ho⟩ => hW.step (by omega) hc ho hs
  obtain ⟨p, hf, hslot⟩ := hp.slot hW.represents (by rw [hW.log]; omega)
  constructor
  · rintro ⟨hi, -⟩ j hj
    obtain rfl := (hslot i).1 hi
    refine (free?_nearest hf).2 j ?_
    rw [hW.writer]
    exact hj
  · intro hskip
    refine ⟨(hslot i).2 ?_, fun k hk => ?_, by rw [hW.writer], hW.hdr⟩
    · -- the last claim takes slot `i`, as those before it are held
      rcases hW.claims hf with rfl | hpi
      · rfl
      · exact absurd (hskip p hpi) (not_lt.2 (free?_nonneg hf))
    · rcases hW.words k with hw | ⟨hw, rfl | hki⟩
      · exact hw
      · exact absurd rfl hk
      · have := hskip k hki
        omega

end

/-- Entry 1 is held throughout; the handle dropped twice is that of slot 1, and the next
    write goes there. -/
theorem abandoned_reclaimed_held : ∃ s s₂ s₃ : Session (.tiny 2) Unit,
    s.mem.seg.words (Geometry.slot _ 0) = -1 ∧ s₂.writer.lastEntrySeq = s.writer.lastEntrySeq ∧
    s₃.mem.seg.words (Geometry.slot _ 1) = s₃.mem.log.length := by
  have hrun : (steps step (fun _ c => plain c) (init (.tiny 2) Unit .u8 7)
      [.write (List.replicate 8 1), .write (List.replicate 8 2), .write (List.replicate 8 3),
        .tryAcquire () none]).bind (fun s => (s.call .acquire).bind fun r =>
      (steps step (fun t c => withholding c && t.orderly c) r.2 [.abandon ⟨Geometry.slot _ 1⟩,
        .acquire, .abandon ⟨Geometry.slot _ 1⟩]).bind fun s₂ =>
      (s₂.step (.write (List.replicate 8 4))).map fun s₃ =>
        ((s.mem.seg.words (Geometry.slot _ 0), s.writer.currentIndex, s.mem.log.length), r.1,
          (s₂.orderly (.write (List.replicate 8 4)), s₂.mem.seg.words (Geometry.slot _ 0)),
          s₂.mem.log.length, s₃.mem.log.length)) =
      some ((-1, Geometry.slot _ 0, 3), .acquire (.ok ⟨Geometry.slot _ 1⟩), (true, -1), 3, 4) := by
    decide +kernel
  obtain ⟨s, hs, hrun⟩ := Option.bind_eq_some_iff.1 hrun
  obtain ⟨⟨a, s₁⟩, ha, hrun⟩ := Option.bind_eq_some_iff.1 hrun
  obtain ⟨s₂, hs₂, hrun⟩ := Option.bind_eq_some_iff.1 hrun
  obtain ⟨s₃, hs₃, hrun⟩ := Option.map_eq_some_iff.1 hrun
  simp only [Prod.mk.injEq] at hrun
  obtain ⟨⟨hword, hcur, hlen⟩, rfl, ⟨ho, hheld⟩, hlen₂, hlen₃⟩ := hrun
  have hiff := abandoned_reclaimed (reach_of_steps .refl hs) (by rw [hlen]; norm_num) ha
    ((reach_of_steps .refl hs₂).mono fun _ _ _ hok => by simpa using hok)
    (.write ho hs₃ (by rw [hlen₂, hlen₃]))
  obtain ⟨hi, -, hlast, -⟩ := hiff.2 fun j hj => by
    -- the only slot skipped is slot 0
    have hj0 : ahead (Geometry.slot (.tiny 2) 0) j < ahead (Geometry.slot (.tiny 2) 0)
        (Geometry.slot _ 1) := hcur ▸ hj
    have hall : ∀ j : Slot (.tiny 2), ahead (Geometry.slot (.tiny 2) 0) j <
        ahead (Geometry.slot (.tiny 2) 0) (Geometry.slot _ 1) → j = Geometry.slot _ 0 := by decide
    rw [hall j hj0, hheld]
    norm_num
  exact ⟨s, s₂, s₃, hword, hlast, hi⟩

/-- **A slot left behind**: entry 1 is held when the writer is handed slot 1, and released
    after that handle is dropped.  The next handle is on slot 0; dropping it too leaves
    both slots empty, and the next write goes to slot 0. -/
theorem abandoned_left : ∃ s s₁ s₂ s₃ : Session (.tiny 2) Unit,
    Reach step (fun _ c _ => plain c) (init (.tiny 2) Unit .u8 7) s ∧
    s.call .acquire = some (.acquire (.ok ⟨Geometry.slot _ 1⟩), s₁) ∧
    Reach step (fun t c _ => withholding c ∧ t.orderly c) s₁ s₂ ∧ NextPublish s₂ s₃ ∧
    (s.mem.seg.words (Geometry.slot _ 0) = -1 ∧ s.mem.seg.words (Geometry.slot _ 1) = 2) ∧
    (s₂.mem.seg.words (Geometry.slot _ 0) = 0 ∧ s₂.mem.seg.words (Geometry.slot _ 1) = 0) ∧
    s₃.mem.seg.words (Geometry.slot _ 0) = 4 ∧ s₃.mem.seg.words (Geometry.slot _ 1) = 0 := by
  have hrun : (steps step (fun _ c => plain c) (init (.tiny 2) Unit .u8 7)
      [.write (List.replicate 8 1), .write (List.replicate 8 2), .write (List.replicate 8 3),
        .tryAcquire () none]).bind (fun s => (s.call .acquire).bind fun r =>
      (steps step (fun t c => withholding c && t.orderly c) r.2 [.abandon ⟨Geometry.slot _ 1⟩,
        .release ⟨Geometry.slot _ 0, 1⟩, .acquire, .abandon ⟨Geometry.slot _ 0⟩]).bind fun s₂ =>
      (s₂.step (.write (List.replicate 8 4))).map fun s₃ =>
        (((s.mem.seg.words (Geometry.slot _ 0), s.mem.seg.words (Geometry.slot _ 1)), r.1),
          ((s₂.mem.seg.words (Geometry.slot _ 0), s₂.mem.seg.words (Geometry.slot _ 1)),
            s₂.orderly (.write (List.replicate 8 4)), s₂.mem.log.length),
          s₃.mem.log.length, s₃.mem.seg.words (Geometry.slot _ 0),
          s₃.mem.seg.words (Geometry.slot _ 1))) =
      some (((-1, 2), .acquire (.ok ⟨Geometry.slot _ 1⟩)), ((0, 0), true, 3), 4, 4, 0) := by
    decide +kernel
  obtain ⟨s, hs, hrun⟩ := Option.bind_eq_some_iff.1 hrun
  obtain ⟨⟨a, s₁⟩, ha, hrun⟩ := Option.bind_eq_some_iff.1 hrun
  obtain ⟨s₂, hs₂, hrun⟩ := Option.bind_eq_some_iff.1 hrun
  obtain ⟨s₃, hs₃, hrun⟩ := Option.map_eq_some_iff.1 hrun
  simp only [Prod.mk.injEq] at hrun
  obtain ⟨⟨hword, rfl⟩, ⟨hword₂, ho, hlen₂⟩, hlen₃, hword₃⟩ := hrun
  exact ⟨s, s₁, s₂, s₃, reach_of_steps .refl hs, ha,
    (reach_of_steps .refl hs₂).mono fun _ _ _ hok => by simpa using hok,
    .write ho hs₃ (by rw [hlen₂, hlen₃]), hword, hword₂, hword₃⟩

end

end Session

end ZeroChannel
