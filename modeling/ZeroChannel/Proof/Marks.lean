/-
  Slot words up to sign.

  A pin negates a word and a release restores it.  Recovery reads magnitudes, and
  those change only by a write (`plain_step`).
-/
import ZeroChannel.Proof.Calls
import ZeroChannel.Proof.Ring

namespace ZeroChannel

open Concur

variable {G : Geometry} {ι : Type}

/-- The magnitudes of the words: at most `n`, and no entry twice. -/
structure Marked (words : Slot G → ℤ) (n : ℕ) : Prop where
  le : ∀ i, (words i).natAbs ≤ n
  inj : ∀ i j, words i ≠ 0 → (words i).natAbs = (words j).natAbs → i = j

namespace Marked
variable {words words' : Slot G → ℤ} {n : ℕ} (h : Marked words n)
include h

theorem congr (hw : ∀ i, (words' i).natAbs = (words i).natAbs) : Marked words' n := by
  refine ⟨fun i => hw i ▸ h.le i, fun i j hi hij => h.inj i j ?_ ?_⟩
  · have := hw i
    omega
  · rw [← hw, ← hw, hij]

theorem clear {i : Slot G} (hw : ∀ j, words' j = if j = i then 0 else words j) :
    Marked words' n := by
  refine ⟨fun j => ?_, fun j k hj hjk => ?_⟩
  · have := h.le j
    rw [hw]
    split_ifs <;> omega
  · rw [hw] at hj
    rw [hw, hw] at hjk
    by_cases hji : j = i
    · exact absurd (if_pos hji) hj
    · rw [if_neg hji] at hj hjk
      split_ifs at hjk
      · omega
      · exact h.inj j k hj hjk

theorem store {i : Slot G} (hw : ∀ j, words' j = if j = i then ((n + 1 : ℕ) : ℤ) else words j) :
    Marked words' (n + 1) := by
  refine ⟨fun j => ?_, fun j k hj hjk => ?_⟩
  · have := h.le j
    rw [hw]
    split_ifs <;> omega
  · have hlej := h.le j
    have hlek := h.le k
    rw [hw] at hj
    rw [hw, hw] at hjk
    split_ifs at hj hjk with h₁ h₂ h₃
    · rw [h₁, h₂]
    · omega
    · omega
    · exact h.inj j k hj hjk

end Marked

/-! ## Calls -/

namespace Session

/-- Writes and the calls of readers. -/
def plain : Call G ι → Bool
  | .write _ | .attachReader _ | .readInto _ _ _ | .tryAcquire _ _ | .release _ => true
  | _ => false

/-- The two sessions differ in the signs of words, and in what readers know. -/
structure Same (s s' : Session G ι) : Prop where
  marks : ∀ i, (s'.mem.seg.words i).natAbs = (s.mem.seg.words i).natAbs
  hdr : s'.mem.seg.hdr = s.mem.seg.hdr
  log : s'.mem.log = s.mem.log
  nums : s'.mem.nums = s.mem.nums
  writer : s'.writer = s.writer

theorem Same.refl (s : Session G ι) : s.Same s := ⟨fun _ => rfl, rfl, rfl, rfl, rfl⟩

theorem Same.trans {s₁ s₂ s₃ : Session G ι} (h : s₁.Same s₂) (h' : s₂.Same s₃) : s₁.Same s₃ :=
  ⟨fun i => (h'.marks i).trans (h.marks i), h'.hdr.trans h.hdr, h'.log.trans h.log,
    h'.nums.trans h.nums, h'.writer.trans h.writer⟩

/-- **A plain call** publishes an entry, or leaves the magnitudes alone. -/
theorem plain_step [DecidableEq ι] {s s' : Session G ι} {c : Call G ι} (hP : s.Pinned)
    (hc : plain c) (h : s.step c = some s') :
    s'.Pinned ∧ ((∃ i data, c = .write data ∧ data.length = G.payloadBytes ∧
      free? s.mem.seg.words s.writer.currentIndex.val G.entryCount = some i ∧
        s' = s.wrote i data) ∨ s.Same s') := by
  cases step_effect hP h with
  | quiet _ hw =>
    refine ⟨⟨hP.lt, hP.pin, hP.nodup⟩, Or.inr ⟨fun _ => rfl, rfl, rfl, rfl, ?_⟩⟩
    rcases hw with hw | rfl
    · exact hw
    · cases hc
  | @write i data hlen hcl =>
    simp only [claims, hlen, if_true] at hcl
    exact ⟨hP.wrote (free?_nonneg hcl) data, Or.inl ⟨i, data, rfl, hlen, hcl, rfl⟩⟩
  | @tryAcquire r f i n hn hlt hi =>
    refine ⟨hP.pinned hn hlt hi _, Or.inr ⟨fun j => ?_, rfl, rfl, rfl, rfl⟩⟩
    simp only [Hist.pinned_words]
    split_ifs with hj
    · subst hj
      rw [hi, Int.natAbs_neg]
    · rfl
  | @release x hx =>
    refine ⟨hP.released hx, Or.inr ⟨fun j => ?_, rfl, rfl, rfl, rfl⟩⟩
    simp only [Hist.released_words]
    split_ifs with hj
    · subst hj
      rw [(hP.pin x hx).2.2, Int.natAbs_neg]
    · rfl
  | acquire | fill | commit | abandon => cases hc

theorem Pinned.init (dtype : Dtype) (owner : ℕ) : (init G ι dtype owner).Pinned where
  lt i := by simp [Session.init, start, Segment.init]
  pin x hx := by cases hx
  nodup := List.nodup_nil

/-- Runs of plain calls: the writer counts the publishes, modulo `2 ^ 64`, and no word has a
    larger magnitude. -/
theorem plain_reach [DecidableEq ι] {dtype : Dtype} {owner : ℕ} {s : Session G ι}
    (h : Reach step (fun _ c _ => plain c) (init G ι dtype owner) s) :
    s.Pinned ∧ s.writer.lastEntrySeq = u64 s.mem.log.length ∧
      ∀ i, (s.mem.seg.words i).natAbs ≤ s.mem.log.length := by
  refine h.inv (I := fun s => s.Pinned ∧ s.writer.lastEntrySeq = u64 s.mem.log.length ∧
    ∀ i, (s.mem.seg.words i).natAbs ≤ s.mem.log.length) ⟨.init dtype owner, rfl, fun _ => le_rfl⟩ ?_
  rintro s c s' ⟨hP, hcount, hle⟩ hs hc
  obtain ⟨hP', ⟨k, data, -, -, -, rfl⟩ | hS⟩ := plain_step hP hc hs
  · have hlog : (s.wrote k data).mem.log.length = s.mem.log.length + 1 := by simp [wrote]
    refine ⟨hP', ?_, fun i => ?_⟩
    · rw [hlog]
      simp only [wrote, RawWriter.next, hcount, u64]
      omega
    · have := hle i
      rw [wrote_words, hlog, hcount]
      split_ifs
      · unfold asI64 u64
        split_ifs <;> omega
      · omega
  · rw [hS.writer, hS.log]
    exact ⟨hP', hcount, fun i => hS.marks i ▸ hle i⟩

/-- Calls of readers. -/
def reading : Call G ι → Bool
  | .attachReader _ | .readInto _ _ _ | .tryAcquire _ _ | .release _ => true
  | _ => false

theorem plain_of_reading {c : Call G ι} (hc : reading c) : plain c := by
  cases c with
  | attachReader | readInto | tryAcquire | release => rfl
  | write | acquire | fill | commit | abandon | reattach => cases hc

/-- Calls of readers only. -/
theorem reading_reach [DecidableEq ι] {s s' : Session G ι} (hP : s.Pinned)
    (h : Reach step (fun _ c _ => reading c) s s') : s'.Pinned ∧ s.Same s' := by
  refine h.inv (I := fun t => t.Pinned ∧ s.Same t) ⟨hP, .refl s⟩ ?_
  rintro t c t' ⟨hPt, hS⟩ hs hc
  obtain ⟨hP', ⟨i, data, rfl, -⟩ | hS'⟩ := plain_step hPt (plain_of_reading hc) hs
  · cases hc
  · exact ⟨hP', hS.trans hS'⟩

end Session

end ZeroChannel
