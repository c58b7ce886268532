/-
  Exclusive write handles.

  Acquiring a handle does not advance the cursor, and the slot handed out reads as
  an empty one: the next claim takes it again (`handle_shared`).  In runs where no
  claim takes a slot that is handed out, each outstanding handle has a slot of its
  own, whose word is `0` (`writeHandles_exclusive`).
-/
import ZeroChannel.Proof.Calls

namespace ZeroChannel

open Concur

variable {G : Geometry} {ι : Type}

namespace Session

/-- The call claims a slot that is handed out. -/
def claimsHandedOut (s : Session G ι) (c : Call G ι) : Bool := match s.claims c with
  | none => false
  | some i => ⟨i⟩ ∈ s.writeHandles

theorem not_mem_of_claims {s : Session G ι} {c : Call G ι} {i : Slot G} (hc : s.claims c = some i)
    (h : !s.claimsHandedOut c) : ⟨i⟩ ∉ s.writeHandles := by
  simpa [claimsHandedOut, hc] using h

/-- A claimed slot is not held by a reader. -/
theorem claims_nonneg {s : Session G ι} {c : Call G ι} {i : Slot G} (hc : s.claims c = some i) :
    0 ≤ s.mem.seg.words i := by
  cases c with
  | write data =>
    simp only [claims] at hc
    split_ifs at hc
    exact free?_nonneg hc
  | acquire => exact free?_nonneg hc
  | _ => cases hc

/-- Each outstanding write handle has a slot of its own, marked in progress. -/
structure Exclusive (s : Session G ι) : Prop extends s.Pinned where
  zero : ∀ x ∈ s.writeHandles, s.mem.seg.words x.index = 0
  distinct : s.writeHandles.Nodup

namespace Exclusive
variable {s : Session G ι} (h : s.Exclusive)
include h

theorem wrote {i : Slot G} {data : List UInt8} (hi : 0 ≤ s.mem.seg.words i)
    (hn : ⟨i⟩ ∉ s.writeHandles) : (s.wrote i data).Exclusive := by
  refine ⟨h.toPinned.wrote hi data, fun x hx => ?_, h.distinct⟩
  rw [wrote_words, if_neg]
  · exact h.zero x hx
  · rintro rfl
    exact hn hx

theorem acquired {i : Slot G} (hi : 0 ≤ s.mem.seg.words i) (hn : ⟨i⟩ ∉ s.writeHandles) :
    (s.acquired i).Exclusive := by
  refine ⟨h.toPinned.acquired hi, fun x hx => ?_, ?_⟩
  · rw [acquired_words]
    split_ifs with hxi
    · rfl
    · rcases List.mem_append.1 hx with hx | hx
      · exact h.zero x hx
      · obtain rfl := List.mem_singleton.1 hx
        exact absurd rfl hxi
  · refine List.nodup_append.2 ⟨h.distinct, List.nodup_singleton _, fun x hx y hy e => ?_⟩
    obtain rfl := List.mem_singleton.1 hy
    exact hn (e ▸ hx)

theorem committed {x : WriteHandle G} (hx : x ∈ s.writeHandles) : (s.committed x).Exclusive := by
  refine ⟨h.toPinned.committed (h.zero x hx).ge, fun y hy => ?_, h.distinct.erase x⟩
  obtain ⟨hne, hy⟩ := h.distinct.mem_erase_iff.1 hy
  simp only [Session.committed, Hist.published_words]
  rw [if_neg fun e => hne (congrArg WriteHandle.mk e)]
  exact h.zero y hy

/-- The slot of a write handle holds no entry, pinned or not. -/
theorem ne_of_entry {x : WriteHandle G} (hx : x ∈ s.writeHandles) {i : Slot G}
    (hi : s.mem.seg.words i ≠ 0) : x.index ≠ i := by
  rintro rfl
  exact hi (h.zero x hx)

/-- One call. -/
theorem step [DecidableEq ι] {c : Call G ι} {s' : Session G ι} (hs : s.step c = some s')
    (hp : !s.claimsHandedOut c) : s'.Exclusive := by
  cases step_effect h.toPinned hs with
  | quiet => exact ⟨⟨h.lt, h.pin, h.nodup⟩, h.zero, h.distinct⟩
  | write _ hc => exact h.wrote (claims_nonneg hc) (not_mem_of_claims hc hp)
  | acquire hc => exact h.acquired (claims_nonneg hc) (not_mem_of_claims hc hp)
  | fill => exact ⟨⟨h.lt, h.pin, h.nodup⟩, h.zero, h.distinct⟩
  | commit hx => exact h.committed hx
  | abandon =>
    exact ⟨⟨h.lt, h.pin, h.nodup⟩, fun x hx => h.zero x (List.mem_of_mem_erase hx),
      h.distinct.erase _⟩
  | tryAcquire hn hlt hi =>
    refine ⟨h.toPinned.pinned hn hlt hi _, fun x hx => ?_, h.distinct⟩
    have hne := h.ne_of_entry hx (show s.mem.seg.words _ ≠ 0 by rw [hi]; omega)
    simp only [Hist.pinned_words, if_neg hne]
    exact h.zero x hx
  | release hx =>
    obtain ⟨hpos, -, hw⟩ := h.pin _ hx
    refine ⟨h.toPinned.released hx, fun y hy => ?_, h.distinct⟩
    have hne := h.ne_of_entry hy (show s.mem.seg.words _ ≠ 0 by rw [hw]; omega)
    simp only [Hist.released_words, if_neg hne]
    exact h.zero y hy

end Exclusive

variable [DecidableEq ι]

/-- **Write handles are exclusive.**  In a run in which no claim takes a slot that
    is handed out, the slot of each outstanding handle is marked in progress, no
    two handles share a slot, and filling or committing a handle leaves every
    committed and every pinned slot alone. -/
theorem writeHandles_exclusive {m : Segment G} (hm : ∀ i, m.words i < 2 ^ 63) {w : RawWriter G}
    {readers : ι → RawReader G} {s : Session G ι}
    (h : Reach step (fun s c _ => !s.claimsHandedOut c) (start m w readers) s) :
    (∀ x ∈ s.writeHandles, s.mem.seg.words x.index = 0) ∧
    s.writeHandles.Pairwise (fun x y => x.index ≠ y.index) ∧
    ∀ x ∈ s.writeHandles, ∀ c s', (c = .commit x ∨ ∃ j b, c = .fill x j b) → s.step c = some s' →
      ∀ i, s.mem.seg.words i ≠ 0 →
        s'.mem.seg.words i = s.mem.seg.words i ∧ s'.mem.seg.payload i = s.mem.seg.payload i := by
  have hE : s.Exclusive := h.inv
    ⟨⟨hm, fun _ hx => absurd hx List.not_mem_nil, List.nodup_nil⟩,
      fun _ hx => absurd hx List.not_mem_nil, List.nodup_nil⟩ fun _ _ _ hI hs hp => hI.step hs hp
  refine ⟨hE.zero, ?_, fun x hx c s' hc hs i hi => ?_⟩
  · exact hE.distinct.imp fun {x y} hne e => hne (congrArg WriteHandle.mk e)
  · have hix := (hE.ne_of_entry hx hi).symm
    rcases hc with rfl | ⟨j, b, rfl⟩
    · rw [step, call_commit, if_pos hx] at hs
      cases hs
      simp [committed, hix]
    · rw [step, call_fill, if_pos hx] at hs
      cases hs
      exact ⟨rfl, Segment.setByte_ne _ hix _ _⟩

/-- An entry is built in place, committed, and the next slot handed out. -/
theorem writeHandles_exclusive_fill : ∃ s : Session (.tiny 1) Unit,
    s.writeHandles = [⟨Geometry.slot _ 1⟩] ∧ s.mem.seg.words (Geometry.slot _ 0) = 1 ∧
    ∀ x ∈ s.writeHandles, s.mem.seg.words x.index = 0 := by
  have hrun : (steps step (fun s c => !s.claimsHandedOut c) (init (.tiny 1) Unit .u8 7)
      [.acquire, .fill ⟨Geometry.slot _ 0⟩ ⟨0, by decide⟩ 5, .commit ⟨Geometry.slot _ 0⟩,
        .acquire]).map (fun s => (s.writeHandles, s.mem.seg.words (Geometry.slot _ 0))) =
      some ([⟨Geometry.slot _ 1⟩], 1) := by decide +kernel
  obtain ⟨s, hs, he⟩ := reach_eval hrun
  obtain ⟨h₁, h₂⟩ := Prod.mk.inj he
  exact ⟨s, h₁, h₂, (writeHandles_exclusive (fun _ => by norm_num [Segment.init]) hs).1⟩

/-- **A slot can be handed out twice**, and a write can then publish an entry in
    it, within reach of both handles. -/
theorem handle_shared : ∃ s : Session (.tiny 1) Unit,
    Reach step (fun _ _ _ => True) (init (.tiny 1) Unit .u8 7) s ∧
    s.writeHandles = [⟨Geometry.slot _ 0⟩, ⟨Geometry.slot _ 0⟩] ∧
    s.mem.seg.words (Geometry.slot _ 0) = 1 := by
  have hrun : (steps step (fun _ _ => true) (init (.tiny 1) Unit .u8 7)
      [.acquire, .acquire, .write (List.replicate 8 1)]).map
        (fun s => (s.writeHandles, s.mem.seg.words (Geometry.slot _ 0))) =
      some ([⟨Geometry.slot _ 0⟩, ⟨Geometry.slot _ 0⟩], 1) := by decide +kernel
  obtain ⟨s, hs, he⟩ := reach_eval hrun
  obtain ⟨h₁, h₂⟩ := Prod.mk.inj he
  exact ⟨s, hs.mono fun _ _ _ _ => trivial, h₁, h₂⟩

end Session

end ZeroChannel
