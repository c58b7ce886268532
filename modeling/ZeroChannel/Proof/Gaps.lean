/-
  What a jump in the numbers read tells.

  `locate` skips the words of held slots, so a one-copy reader steps over an entry that
  is pinned as over one that is gone.  A jump counts the entries overwritten together
  with those held at the time of the read (`gaps`, `gap_held`).
-/
import ZeroChannel.Proof.Marks
import Mathlib.Order.Interval.Finset.Nat

namespace ZeroChannel

open Concur

variable {G : Geometry} {ι : Type}

namespace Session

/-- Entry `e` is in the hands of a zero-copy reader. -/
def HeldEntry (s : Session G ι) (e : ℕ) : Prop := ∃ x ∈ s.readHandles, x.entrySeq = e

/-- Some slot carries entry `e`, held or not. -/
def InRing (s : Session G ι) (e : ℕ) : Prop := (∃ i, s.mem.seg.words i = e) ∨ s.HeldEntry e

/-- Entry `e` was published, and a write has claimed its slot since (`leaves_ring`). -/
def Overwritten (s : Session G ι) (e : ℕ) : Prop :=
  0 < e ∧ e ≤ s.mem.log.length ∧ ¬ s.InRing e

instance (s : Session G ι) : DecidablePred s.HeldEntry := fun e =>
  inferInstanceAs (Decidable (∃ x ∈ s.readHandles, x.entrySeq = e))

instance (s : Session G ι) : DecidablePred s.InRing := fun e =>
  inferInstanceAs (Decidable ((∃ i : Slot G, s.mem.seg.words i = e) ∨ s.HeldEntry e))

instance (s : Session G ι) : DecidablePred s.Overwritten := fun e =>
  inferInstanceAs (Decidable (0 < e ∧ e ≤ s.mem.log.length ∧ ¬ s.InRing e))

variable [DecidableEq ι]

/-- An entry leaves the ring when a write claims its slot, and not otherwise. -/
theorem leaves_ring {s s' : Session G ι} {c : Call G ι} (hP : s.Pinned) (hc : plain c)
    (h : s.step c = some s') {e : ℕ} (he : s.InRing e) (he' : ¬ s'.InRing e) :
    ∃ i data, c = .write data ∧ s.claims c = some i ∧ s.mem.seg.words i = e := by
  cases step_effect hP h with
  | quiet => exact absurd he he'
  | @write k data hlen hk =>
    rcases he with ⟨i, hi⟩ | hheld
    · refine ⟨i, data, rfl, ?_, hi⟩
      by_cases hik : i = k
      · rw [hik, hk]
      · exact absurd (Or.inl ⟨i, by rw [wrote_words, if_neg hik, hi]⟩) he'
    · exact absurd (Or.inr hheld) he'
  | @tryAcquire r f k n hn hlt hk =>
    refine absurd ?_ he'
    rcases he with ⟨i, hi⟩ | ⟨x, hx, hxe⟩
    · by_cases hik : i = k
      · subst hik
        exact Or.inr ⟨⟨i, n⟩, List.mem_append_right _ (List.mem_singleton_self _), by
          dsimp only
          omega⟩
      · exact Or.inl ⟨i, by simp only [Hist.pinned_words, if_neg hik, hi]⟩
    · exact Or.inr ⟨x, List.mem_append_left _ hx, hxe⟩
  | @release x hx =>
    refine absurd ?_ he'
    -- the word of the slot handed back is the number again
    rcases he with ⟨i, hi⟩ | ⟨y, hy, hye⟩
    · by_cases hix : i = x.index
      · have := hP.pin x hx
        rw [hix] at hi
        omega
      · exact Or.inl ⟨i, by simp only [Hist.released_words, if_neg hix, hi]⟩
    · by_cases hyx : y = x
      · exact Or.inl ⟨x.index, by simp only [Hist.released_words, if_pos, ← hyx, hye]⟩
      · exact Or.inr ⟨y, (List.mem_erase_of_ne hyx).2 hy, hye⟩
  | acquire | fill | commit | abandon => cases hc

/-- **What a jump counts.**  Whenever a reader with bookmark `w` is given entry `t`: the
    entries stepped over are those that are overwritten and those that are held at that
    time, so an entry between `w` and `t` that is still in the ring is held. -/
theorem gaps {dtype : Dtype} {owner : ℕ} {s s' : Session G ι}
    (h : Reach step (fun _ c _ => plain c) (init G ι dtype owner) s)
    {r : ι} {w t : ℕ} {dst dst' : List UInt8}
    (hw : (s.readers r).lastEntrySeq = w)
    (hc : s.call (.readInto r dst none) = some (.readInto (.ok (some t)) dst', s')) :
    w < t ∧
    t - w - 1 = ((Finset.Ioo w t).filter s.Overwritten).card +
      ((Finset.Ioo w t).filter s.HeldEntry).card ∧
    ∀ e, w < e → e < t → s.InRing e → s.HeldEntry e := by
  obtain ⟨hP, -, hle⟩ := plain_reach h
  -- what was read is the smallest number above the bookmark
  obtain ⟨i, hi, hwt, hmin⟩ : ∃ i, s.mem.seg.words i = t ∧ w < t ∧
      ∀ j, (w : ℤ) < s.mem.seg.words j → (t : ℤ) ≤ s.mem.seg.words j := by
    obtain ⟨i, hloc⟩ := readInto_found hP.lt hc
    rw [Option.getD_none, hw] at hloc
    exact ⟨i, located_some hP.lt hloc⟩
  have hheld : ∀ e, w < e → e < t → s.InRing e → s.HeldEntry e := by
    rintro e hwe het (⟨j, hj⟩ | hheld)
    · -- a word that is not negative would have been read
      have := hmin j (by omega)
      omega
    · exact hheld
  refine ⟨hwt, ?_, hheld⟩
  have hle := hle i
  have hsplit : (Finset.Ioo w t).filter s.Overwritten =
      (Finset.Ioo w t).filter fun e => ¬ s.HeldEntry e := by
    refine Finset.filter_congr fun e he => ?_
    obtain ⟨hwe, het⟩ := Finset.mem_Ioo.1 he
    constructor
    · rintro ⟨-, -, hout⟩ hh
      exact hout (Or.inr hh)
    · exact fun hh => ⟨by omega, by omega, fun hin => hh (hheld e hwe het hin)⟩
  rw [hsplit, add_comm, Finset.card_filter_add_card_filter_not, Nat.card_Ioo]

/-- Entry 1 overwritten, entry 2 held: the jump to entry 3 counts one of each. -/
theorem gaps_both : ∃ (s s' : Session (.tiny 1) Bool) (dst' : List UInt8),
    s.call (.readInto false (List.replicate 8 0) none) = some (.readInto (.ok (some 3)) dst', s') ∧
    3 - 0 - 1 = ((Finset.Ioo 0 3).filter s.Overwritten).card +
      ((Finset.Ioo 0 3).filter s.HeldEntry).card := by
  have hrun : (steps step (fun _ c => plain c) (init (.tiny 1) Bool .u8 7)
      [.write (List.replicate 8 1), .write (List.replicate 8 2), .tryAcquire true (some 1),
        .write (List.replicate 8 3)]).map (fun s =>
        ((s.readers false).lastEntrySeq, s.mem.log.length,
          (s.call (.readInto false (List.replicate 8 0) none)).map Prod.fst)) =
      some (0, 3, some (.readInto (.ok (some 3)) (List.replicate 8 3))) := by decide +kernel
  obtain ⟨s, hs, he⟩ := reach_eval hrun
  simp only [Prod.mk.injEq, Option.map_eq_some_iff] at he
  obtain ⟨hmark, hlen, ⟨a, s'⟩, hcall, rfl⟩ := he
  exact ⟨s, s', _, hcall, (gaps hs hmark hcall).2.1⟩

/-- **A jump over an entry that is still there**: entries 1 and 2 are written and entry 1
    is pinned.  A one-copy reader that has read nothing is given entry 2, although
    entry 1 is in the ring and nothing was overwritten. -/
theorem gap_held : ∃ (s s' : Session (.tiny 1) Bool) (dst' : List UInt8),
    Reach step (fun _ c _ => plain c) (init (.tiny 1) Bool .u8 7) s ∧
    (s.readers false).lastEntrySeq = 0 ∧
    s.call (.readInto false (List.replicate 8 0) none) = some (.readInto (.ok (some 2)) dst', s') ∧
    s.InRing 1 ∧ 2 - 0 - 1 ≠ ((Finset.Ioo 0 2).filter s.Overwritten).card := by
  have hrun : (steps step (fun _ c => plain c) (init (.tiny 1) Bool .u8 7)
      [.write (List.replicate 8 1), .write (List.replicate 8 2), .tryAcquire true none]).map (fun s =>
        (((s.readers false).lastEntrySeq, s.readHandles),
          (s.call (.readInto false (List.replicate 8 0) none)).map Prod.fst,
          ((Finset.Ioo 0 2).filter s.Overwritten).card)) =
      some ((0, [⟨Geometry.slot _ 0, 1⟩]),
        some (.readInto (.ok (some 2)) (List.replicate 8 2)), 0) := by decide +kernel
  obtain ⟨s, hs, he⟩ := reach_eval hrun
  simp only [Prod.mk.injEq, Option.map_eq_some_iff] at he
  obtain ⟨⟨hmark, hheld⟩, ⟨⟨a, s'⟩, hcall, rfl⟩, hcard⟩ := he
  exact ⟨s, s', _, hs, hmark, hcall, Or.inr ⟨_, hheld ▸ List.mem_singleton_self _, rfl⟩,
    by rw [hcard]; norm_num⟩

end Session

end ZeroChannel
