/-
  Reading a numbered log of which only a window survives.

  Entries are numbered from `1`; those from `lo` to `hi` survive.  A reader with
  bookmark `w` is given the oldest survivor newer than `w`; reading on, it is
  given every one of them, in order.
-/
import Mathlib.Order.Bounds.Basic
import Mathlib.Tactic.Common
import Mathlib.Tactic.SplitIfs

namespace Concur

/-- The oldest entry of the window `lo … hi` that is newer than `w`. -/
def next? (lo hi w : ℕ) : Option ℕ := if max (w + 1) lo ≤ hi then some (max (w + 1) lo) else none

theorem next?_eq_some {lo hi w e : ℕ} :
    next? lo hi w = some e ↔ IsLeast {k | w < k ∧ lo ≤ k ∧ k ≤ hi} e := by
  unfold next?
  constructor
  · intro h
    split_ifs at h with hle
    obtain rfl := Option.some.inj h
    refine ⟨⟨by omega, by omega, hle⟩, ?_⟩
    rintro k ⟨h₁, h₂, -⟩
    omega
  · rintro ⟨⟨h₁, h₂, h₃⟩, hmin⟩
    have hle : max (w + 1) lo ≤ hi := by omega
    have := hmin (show max (w + 1) lo ∈ {k | w < k ∧ lo ≤ k ∧ k ≤ hi} from
      ⟨by omega, by omega, hle⟩)
    rw [if_pos hle, Option.some.injEq]
    omega

theorem next?_eq_none {lo hi w : ℕ} : next? lo hi w = none ↔ ∀ k, lo ≤ k → k ≤ hi → k ≤ w := by
  unfold next?
  constructor
  · intro h k h₁ h₂
    split_ifs at h
    omega
  · intro h
    rw [if_neg]
    intro hle
    have := h _ (le_max_right (w + 1) lo) hle
    omega

/-- Reading on from `w`, at most `fuel` times. -/
def drain (lo hi : ℕ) : ℕ → ℕ → List ℕ
  | 0, _ => []
  | fuel + 1, w => match next? lo hi w with
    | none => []
    | some e => e :: drain lo hi fuel e

/-- **Draining**: every survivor newer than `w`, once, in order. -/
theorem drain_eq (lo hi : ℕ) : ∀ (fuel w : ℕ), hi ≤ w + fuel →
    drain lo hi fuel w = List.range' (max (w + 1) lo) (hi + 1 - max (w + 1) lo) := by
  intro fuel
  induction fuel with
  | zero =>
    intro w h
    rw [show hi + 1 - max (w + 1) lo = 0 by omega]
    rfl
  | succ fuel ih =>
    intro w h
    unfold drain next?
    split_ifs with hle
    · dsimp only
      rw [ih _ (by omega), show max (max (w + 1) lo + 1) lo = max (w + 1) lo + 1 by
        omega, ← List.range'_succ, show hi + 1 - (max (w + 1) lo + 1) + 1 = hi + 1 - max (w + 1) lo by
        omega]
    · rw [show hi + 1 - max (w + 1) lo = 0 by omega]
      rfl

end Concur
