/-
  The layout of a segment in its region.

  The offsets the source computes are exact as long as the exact size of the
  segment is a `u64` (`layout_exact`); the check of `check_geometry` does not say
  that it is.
-/
import ZeroChannel.Region

namespace ZeroChannel

open Concur

/-- The size of a segment, computed without wrapping. -/
def exactBytes (payloadBytes entryCount : ℕ) : ℕ :=
  HEADER_BYTES + entryCount * (SLOT_ALIGN + payloadBytes)

/-- The offset of a slot, computed without wrapping. -/
def exactOffset (payloadBytes idx : ℕ) : ℕ := HEADER_BYTES + idx * (SLOT_ALIGN + payloadBytes)

theorem exactOffset_add_le (pb : ℕ) {n idx : ℕ} (h : idx < n) :
    exactOffset pb idx + SLOT_ALIGN + pb ≤ exactBytes pb n := by
  have : (idx + 1) * (SLOT_ALIGN + pb) ≤ n * (SLOT_ALIGN + pb) := Nat.mul_le_mul_right _ h
  rw [Nat.add_mul] at this
  unfold exactOffset exactBytes
  omega

section
variable {pb n idx : ℕ}

theorem entryBytes_exact (hn : 0 < n) (h : exactBytes pb n < 2 ^ 64) :
    entryBytes pb = SLOT_ALIGN + pb := by
  refine u64_of_lt (lt_of_le_of_lt ?_ h)
  have := exactOffset_add_le pb hn
  omega

theorem requiredBytes_exact (h : exactBytes pb n < 2 ^ 64) : requiredBytes pb n = exactBytes pb n := by
  rcases Nat.eq_zero_or_pos n with rfl | hn
  · simp [requiredBytes, exactBytes, u64, HEADER_BYTES]
  · unfold requiredBytes
    rw [entryBytes_exact hn h]
    exact u64_of_lt h

theorem requiredBytes_ne_zero (h : exactBytes pb n < 2 ^ 64) : requiredBytes pb n ≠ 0 := by
  rw [requiredBytes_exact h, exactBytes, HEADER_BYTES]
  omega

theorem seqOffset_exact (hi : idx < n) (h : exactBytes pb n < 2 ^ 64) :
    Region.seqOffset pb idx = exactOffset pb idx := by
  unfold Region.seqOffset
  rw [entryBytes_exact (by omega) h]
  refine u64_of_lt (lt_of_le_of_lt ?_ h)
  have := exactOffset_add_le pb hi
  unfold exactOffset at this
  omega

theorem payloadOffset_exact (hi : idx < n) (h : exactBytes pb n < 2 ^ 64) :
    Region.payloadOffset pb idx = exactOffset pb idx + SLOT_ALIGN := by
  unfold Region.payloadOffset
  rw [entryBytes_exact (by omega) h]
  refine u64_of_lt (lt_of_le_of_lt ?_ h)
  have := exactOffset_add_le pb hi
  unfold exactOffset at this
  omega

end

/-- The sizes and offsets that the source computes are exact, and every slot ends
    inside the allocation. -/
structure Exact (pb n : ℕ) : Prop where
  entry : entryBytes pb = SLOT_ALIGN + pb
  required : requiredBytes pb n = exactBytes pb n
  seq : ∀ idx < n, Region.seqOffset pb idx = exactOffset pb idx
  payload : ∀ idx < n, Region.payloadOffset pb idx = exactOffset pb idx + SLOT_ALIGN
  inside : ∀ idx < n, Region.payloadOffset pb idx + pb ≤ requiredBytes pb n

/-- **Overflow.**  Of the geometries that `check_geometry` accepts, those are laid out
    without wrapping whose exact size is a `u64`. -/
theorem layout_exact {pb n : ℕ} (hok : checkGeometry pb n = .ok ()) :
    Exact pb n ↔ exactBytes pb n < 2 ^ 64 := by
  obtain ⟨-, hn, -⟩ := checkGeometry_ok.1 hok
  constructor
  · intro h
    rw [← h.required]
    exact u64_lt _
  · intro h
    refine ⟨entryBytes_exact hn h, requiredBytes_exact h, fun idx hi => seqOffset_exact hi h,
      fun idx hi => payloadOffset_exact hi h, fun idx hi => ?_⟩
    rw [payloadOffset_exact hi h, requiredBytes_exact h]
    exact exactOffset_add_le _ hi

/-- The smallest ring of one million `f64` entries is laid out exactly. -/
theorem layout_exact_small : Exact (typedPayload .f64 1) 1000000 :=
  (layout_exact (by decide)).2 (by decide)

/-- One `f64` in each of `2 ^ 60` entries: the allocation wraps to the bare header,
    and the second slot lies outside of it. -/
theorem layout_wraps : checkGeometry (typedPayload .f64 1) (2 ^ 60) = .ok () ∧
    requiredBytes (typedPayload .f64 1) (2 ^ 60) = HEADER_BYTES ∧
    ¬ Exact (typedPayload .f64 1) (2 ^ 60) := by
  refine ⟨by decide, by decide, fun h => ?_⟩
  have := h.required
  exact absurd this (by decide)

end ZeroChannel
