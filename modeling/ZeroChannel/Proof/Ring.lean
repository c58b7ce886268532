/-
  The ring as a window of the log.

  While no slot is skipped, entry `k` goes to slot `k - 1`, counted around the
  ring, and the ring holds the entries of a window that ends with the newest.
-/
import ZeroChannel.Segment

namespace ZeroChannel

variable {G : Geometry}

theorem slot_add_count (G : Geometry) (k : ℕ) : G.slot (k + G.entryCount) = G.slot k :=
  Fin.ext (Nat.add_mod_right k G.entryCount)

/-- Positions less than a lap apart are different slots. -/
theorem slot_ne {a b : ℕ} (h : a < b) (hN : b < a + G.entryCount) : G.slot a ≠ G.slot b := by
  intro e
  have hmod : b % G.entryCount = a % G.entryCount := (Fin.ext_iff.1 e).symm
  have hdvd := Nat.dvd_of_mod_eq_zero (Nat.sub_mod_eq_zero_of_mod_eq hmod)
  have := Nat.le_of_dvd (by omega) hdvd
  omega

@[simp] theorem slot_mod_add (k d : ℕ) : G.slot (k % G.entryCount + d) = G.slot (k + d) :=
  Fin.ext (Nat.mod_add_mod k G.entryCount d)

@[simp] theorem slot_mod (k : ℕ) : G.slot (k % G.entryCount) = G.slot k :=
  Fin.ext (Nat.mod_mod k G.entryCount)

/-- A slot can be its own successor only in a ring of one. -/
theorem slot_succ_of_eq {k : ℕ} (hk : 0 < k) (h : G.slot k = G.slot (k - 1)) :
    G.slot (k + 1) = G.slot k := by
  have hN : G.entryCount = 1 := by
    have := G.count_pos
    by_contra hne
    exact slot_ne (G := G) (a := k - 1) (b := k) (by omega) (by omega) h.symm
  exact Fin.ext (by simp [hN, Nat.mod_one])

/-- The ring holds the entries `lo … n`, each in its slot, and nothing else. -/
structure Window (words : Slot G → ℤ) (lo n : ℕ) : Prop where
  width : n < lo + G.entryCount
  pos : 0 < lo
  present : ∀ k, lo ≤ k → k ≤ n → words (G.slot (k - 1)) = k
  only : ∀ i, words i = 0 ∨ ∃ k, lo ≤ k ∧ k ≤ n ∧ i = G.slot (k - 1) ∧ words i = k

namespace Window
variable {words : Slot G → ℤ} {lo n : ℕ} (h : Window words lo n)
include h

theorem range (i : Slot G) : 0 ≤ words i ∧ words i ≤ n := by
  rcases h.only i with h | ⟨k, -, hk, -, hw⟩ <;> omega

theorem lt (hn : n < 2 ^ 63) (i : Slot G) : words i < 2 ^ 63 := by
  have := h.range i
  omega

/-- A number in the ring is in its own slot. -/
theorem slot_of {i : Slot G} {k : ℕ} (hk : 0 < k) (hi : words i = k) :
    lo ≤ k ∧ k ≤ n ∧ i = G.slot (k - 1) := by
  rcases h.only i with h | ⟨k', h₁, h₂, h₃, hw⟩
  · omega
  · obtain rfl : k = k' := by omega
    exact ⟨h₁, h₂, h₃⟩

/-- Clearing the next slot drops the entry a lap behind. -/
theorem clear {lo' : ℕ} (hlo : lo' = max lo (n + 2 - G.entryCount)) {words' : Slot G → ℤ}
    (hw : ∀ j, words' j = if j = G.slot n then 0 else words j) : Window words' lo' n := by
  have hwidth := h.width
  have hpos := h.pos
  refine ⟨by omega, by omega, fun k hk hkn => ?_, fun i => ?_⟩
  · rw [hw, if_neg (slot_ne (by omega) (by omega))]
    exact h.present k (by omega) hkn
  · by_cases hi : i = G.slot n
    · left
      rw [hw, if_pos hi]
    · rw [hw, if_neg hi]
      rcases h.only i with h0 | ⟨k, h₁, h₂, h₃, hk⟩
      · exact Or.inl h0
      · refine Or.inr ⟨k, ?_, h₂, h₃, hk⟩
        by_contra hlt
        -- the entry a lap behind is in the slot that was cleared
        have he : n = k - 1 + G.entryCount := by omega
        exact hi (by rw [h₃, he, slot_add_count])

/-- Publishing the next entry in the slot that was cleared for it. -/
theorem publish (hlo : n + 2 - G.entryCount ≤ lo) {words' : Slot G → ℤ}
    (hw : ∀ j, words' j = if j = G.slot n then ((n + 1 : ℕ) : ℤ) else words j)
    (hle : lo ≤ n + 1) : Window words' lo (n + 1) := by
  have hpos := h.pos
  refine ⟨by omega, hpos, fun k hk hkn => ?_, fun i => ?_⟩
  · rcases Nat.lt_or_ge k (n + 1) with hlt | hge
    · rw [hw, if_neg (slot_ne (by omega) (by omega))]
      exact h.present k hk (by omega)
    · obtain rfl : k = n + 1 := by omega
      rw [hw, if_pos (by rw [Nat.add_sub_cancel])]
  · by_cases hi : i = G.slot n
    · exact Or.inr ⟨n + 1, hle, le_rfl, by rw [hi, Nat.add_sub_cancel], by rw [hw, if_pos hi]⟩
    · rw [hw, if_neg hi]
      rcases h.only i with h0 | ⟨k, h₁, h₂, h₃, hk⟩
      · exact Or.inl h0
      · exact Or.inr ⟨k, h₁, by omega, h₃, hk⟩

/-- Clearing and publishing in one go. -/
theorem write (hle : lo ≤ n + 1) {lo' : ℕ}
    (hlo' : lo' = max lo (n + 2 - G.entryCount)) {words' : Slot G → ℤ}
    (hw : ∀ j, words' j = if j = G.slot n then ((n + 1 : ℕ) : ℤ) else words j) :
    Window words' lo' (n + 1) := by
  have hpos := G.count_pos
  have hc : Window (fun j => if j = G.slot n then 0 else words j) lo' n := h.clear hlo' fun _ => rfl
  refine hc.publish (by omega) (fun j => ?_) (by omega)
  rw [hw]
  split_ifs <;> rfl

end Window

/-- The empty ring. -/
theorem Window.empty (G : Geometry) {lo : ℕ} (hlo : 0 < lo) :
    Window (G := G) (fun _ => 0) lo 0 :=
  ⟨by have := G.count_pos; omega, hlo, fun k h₁ h₂ => by omega, fun _ => Or.inl rfl⟩

end ZeroChannel
