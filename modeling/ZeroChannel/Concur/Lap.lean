/-
  A cursor going round `n` places.

  `ahead c i` is how far place `i` is ahead of the cursor `c`.  If the cursor always
  goes on to the nearest place of a set `F` and numbers it, then after a lap the
  places of `F` carry the newest numbers, as many as there are places
  (`Lapped.full`).
-/
import Mathlib.Data.Fintype.Card
import Mathlib.Order.Interval.Finset.Nat

namespace Concur

variable {n : ℕ} {c f i j : Fin n}

/-- The distance from `c` on to `i`. -/
def ahead (c i : Fin n) : ℕ := if c.val ≤ i.val then i.val - c.val else i.val + n - c.val

/-- The place after `i`. -/
def after (i : Fin n) : Fin n :=
  ⟨if i.val + 1 = n then 0 else i.val + 1, by have := i.isLt; split_ifs <;> omega⟩

theorem ahead_lt (c i : Fin n) : ahead c i < n := by
  have := c.isLt
  have := i.isLt
  unfold ahead
  split_ifs <;> omega

theorem ahead_inj (h : ahead c i = ahead c j) : i = j := by
  have := i.isLt
  have := j.isLt
  unfold ahead at h
  ext
  split_ifs at h <;> omega

/-- The place just passed is the last one ahead. -/
theorem ahead_after_self (f : Fin n) : ahead (after f) f + 1 = n := by
  have := f.isLt
  unfold ahead after
  dsimp only
  split_ifs <;> omega

/-- Going on past `f` brings the places beyond it nearer. -/
theorem ahead_after (h : ahead c f < ahead c i) :
    ahead (after f) i + ahead c f + 1 = ahead c i := by
  have := c.isLt
  have := f.isLt
  have := i.isLt
  unfold ahead after at *
  dsimp only
  split_ifs at * <;> omega

/-- Of two places beyond `f` the nearer stays the nearer. -/
theorem ahead_after_lt (hf : ahead c f < ahead c j) (h : ahead c j < ahead c i) :
    ahead (after f) j < ahead (after f) i := by
  have := ahead_after hf
  have := ahead_after (hf.trans h)
  omega

/-- Just past `f`, every other place comes before `f`. -/
theorem ahead_after_lt_self (h : j ≠ f) : ahead (after f) j < ahead (after f) f := by
  have := ahead_after_self f
  have := ahead_lt (after f) j
  exact lt_of_le_of_ne (by omega) fun he => h (ahead_inj he)

/-! ## The places of a set in the order they come round -/

/-- How many places of `F` come before `i`. -/
def rank (F : Finset (Fin n)) (c i : Fin n) : ℕ := (F.filter (ahead c · < ahead c i)).card

section
variable {F : Finset (Fin n)}

theorem rank_lt (hi : i ∈ F) : rank F c i < F.card := by
  refine Finset.card_lt_card (Finset.filter_ssubset.2 ⟨i, hi, ?_⟩)
  exact lt_irrefl _

theorem rank_inj (hi : i ∈ F) (hj : j ∈ F) (h : rank F c i = rank F c j) : i = j := by
  -- of two places the nearer has the smaller rank
  have hlt : ∀ {a b}, a ∈ F → ahead c a < ahead c b → rank F c a < rank F c b := by
    intro a b ha hab
    refine Finset.card_lt_card ((Finset.ssubset_iff_of_subset fun k hk => ?_).2 ⟨a, ?_, ?_⟩)
    · obtain ⟨hk, hka⟩ := Finset.mem_filter.1 hk
      exact Finset.mem_filter.2 ⟨hk, hka.trans hab⟩
    · exact Finset.mem_filter.2 ⟨ha, hab⟩
    · exact fun ha' => lt_irrefl _ (Finset.mem_filter.1 ha').2
  rcases lt_trichotomy (ahead c i) (ahead c j) with hij | hij | hij
  · exact absurd h (hlt hi hij).ne
  · exact ahead_inj hij
  · exact absurd h (hlt hj hij).ne'

variable (hf : f ∈ F) (hmin : ∀ k ∈ F, ahead c f ≤ ahead c k)
include hf

/-- The place just passed comes last. -/
theorem rank_after_self : rank F (after f) f + 1 = F.card := by
  have hF : F.filter (ahead (after f) · < ahead (after f) f) = F.erase f := by
    ext k
    rw [Finset.mem_filter, Finset.mem_erase, and_comm]
    refine and_congr_left fun _ => ⟨?_, ahead_after_lt_self⟩
    rintro hlt rfl
    exact lt_irrefl _ hlt
  have := Finset.card_pos.2 ⟨f, hf⟩
  rw [rank, hF, Finset.card_erase_of_mem hf]
  omega

include hmin

/-- The others move up by one. -/
theorem rank_after (hi : i ∈ F) (hne : i ≠ f) : rank F (after f) i + 1 = rank F c i := by
  have hbeyond : ∀ k ∈ F, k ≠ f → ahead c f < ahead c k := fun k hk hkf =>
    lt_of_le_of_ne (hmin k hk) fun he => hkf (ahead_inj he).symm
  have hfi : f ∈ F.filter (ahead c · < ahead c i) :=
    Finset.mem_filter.2 ⟨hf, hbeyond i hi hne⟩
  have hF : F.filter (ahead (after f) · < ahead (after f) i) =
      (F.filter (ahead c · < ahead c i)).erase f := by
    ext k
    rw [Finset.mem_filter, Finset.mem_erase, Finset.mem_filter]
    have hi' := ahead_after (hbeyond i hi hne)
    constructor
    · rintro ⟨hk, hlt⟩
      have hkf : k ≠ f := by
        rintro rfl
        exact absurd hlt (ahead_after_lt_self hne).not_gt
      have := ahead_after (hbeyond k hk hkf)
      exact ⟨hkf, hk, by omega⟩
    · rintro ⟨hkf, hk, hlt⟩
      have := ahead_after (hbeyond k hk hkf)
      exact ⟨hk, by omega⟩
  have := Finset.card_pos.2 ⟨f, hfi⟩
  rw [rank, rank, hF, Finset.card_erase_of_mem hfi]
  omega

end

/-! ## Numbering them in that order -/

/-- The places of `F` numbered since `a` carry the numbers of the order in which they
    come round, the last one carrying `b`. -/
def Lapped (F : Finset (Fin n)) (c : Fin n) (words : Fin n → ℤ) (a b : ℕ) : Prop :=
  ∀ i ∈ F, a + F.card < b + 1 + rank F c i → words i + F.card = b + 1 + rank F c i

namespace Lapped
variable {F : Finset (Fin n)} {words words' : Fin n → ℤ} {a b : ℕ}

/-- Nothing is numbered yet. -/
theorem start (F : Finset (Fin n)) (c : Fin n) (words : Fin n → ℤ) (a : ℕ) :
    Lapped F c words a a := by
  intro i hi h
  have := rank_lt (c := c) hi
  omega

theorem congr (h : Lapped F c words a b) (hw : ∀ i ∈ F, words' i = words i) :
    Lapped F c words' a b := by
  intro i hi hlt
  rw [hw i hi]
  exact h i hi hlt

/-- The nearest place is given the next number. -/
theorem next (h : Lapped F c words a b) (hf : f ∈ F) (hmin : ∀ k ∈ F, ahead c f ≤ ahead c k)
    (hnew : words' f = b + 1) (hold : ∀ i ∈ F, i ≠ f → words' i = words i) :
    Lapped F (after f) words' a (b + 1) := by
  intro i hi hlt
  by_cases hif : i = f
  · subst hif
    have := rank_after_self hi
    rw [hnew]
    omega
  · have hrank := rank_after hf hmin hi hif
    have := h i hi (by omega)
    rw [hold i hi hif]
    omega

/-- **After a lap** the places of `F` carry the newest numbers. -/
theorem full (h : Lapped F c words a b) (hab : a + F.card ≤ b) :
    (∀ i ∈ F, (b : ℤ) < words i + F.card ∧ words i ≤ b) ∧
    ∀ k : ℕ, b < k + F.card → k ≤ b → ∃ i ∈ F, words i = k := by
  have hw : ∀ i ∈ F, words i + F.card = b + 1 + rank F c i := fun i hi => h i hi (by omega)
  refine ⟨fun i hi => ?_, fun k hk hkb => ?_⟩
  · have := hw i hi
    have := rank_lt (c := c) hi
    omega
  · -- the ranks are all the numbers below the number of places
    have hinj : Set.InjOn (rank F c) F := fun i hi j hj hij => rank_inj hi hj hij
    have himage : F.image (rank F c) = Finset.range F.card := by
      refine Finset.eq_of_subset_of_card_le (fun r hr => ?_) ?_
      · obtain ⟨i, hi, rfl⟩ := Finset.mem_image.1 hr
        exact Finset.mem_range.2 (rank_lt hi)
      · rw [Finset.card_range, Finset.card_image_of_injOn hinj]
    have hmem : k + F.card - (b + 1) ∈ F.image (rank F c) := by
      rw [himage, Finset.mem_range]
      omega
    obtain ⟨i, hi, hrank⟩ := Finset.mem_image.1 hmem
    have := hw i hi
    exact ⟨i, hi, by omega⟩

end Lapped

end Concur
