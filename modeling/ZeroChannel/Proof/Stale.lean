/-
  Stale claims and live ones, on unix.

  A word below `2 ^ 31` is narrowed to itself, and `kill` finds the process of that
  PID.  A larger word names no process, and yet `process_alive` may find one
  (`Misread`): that of its low 32 bits, or whatever these address as a negative
  `pid_t`.

  The claims and the bids tell stale words from live ones exactly when the word is
  not misread (`stale_told`), and one round of their loops is enough in any case.
-/
import ZeroChannel.Signals
import ZeroChannel.Proof.Lifecycle

namespace ZeroChannel

open Concur

/-! ## What `kill` answers -/

theorem asPidT_of_lt {pid : ℕ} (h : pid < 2 ^ 31) : asPidT pid = pid := if_pos h

theorem asPidT_of_le {pid : ℕ} (h : 2 ^ 31 ≤ pid) : asPidT pid = pid - 2 ^ 32 :=
  if_neg (not_lt.2 h)

namespace Processes
variable (T : Processes)

/-- `process_alive` takes the process for alive when `kill` addresses anybody. -/
def answers (pid : ℕ) : Bool := decide (T.targets (asPidT pid)).Nonempty

/-- A word that names no process, of which `process_alive` thinks it does. -/
def Misread (v : ℕ) : Prop :=
  2 ^ 31 ≤ v ∧ (asU32 v ∈ T.live ∨
    (asU32 v = 2 ^ 32 - 1 ∧ ∃ p ∈ T.live, T.spared p = false ∧ T.may p = true) ∨
    (2 ^ 31 ≤ asU32 v ∧ asU32 v ≠ 2 ^ 32 - 1 ∧ ∃ p ∈ T.live, T.pgid p = 2 ^ 32 - asU32 v))

instance (v : ℕ) : Decidable (T.Misread v) := inferInstanceAs (Decidable (_ ∧ _))

variable {T}

theorem Misread.not_live {v : ℕ} (h : T.Misread v) : v ∉ T.live :=
  fun hv => absurd (T.range v hv).2 (not_lt.2 h.1)

theorem targets_pos {p : ℕ} (h : 0 < p) : (T.targets p).Nonempty ↔ p ∈ T.live := by
  unfold targets
  rw [if_pos (Int.natCast_pos.2 h)]
  constructor
  · rintro ⟨q, hq⟩
    obtain ⟨hlive, he⟩ := Finset.mem_filter.1 hq
    rwa [← Int.natCast_inj.1 he]
  · intro hp
    exact ⟨p, Finset.mem_filter.2 ⟨hp, rfl⟩⟩

theorem targets_all : (T.targets (-1)).Nonempty ↔
    ∃ p ∈ T.live, T.spared p = false ∧ T.may p = true := by
  simp [targets, Finset.filter_nonempty_iff]

theorem targets_group {n : ℕ} (h : 1 < n) :
    (T.targets (-n)).Nonempty ↔ ∃ p ∈ T.live, T.pgid p = n := by
  unfold targets
  rw [if_neg (by omega), if_neg (by omega), if_neg (by omega), Finset.filter_nonempty_iff]
  simp only [neg_neg, Nat.cast_inj]

/-- The word of a claim is found alive exactly when it is the PID of a live process, or
    misread. -/
theorem held_iff {v : ℕ} : Held T.answers v ↔ v ∈ T.live ∨ T.Misread v := by
  have hpos : ∀ p ∈ T.live, 0 < p ∧ p < 2 ^ 31 := T.range
  have hlt : asU32 v < 2 ^ 32 := Nat.mod_lt _ (by norm_num)
  unfold Held answers Misread
  rw [decide_eq_true_eq]
  rcases lt_or_ge v (2 ^ 31) with hv | hv
  · -- the word is the argument of `kill`
    have ha : asU32 v = v := Nat.mod_eq_of_lt (hv.trans (by norm_num))
    rw [ha, asPidT_of_lt hv]
    constructor
    · rintro ⟨h0, hk⟩
      exact .inl ((targets_pos (Nat.pos_of_ne_zero h0)).1 hk)
    · rintro (hl | ⟨hge, -⟩)
      · exact ⟨(hpos v hl).1.ne', (targets_pos (hpos v hl).1).2 hl⟩
      · omega
  · have hnl : v ∉ T.live := fun hl => by have := (hpos v hl).2; omega
    simp only [hnl, hv, true_and, false_or]
    rcases lt_or_ge (asU32 v) (2 ^ 31) with hs | hs
    · -- the low bits are a PID
      rw [asPidT_of_lt hs]
      constructor
      · rintro ⟨h0, hk⟩
        exact .inl ((targets_pos (Nat.pos_of_ne_zero h0)).1 hk)
      · rintro (hl | ⟨hm, -⟩ | ⟨hge, -⟩)
        · exact ⟨(hpos _ hl).1.ne', (targets_pos (hpos _ hl).1).2 hl⟩
        · omega
        · omega
    · -- the low bits are negative
      have hnl' : asU32 v ∉ T.live := fun hl => by have := (hpos _ hl).2; omega
      rw [asPidT_of_le hs, and_iff_right (by omega : asU32 v ≠ 0)]
      simp only [hnl', hs, false_or, true_and]
      by_cases hm : asU32 v = 2 ^ 32 - 1
      · have hp : ((asU32 v : ℕ) : ℤ) - 2 ^ 32 = -1 := by omega
        rw [hp, targets_all]
        simp [hm]
      · have hp : ((asU32 v : ℕ) : ℤ) - 2 ^ 32 = -((2 ^ 32 - asU32 v : ℕ) : ℤ) := by omega
        rw [hp, targets_group (by omega)]
        simp only [hm, false_and, false_or, ne_eq, not_false_eq_true, true_and]

end Processes

/-! ## The mapping -/

theorem killProbe_run (pid : ℕ) (u : Unix) :
    (killProbe pid).run Unix.exec u = (u.procs.answers pid, u) := by
  unfold killProbe
  rw [Prog.act_bind, Prog.run_op]
  simp only [Unix.exec, Processes.kill, Processes.answers]
  split_ifs with hempty hmay
  · simp [hempty, BEq.beq]
  · simp [Finset.nonempty_iff_ne_empty, hempty]
  · simp [Finset.nonempty_iff_ne_empty, hempty]

theorem unixMapping_runs :
    unixMapping.Runs Unix.exec Unix.hdr Unix.put fun u => u.procs.answers where
  load _ _ := rfl
  cas w old new u := by simp only [unixMapping, Prog.run_op, Prog.run_pure, Unix.exec]
  probe := killProbe_run

/-! ## The loops -/

/-- `claim_role` tells a stale claim from a live one. -/
def RoleTold (u : Unix) (cell : HeaderWord) (role name : String) (fuel : ℕ) : Prop :=
  (claimRole unixMapping u.procs.me cell role name fuel).run Unix.exec u =
    if u.hdr cell = 0 ∨ u.hdr cell ∉ u.procs.live then
      (some (.ok ()), u.put cell u.procs.caller)
    else (some (.error (.roleConflict
      s!"the {role} role on channel '{name}' is held by process {u.hdr cell}")), u)

/-- `claim_segment` tells a stale deed from a live one. -/
def DeedTold (u : Unix) (fuel : ℕ) : Prop :=
  (claimSegment unixMapping u.procs.me fuel).run Unix.exec u =
    if u.hdr .segmentOwner = 0 ∨ u.hdr .segmentOwner ∉ u.procs.live then
      (some true, u.put .segmentOwner u.procs.caller)
    else (some false, u)

section
variable (u : Unix)

/-- No process has the PID 0. -/
theorem vacant_iff (v : ℕ) : v = 0 ∨ v ∉ u.procs.live ↔ v ∉ u.procs.live := by
  refine or_iff_right_of_imp ?_
  rintro rfl h
  exact absurd (u.procs.range 0 h).1 (lt_irrefl 0)

/-- The claimant is alive. -/
theorem biddable_iff (v : ℕ) : Biddable u.procs.answers u.procs.me v ↔ ¬ Held u.procs.answers v := by
  refine and_iff_right_of_imp ?_
  rintro h rfl
  exact h (Processes.held_iff.2 (.inl u.procs.mem))

/-- A claim made alone: it adopts what `process_alive` takes for stale. -/
theorem claimRole_unix (cell : HeaderWord) (role name : String) (fuel : ℕ) :
    (claimRole unixMapping u.procs.me cell role name (fuel + 1)).run Unix.exec u =
      if u.hdr cell ∈ u.procs.live ∨ u.procs.Misread (u.hdr cell) then
        (some (.error (.roleConflict
          s!"the {role} role on channel '{name}' is held by process {u.hdr cell}")), u)
      else (some (.ok ()), u.put cell u.procs.caller) := by
  rw [unixMapping_runs.claimRole_alone]
  exact if_congr Processes.held_iff rfl rfl

theorem claimSegment_unix (fuel : ℕ) :
    (claimSegment unixMapping u.procs.me (fuel + 1)).run Unix.exec u =
      if u.hdr .segmentOwner ∈ u.procs.live ∨ u.procs.Misread (u.hdr .segmentOwner) then
        (some false, u)
      else (some true, u.put .segmentOwner u.procs.caller) := by
  rw [unixMapping_runs.claimSegment_alone, if_congr (biddable_iff u _) rfl rfl, ite_not]
  exact if_congr Processes.held_iff rfl rfl

theorem roleTold_iff (cell : HeaderWord) (role name : String) (fuel : ℕ) :
    RoleTold u cell role name (fuel + 1) ↔ ¬ u.procs.Misread (u.hdr cell) := by
  unfold RoleTold
  rw [claimRole_unix, if_congr (vacant_iff u _) rfl rfl, ite_not]
  by_cases hm : u.procs.Misread (u.hdr cell)
  · simp [hm, hm.not_live]
  · simp [hm]

theorem deedTold_iff (fuel : ℕ) :
    DeedTold u (fuel + 1) ↔ ¬ u.procs.Misread (u.hdr .segmentOwner) := by
  unfold DeedTold
  rw [claimSegment_unix, if_congr (vacant_iff u _) rfl rfl, ite_not]
  by_cases hm : u.procs.Misread (u.hdr .segmentOwner)
  · simp [hm, hm.not_live]
  · simp [hm]

/-- **Stale claims are told from live ones** exactly when the word is not misread, and one
    round of either loop is enough. -/
theorem stale_told (cell : HeaderWord) (role name : String) (fuel : ℕ) :
    (((claimRole unixMapping u.procs.me cell role name (fuel + 1)).run Unix.exec u).1.isSome ∧
      (RoleTold u cell role name (fuel + 1) ↔ ¬ u.procs.Misread (u.hdr cell))) ∧
    ((claimSegment unixMapping u.procs.me (fuel + 1)).run Unix.exec u).1.isSome ∧
      (DeedTold u (fuel + 1) ↔ ¬ u.procs.Misread (u.hdr .segmentOwner)) := by
  refine ⟨⟨?_, roleTold_iff u ..⟩, ?_, deedTold_iff u _⟩
  · rw [claimRole_unix]
    split_ifs <;> rfl
  · rw [claimSegment_unix]
    split_ifs <;> rfl

end

/-- Process 100 claims a segment whose owner words are all `u32::MAX`, while process 7
    is alive. -/
def allOnes : Unix where
  hdr _ := 2 ^ 32 - 1
  procs := { live := {7, 100}, range := by decide, caller := 100, mem := by decide,
             pgid := id, spared := fun _ => false, may := fun _ => true }

/-- `kill(-1, 0)` finds process 7, so the claim of a process that cannot be is respected. -/
theorem allOnes_held :
    ¬ RoleTold allOnes .writerOwner "writer" "feed" 1 ∧ ¬ DeedTold allOnes 1 := by
  have hm : allOnes.procs.Misread (2 ^ 32 - 1) := by decide
  rw [roleTold_iff, deedTold_iff]
  exact ⟨not_not_intro hm, not_not_intro hm⟩

end ZeroChannel
