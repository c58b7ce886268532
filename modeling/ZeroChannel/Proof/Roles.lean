/-
  Role exclusion.

  A claim swaps its process into the cell only over a claim no live process holds,
  and stops once it has (`Claims`).  So the endpoint that holds a role is the only
  one, and the cell shows its process, until it is dropped or its process crashes
  (`roles_exclusive`).
-/
import ZeroChannel.Roles

namespace ZeroChannel

open Concur

/-- No live process holds the claim `v`. -/
def Vacant (live : ℕ → Bool) (v : ℕ) : Prop := ∀ pid : Pid, pid.val = v → live v = false

/-- **What a claim may do**: swap `me` over a vacant claim, and then succeed. -/
def Claims (me : Pid) (cell : HeaderWord) : (ℕ → Bool) → ClaimProg → Prop
  | _, .pure r => r ≠ some (.ok ())
  | live, .op (.cas w old new) k => w = cell ∧ new = me.val ∧ Vacant live old ∧
      k (.ok ()) = .pure (some (.ok ())) ∧ ∀ v, Claims me cell live (k (.error v))
  | live, .op (.probe pid) k => ∀ live', (∀ q, live' q → live q) →
      Claims me cell live' (k (live' pid))
  | _, .op (.load _) _ => False

theorem Vacant.mono {live live' : ℕ → Bool} {v : ℕ} (h : Vacant live v)
    (hl : ∀ q, live' q → live q) : Vacant live' v := by
  intro pid hp
  by_contra hne
  have := hl v (by simpa using hne)
  rw [h pid hp] at this
  cases this

theorem vacant_zero (live : ℕ → Bool) : Vacant live 0 := fun pid hp => absurd hp pid.pos.ne'

/-- A probe that answers "dead" shows that the claim is vacant. -/
theorem vacant_of_dead {live : ℕ → Bool} {v : ℕ} (h : asU32 v = 0 ∨ live (asU32 v) = false) :
    Vacant live v := by
  rintro pid rfl
  rw [pid.asU32_val] at h
  exact h.resolve_left pid.pos.ne'

namespace Claims
variable {me : Pid} {cell : HeaderWord} {live live' : ℕ → Bool}

/-- Processes only die. -/
theorem mono : ∀ {p : ClaimProg} {live live' : ℕ → Bool}, Claims me cell live p →
    (∀ q, live' q → live q) → Claims me cell live' p
  | .pure _, _, _, h, _ => h
  | .op (.cas _ _ _) _, _, _, ⟨hw, hn, hv, hk, he⟩, hl =>
    ⟨hw, hn, hv.mono hl, hk, fun v => (he v).mono hl⟩
  | .op (.probe _) _, _, _, h, hl => fun live'' hl' => h live'' fun q hq => hl q (hl' q hq)
  | .op (.load _) _, _, _, h, _ => h

theorem ne_ok (h : Claims me cell live (.pure (some (.ok ())))) : False := h rfl

end Claims

/-- **`claim_role`** only does that. -/
theorem claimRole_claims (me : Pid) (cell : HeaderWord) (role name : String) :
    ∀ (fuel : ℕ) (live : ℕ → Bool),
      Claims me cell live (claimRole hdrMapping me cell role name fuel)
  | 0, _ => nofun
  | fuel + 1, live => by
    unfold claimRole
    refine ⟨rfl, rfl, vacant_zero live, rfl, fun holder => ?_⟩
    simp only [Prog.bind_pure]
    by_cases h0 : asU32 holder = 0
    · simp only [processAlive, if_pos h0]
      exact ⟨rfl, rfl, vacant_of_dead (Or.inl h0), rfl,
        fun _ => claimRole_claims me cell role name fuel live⟩
    · simp only [processAlive, if_neg h0]
      intro live' _
      simp only [Prog.bind_pure]
      split_ifs with hlive
      · exact nofun
      · exact ⟨rfl, rfl, vacant_of_dead (Or.inr (by simpa using hlive)), rfl,
          fun _ => claimRole_claims me cell role name fuel live'⟩

/-! ## The invariant -/

namespace Contest
variable {E : Type} {who : E → Seat} {name : String}

/-- A live endpoint that is bound, or whose claim has succeeded. -/
def Holds (who : E → Seat) (s : Contest E) (e : E) : Prop :=
  s.board.live (who e).pid.val ∧
    (s.stage e = .bound ∨ s.stage e = .claiming (.pure (some (.ok ()))))

/-- The word of an endpoint's role. -/
def owner (who : E → Seat) (s : Contest E) (e : E) : ℕ := s.board.hdr (who e).role.cell

/-- What holds throughout a contest. -/
structure Inv (who : E → Seat) (s : Contest E) : Prop where
  cell : ∀ e, s.Holds who e → s.owner who e = (who e).pid.val
  unique : ∀ e e', s.Holds who e → s.Holds who e' → (who e).role = (who e').role → e = e'
  claims : ∀ e p, s.stage e = .claiming p → p = .pure (some (.ok ())) ∨
    Claims (who e).pid (who e).role.cell s.board.live p

theorem Role.cell_injective {r r' : Role} (h : r.cell = r'.cell) : r = r' := by
  cases r <;> cases r' <;> first | rfl | cases h

theorem Inv.init (b : Board) : (init E b).Inv who := by
  refine ⟨fun e h => ?_, fun e e' h => ?_, fun e p h => by cases h⟩
  · rcases h.2 with h | h <;> cases h
  · rcases h.2 with h | h <;> cases h

section
variable [DecidableEq E] {s : Contest E} {e : E} {st : Stage}

@[simp] theorem enter_board : (s.enter e st).board = s.board := rfl
@[simp] theorem enter_self : (s.enter e st).stage e = st := Function.update_self ..

theorem enter_ne {e' : E} (h : e' ≠ e) : (s.enter e st).stage e' = s.stage e' :=
  Function.update_of_ne h ..

end

/-- A step that swaps no word: nobody comes to hold a role by it. -/
theorem Inv.quiet {s s' : Contest E} (h : s.Inv who) (hh : s'.board.hdr = s.board.hdr)
    (hl : ∀ q, s'.board.live q → s.board.live q) (hst : ∀ e, s'.Holds who e → s.Holds who e)
    (hc : ∀ e p, s'.stage e = .claiming p → s.stage e = .claiming p ∨
      Claims (who e).pid (who e).role.cell s'.board.live p) : s'.Inv who := by
  refine ⟨fun e he => ?_, fun e e' he he' => h.unique e e' (hst e he) (hst e' he'), fun e p hp => ?_⟩
  · rw [owner, hh]
    exact h.cell e (hst e he)
  · rcases hc e p hp with hp | hp
    · exact (h.claims e p hp).imp_right fun hp => hp.mono hl
    · exact Or.inr hp

section
variable {s : Contest E} (h : s.Inv who)
include h

/-- A vacant role is held by nobody. -/
theorem Inv.vacant {e e' : E} (hv : Vacant s.board.live (s.owner who e)) (he' : s.Holds who e') :
    (who e').role ≠ (who e).role := by
  intro hr
  have hcell := h.cell e' he'
  rw [owner, hr] at hcell
  have hdead := hv (who e').pid hcell.symm
  rw [owner, hcell, he'.1] at hdead
  cases hdead

/-- The release of a holder finds its own claim. -/
theorem Inv.release_run {e : E} (he : s.Holds who e) :
    (releaseRole hdrMapping (who e).pid (who e).role.cell).run Board.exec s.board =
      ((), { s.board with hdr := Function.update s.board.hdr (who e).role.cell 0 }) := by
  have hcell : s.board.hdr (who e).role.cell = (who e).pid.val := h.cell e he
  simp only [releaseRole, hdrMapping, Prog.run_bind, Prog.run_op, Prog.run_pure, Board.exec, hcell,
    if_true, Prog.pure_eq]

/-- **An operation of a claim** changes nothing, or swaps the claim in. -/
theorem Inv.move {e : E} {o : HdrOp} {k : HdrOp.Res o → ClaimProg}
    (hst : s.stage e = .claiming (.op o k)) :
    (∃ p, k (Board.exec o s.board).1 = p ∧ (Board.exec o s.board).2 = s.board ∧
      Claims (who e).pid (who e).role.cell s.board.live p) ∨
    (Vacant s.board.live (s.owner who e) ∧
      k (Board.exec o s.board).1 = .pure (some (.ok ())) ∧
      (Board.exec o s.board).2 = { s.board with
        hdr := Function.update s.board.hdr (who e).role.cell (who e).pid.val }) := by
  have hc := (h.claims e _ hst).resolve_left nofun
  cases o with
  | load => exact hc.elim
  | probe pid => exact Or.inl ⟨_, rfl, rfl, hc s.board.live fun _ => id⟩
  | cas w old new =>
    obtain ⟨rfl, rfl, hv, hok, herr⟩ := hc
    simp only [Board.exec]
    split_ifs with he
    · subst he
      exact Or.inr ⟨hv, hok, rfl⟩
    · exact Or.inl ⟨_, rfl, rfl, herr _⟩

end

section
variable [DecidableEq E]

/-- An endpoint enters a stage in which it does not hold its role. -/
theorem Inv.enter {s : Contest E} (h : s.Inv who) {e : E} {st : Stage} (hb : st ≠ .bound)
    (hc : ∀ p, st = .claiming p → Claims (who e).pid (who e).role.cell s.board.live p) :
    (s.enter e st).Inv who := by
  refine h.quiet rfl (fun _ => id) (fun e' he' => ?_) fun e' p hp => ?_
  · by_cases hee : e' = e
    · subst hee
      obtain ⟨-, hs⟩ := he'
      rw [enter_self] at hs
      rcases hs with hs | hs
      · exact absurd hs hb
      · exact (hc _ hs).ne_ok.elim
    · rwa [Holds, enter_ne hee] at he'
  · by_cases hee : e' = e
    · subst hee
      rw [enter_self] at hp
      exact Or.inr (hc p hp)
    · rw [enter_ne hee] at hp
      exact Or.inl hp

/-- The word of a role is stored, when no other endpoint holds the role. -/
theorem Inv.store {s : Contest E} (h : s.Inv who) {e : E} {v : ℕ} {st : Stage}
    (hother : ∀ e', e' ≠ e → s.Holds who e' → (who e').role ≠ (who e).role)
    (hst : st = .dropped ∨ st = .claiming (.pure (some (.ok ()))) ∧ v = (who e).pid.val) :
    (Contest.enter { s with board := { s.board with
        hdr := Function.update s.board.hdr (who e).role.cell v } } e st).Inv who := by
  set s' : Contest E := Contest.enter { s with board := { s.board with
    hdr := Function.update s.board.hdr (who e).role.cell v } } e st with hs'
  have hold : ∀ e', e' ≠ e → s'.Holds who e' → s.Holds who e' := by
    intro e' hne he'
    rwa [Holds, hs', enter_ne hne] at he'
  have hself : s'.Holds who e → v = (who e).pid.val := by
    rintro ⟨-, he⟩
    rw [hs', enter_self] at he
    rcases hst with rfl | ⟨-, hv⟩
    · rcases he with he | he <;> cases he
    · exact hv
  refine ⟨fun e' he' => ?_, fun e₁ e₂ h₁ h₂ hr => ?_, fun e' p hp => ?_⟩
  · by_cases hee : e' = e
    · subst hee
      exact (Function.update_self ..).trans (hself he')
    · have hr := hother e' hee (hold e' hee he')
      refine Eq.trans ?_ (h.cell e' (hold e' hee he'))
      exact Function.update_of_ne (fun hc => hr (Role.cell_injective hc)) ..
  · by_cases he₁ : e₁ = e <;> by_cases he₂ : e₂ = e
    · rw [he₁, he₂]
    · exact absurd (he₁ ▸ hr).symm (hother e₂ he₂ (hold e₂ he₂ h₂))
    · exact absurd (he₂ ▸ hr) (hother e₁ he₁ (hold e₁ he₁ h₁))
    · exact h.unique e₁ e₂ (hold e₁ he₁ h₁) (hold e₂ he₂ h₂) hr
  · by_cases hee : e' = e
    · subst hee
      rw [hs', enter_self] at hp
      rcases hst with rfl | ⟨rfl, -⟩
      · cases hp
      · cases hp
        exact Or.inl rfl
    · rw [hs', enter_ne hee] at hp
      exact h.claims e' p hp

/-- **One step keeps the invariant.** -/
theorem Inv.step {s s' : Contest E} (h : s.Inv who) {a : RoleAct E}
    (hs : s.step who name a = some s') : s'.Inv who := by
  cases a with
  | start e fuel =>
    simp only [Contest.step] at hs
    split_ifs at hs
    split at hs
    · cases hs
      refine h.enter nofun fun p hp => ?_
      cases hp
      exact claimRole_claims _ _ _ _ fuel _
    · cases hs
      refine h.enter nofun fun p hp => ?_
      cases hp
      exact claimRole_claims _ _ _ _ fuel _
    · cases hs
  | move e =>
    simp only [Contest.step] at hs
    split_ifs at hs with hlive
    split at hs
    · rename_i o k hst
      cases hs
      rcases h.move hst with ⟨p, hp, hb, hc⟩ | ⟨hv, hk, hb⟩
      · rw [hb, hp]
        refine h.enter nofun fun q hq => ?_
        cases hq
        exact hc
      · rw [hb, hk]
        exact h.store (fun e' _ he' => h.vacant hv he') (Or.inr ⟨rfl, rfl⟩)
    · cases hs
      exact h.enter nofun nofun
    · rename_i hst
      cases hs
      refine h.quiet rfl (fun _ => id) (fun e' he' => ?_) fun e' p hp => ?_
      · by_cases hee : e' = e
        · subst hee
          exact ⟨hlive, Or.inr hst⟩
        · rwa [Holds, enter_ne hee] at he'
      · by_cases hee : e' = e
        · subst hee
          rw [enter_self] at hp
          cases hp
        · rw [enter_ne hee] at hp
          exact Or.inl hp
    · cases hs
      exact h.enter nofun nofun
    · cases hs
  | drop e =>
    simp only [Contest.step] at hs
    split_ifs at hs with hlive
    split at hs
    · rename_i hst
      cases hs
      have he : s.Holds who e := ⟨hlive, Or.inl hst⟩
      rw [h.release_run he]
      exact h.store (fun e' hne he' hr => hne (h.unique e' e he' he hr)) (Or.inl rfl)
    · cases hs
      exact h.enter nofun nofun
    · cases hs
  | crash pid =>
    cases hs
    have hl : ∀ q, Function.update s.board.live pid false q → s.board.live q := by
      intro q hq
      by_cases hqp : q = pid
      · subst hqp
        simp at hq
      · rwa [Function.update_of_ne hqp] at hq
    exact h.quiet rfl hl (fun e he => ⟨hl _ he.1, he.2⟩) fun e p hp => Or.inl hp

/-! ## Role exclusion -/

/-- **The header changes** only when a claim succeeds, or a bound endpoint is dropped. -/
theorem Inv.changes {s s' : Contest E} (h : s.Inv who) {a : RoleAct E}
    (hs : s.step who name a = some s') (hne : s'.board.hdr ≠ s.board.hdr) :
    (∃ e, a = .move e ∧ s'.stage e = .claiming (.pure (some (.ok ())))) ∨
      ∃ e, a = .drop e ∧ s.stage e = .bound := by
  cases a with
  | start e fuel =>
    simp only [Contest.step] at hs
    split_ifs at hs
    split at hs <;> cases hs <;> exact absurd rfl hne
  | move e =>
    simp only [Contest.step] at hs
    split_ifs at hs
    split at hs
    · rename_i o k hst
      cases hs
      rcases h.move hst with ⟨p, -, hb, -⟩ | ⟨-, hk, -⟩
      · exact absurd (congrArg Board.hdr hb) hne
      · rw [hk]
        exact Or.inl ⟨e, rfl, enter_self⟩
    all_goals cases hs
    all_goals exact absurd rfl hne
  | drop e =>
    simp only [Contest.step] at hs
    split_ifs at hs
    split at hs
    · exact Or.inr ⟨e, rfl, ‹_›⟩
    all_goals cases hs
    exact absurd rfl hne
  | crash pid =>
    cases hs
    exact absurd rfl hne

/-- The drop of an endpoint leaves every other holder its claim. -/
theorem Inv.drop_other {s s' : Contest E} (h : s.Inv who) {e e' : E}
    (hs : s.step who name (.drop e) = some s') (hne : e' ≠ e) (he' : s.Holds who e') :
    s'.Holds who e' := by
  simp only [Contest.step] at hs
  split_ifs at hs with hlive
  split at hs
  · rename_i hst
    cases hs
    rw [h.release_run ⟨hlive, Or.inl hst⟩]
    rwa [Holds, enter_ne hne]
  · cases hs
    rwa [Holds, enter_ne hne]
  · cases hs

/-- **Role exclusion.**  Whatever claims, drops and crashes are interleaved: at most
    one live endpoint holds a role; its cell shows its process; a drop leaves every
    other holder its claim; and the header changes only when a claim succeeds or a
    bound endpoint is dropped, so a claim that fails changes nothing. -/
theorem roles_exclusive {b : Board} {s : Contest E}
    (h : Reach (step who name) (fun _ _ _ => True) (init E b) s) :
    (∀ e e', s.Holds who e → s.Holds who e' → (who e).role = (who e').role → e = e') ∧
    (∀ e, s.Holds who e → s.owner who e = (who e).pid.val) ∧
    (∀ e e' s', s.step who name (.drop e) = some s' → e' ≠ e → s.Holds who e' →
      s'.Holds who e' ∧ s'.owner who e' = (who e').pid.val) ∧
    (∀ a s', s.step who name a = some s' → s'.board.hdr ≠ s.board.hdr →
      (∃ e, a = .move e ∧ s'.stage e = .claiming (.pure (some (.ok ())))) ∨
        ∃ e, a = .drop e ∧ s.stage e = .bound) := by
  have hI : s.Inv who := h.inv (.init b) fun _ _ _ hI hs _ => hI.step hs
  refine ⟨hI.unique, hI.cell, fun e e' s' hs hne he' => ?_, fun a s' => hI.changes⟩
  have hkeep := hI.drop_other hs hne he'
  exact ⟨hkeep, (hI.step hs).cell e' hkeep⟩

end

/-- Two processes find the claim of a dead third one.  One adopts it, the other's
    compare-exchange comes too late. -/
theorem roles_exclusive_adopted : ∃ s : Contest Bool,
    s.stage false = .bound ∧ s.board.hdr .writerOwner = 7 ∧
    ∀ e, s.Holds (fun e => ⟨if e then ⟨8, by decide, by decide⟩ else ⟨7, by decide, by decide⟩,
      .writer⟩) e → e = false := by
  have hrun : (steps (step (E := Bool) (fun e => ⟨if e then ⟨8, by decide, by decide⟩ else
        ⟨7, by decide, by decide⟩, .writer⟩) "ch") (fun _ _ => true)
      (init Bool ⟨fun w => if w = .writerOwner then 9 else 0, fun pid => pid = 7 ∨ pid = 8⟩)
      [.start false 1, .start true 1, .move false, .move true, .move false, .move true,
        .move false, .move true, .move false, .move true]).map (fun s =>
        ((match s.stage false with
          | .bound => true
          | _ => false), s.board.live 7, s.board.hdr .writerOwner)) =
      some (true, true, 7) := by decide +kernel
  obtain ⟨s, hs, he⟩ := reach_eval hrun
  obtain ⟨hb, he⟩ := Prod.mk.inj he
  obtain ⟨hl, hw⟩ := Prod.mk.inj he
  have hbound : s.stage false = .bound := by
    cases hst : s.stage false <;> simp_all
  have hR := roles_exclusive (hs.mono fun _ _ _ _ => trivial)
  refine ⟨s, hbound, hw, fun e he => ?_⟩
  exact hR.1 e false he ⟨hl, Or.inl hbound⟩ rfl

end Contest

end ZeroChannel
