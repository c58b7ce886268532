/-
  Leaving a channel and the generations of its name.

  At most one live endpoint of a segment has the owner flag, in every run
  (`Exclusive`).  But the flag outlives the name: an `unlink` under a live owner leaves
  it set, and when the name is taken anew the owner removes it from its successor
  (`drop_evicts`).  Where no segment is created while such an owner lives, a drop only
  removes the name of the segment that the endpoint has mapped; and such an owner comes
  about by `unlink` alone (`leaving`).
-/
import ZeroChannel.Generations
import ZeroChannel.Proof.Inside

namespace ZeroChannel

open Concur

variable {E : Type} {who : E → Pid}

/-! ## What a constructor does to the names -/

/-- A call creates a segment. -/
def Creates (args : OpenArgs) (w : World E) : Prop :=
  w.names args.name = none ∧ ∃ pb n, args.payloadBytes = some pb ∧ args.entryCount = some n ∧
    checkGeometry pb n = .ok () ∧ requiredBytes pb n ≠ 0 ∧
    w.refuses args.name (requiredBytes pb n) = none

/-- Endpoint `e` maps the segment of `m`, with the owner flag `b`, by creating it or opening
    it; the flag goes with the deed. -/
structure Acquired [DecidableEq E] (e : E) (me : Pid) (args : OpenArgs) (w : World E) (m : Shmem)
    (b : Bool) (w' : World E) : Prop where
  name : m.name = args.name
  maps : w'.maps = Function.update w.maps e (some ⟨m, b⟩)
  live : w'.live = w.live
  found : (Creates args w ∧ m.seg = w.segs ∧ w'.segs = w.segs + 1 ∧
      w'.names = Function.update w.names args.name (some m.seg)) ∨
    (w.names args.name = some m.seg ∧ w'.segs = w.segs ∧ w'.names = w.names ∧
      (b → (w.regions m.seg).hdr .magic = MAGIC_VERSION →
        Biddable w.live me ((w.regions m.seg).hdr .segmentOwner)))
  other : ∀ g, g ≠ m.seg → w'.regions g = w.regions g
  kept : b = false → w'.regions m.seg = w.regions m.seg
  deed : b → (w'.regions m.seg).hdr .segmentOwner = me.val ∧
    (w'.regions m.seg).hdr .magic = MAGIC_VERSION

theorem initialised_owner (r : Region) (payloadBytes entryCount : ℕ) (dtype : Dtype) (me : Pid) :
    (r.initialised payloadBytes entryCount dtype me.val).hdr .segmentOwner = me.val := by
  unfold Region.initialised
  rw [Region.hdr_setWord_ne (by decide), Region.hdr_setWord (lt_trans me.lt (by decide))]

section
variable [DecidableEq E] {e : E} {w : World E} {args : OpenArgs} {me : Pid}

/-- A tenant maps the segment and nothing else. -/
theorem acquired_tenant {g : ℕ} (hname : w.names args.name = some g) :
    Acquired e me args w ⟨args.name, g⟩ false (w.mapped e ⟨⟨args.name, g⟩, false⟩) where
  name := rfl
  maps := rfl
  live := rfl
  found := Or.inr ⟨hname, rfl, rfl, nofun⟩
  other _ _ := rfl
  kept _ := rfl
  deed := nofun

theorem openExisting_acquires {g : ℕ} (hname : w.names args.name = some g) (hmap : w.maps e = none)
    (pb n fuel : ℕ) :
    let run := (openExisting me args.name pb n args.dtype (fuel + 1)).run (World.exec who e) w
    (∃ er, run = (some (.error er), w)) ∨
      ∃ m header b w', run = (some (.ok (some (m, header))), w') ∧ Acquired e me args w m b w' := by
  intro run
  by_cases hlen : (w.regions g).len = 0
  · exact Or.inl ⟨_, openExisting_empty me hname hlen pb n args.dtype _⟩
  have hrun : run = _ := openExisting_alone me hname hlen hmap pb n args.dtype fuel
  rw [hrun]
  rcases hacc : acceptOf (w.regions g).hdr pb n args.dtype with er | _ | header
  · exact Or.inl ⟨er, rfl⟩
  · have hmagic := acceptOf_none.1 hacc
    dsimp only
    split_ifs
    · exact Or.inl ⟨_, rfl⟩
    · refine Or.inr ⟨⟨args.name, g⟩, _, true, _, rfl, rfl, rfl, rfl, Or.inr ⟨hname, rfl, rfl,
        fun _ hm => ?_⟩, fun g' hg' => Function.update_of_ne hg' .., nofun, fun _ => ?_⟩
      · rw [hmagic] at hm
        exact absurd hm (by decide)
      · simp [World.mapped, World.won, initialised_owner, initialised_magic]
  · obtain ⟨hmagic, -⟩ := acceptOf_some.1 hacc
    by_cases hv : Biddable w.live me ((w.regions g).hdr .segmentOwner)
    · refine Or.inr ⟨⟨args.name, g⟩, header, true, _, rfl, ?_⟩
      rw [if_pos hv]
      refine ⟨rfl, ?_, ?_, Or.inr ⟨hname, ?_, ?_, fun _ _ => hv⟩, ?_, nofun, fun _ => ?_⟩
      · simp [World.mapped]
      · simp [World.mapped]
      · simp [World.mapped]
      · simp [World.mapped]
      · intro g' hg'
        rw [World.mapped, World.put_regions]
        exact Function.update_of_ne hg' ..
      · rw [World.mapped, World.put_regions]
        dsimp only
        rw [Function.update_self]
        exact ⟨Region.hdr_setWord (lt_trans me.lt (by decide)),
          (Region.hdr_setWord_ne (by decide) _).trans hmagic⟩
    · refine Or.inr ⟨⟨args.name, g⟩, header, false, _, rfl, ?_⟩
      rw [if_neg hv]
      exact acquired_tenant hname

theorem headerOf_founded (who : E → Pid) (e : E) (me : Pid) (w : World E) (name : String)
    (pb n : ℕ) (dtype : Dtype) :
    ∃ header, (headerOf ⟨name, w.segs⟩).run (World.exec who e) (w.founded e me name pb n dtype) =
      (.ok (some header), w.founded e me name pb n dtype) := by
  refine ⟨.ofWords ((Region.zeroed (requiredBytes pb n)).initialised pb n dtype me.val).hdr, ?_⟩
  rw [headerOf, (osMapping_runs who e ⟨name, w.segs⟩).readHeader_alone]
  dsimp only
  rw [World.founded, World.setRegion_self, decodeHeader_ok (initialised_magic ..)]
  rfl

/-- **`open_or_create`** fails and changes nothing, or maps a segment. -/
theorem openOrCreate_acquires (who : E → Pid) (me : Pid) (hmap : w.maps e = none) (fuel : ℕ) :
    let run := (openOrCreate me args.name args.payloadBytes args.entryCount args.dtype
      args.delayedConnect (fuel + 1)).run (World.exec who e) w
    (∃ er, run = (some (.error er), w)) ∨ run = (some (.ok none), w) ∨
      ∃ m header b w', run = (some (.ok (some (m, header))), w') ∧ Acquired e me args w m b w' := by
  intro run
  have hrun : run = (openOrCreate me args.name args.payloadBytes args.entryCount args.dtype
    args.delayedConnect (fuel + 1)).run (World.exec who e) w := rfl
  rcases hpb : args.payloadBytes with _ | pb <;> rcases hn : args.entryCount with _ | n
  · rcases hname : w.names args.name with _ | g
    · rw [hpb, hn] at hrun
      unfold openOrCreate at hrun
      dsimp only at hrun
      rw [Prog.run_bind, tryAttach_alone hmap, hname] at hrun
      dsimp only at hrun
      split_ifs at hrun
      · exact Or.inr (Or.inl hrun)
      · exact Or.inl ⟨_, hrun⟩
    · rcases open_tenant who hname hmap hpb hn fuel with
        ⟨er, h⟩ | h | ⟨header, h⟩
      · exact Or.inl ⟨er, h⟩
      · exact Or.inr (Or.inl h)
      · exact Or.inr (Or.inr ⟨_, header, false, _, h, acquired_tenant hname⟩)
  · rw [hpb, hn] at hrun
    exact Or.inl ⟨_, hrun⟩
  · rw [hpb, hn] at hrun
    exact Or.inl ⟨_, hrun⟩
  · rw [hpb, hn] at hrun
    unfold openOrCreate at hrun
    dsimp only at hrun
    rcases hok : checkGeometry pb n with er | ⟨⟩ <;> rw [hok] at hrun
    · exact Or.inl ⟨er, hrun⟩
    · by_cases hsize : requiredBytes pb n = 0
      · rw [Prog.run_bind, createSegment_alone, if_pos hsize] at hrun
        exact Or.inl ⟨_, hrun⟩
      dsimp only at hrun
      rw [Prog.run_bind, createSegment_alone, if_neg hsize] at hrun
      rcases hname : w.names args.name with _ | g <;> rw [hname] at hrun
      · dsimp only at hrun
        rcases href : w.refuses args.name (requiredBytes pb n) with _ | msg <;> rw [href] at hrun
        · -- the name is free
          obtain ⟨header, hh⟩ := headerOf_founded who e me w args.name pb n args.dtype
          dsimp only at hrun
          rw [Prog.run_bind, hh] at hrun
          refine Or.inr (Or.inr ⟨_, header, true, _, hrun, rfl, rfl, rfl, Or.inl ⟨⟨hname, pb, n, hpb, hn, hok,
            hsize, href⟩, rfl, rfl, rfl⟩, fun g hg => ?_, nofun, fun _ => ?_⟩)
          · have hg' : g ≠ w.segs := hg
            simp [World.founded, World.created, World.setRegion, hg']
          · simp [World.founded, initialised_owner, initialised_magic]
        · exact Or.inl ⟨_, hrun⟩
      · have hex : run = (openExisting me args.name pb n args.dtype (fuel + 1)).run
          (World.exec who e) w := hrun
        rw [hex]
        exact (openExisting_acquires hname hmap pb n fuel).imp_right Or.inr

/-- **A constructor** fails, having mapped no segment or given it up again, or answers with an
    endpoint that holds its mapping. -/
theorem construct_acquires (who : E → Pid) (me : Pid) (hmap : w.maps e = none) (fuel : ℕ) :
    let run := (construct me args (fuel + 1)).run (World.exec who e) w
    (run.2 = w ∧ Generations.connected run.1 = none) ∨
      ∃ m b w', Acquired e me args w m b w' ∧
        (run.2 = w'.closed e ∧ Generations.connected run.1 = none ∨
          ∃ ep, run.2 = w'.claimed e me m.seg args.kind ∧
            Generations.connected run.1 = some ep ∧ ep.shmem = m) := by
  intro run
  rcases openOrCreate_acquires who me hmap fuel with ⟨er, h⟩ | h |
    ⟨m, header, b, w', h, hacq⟩
  · have hrun : run = _ := construct_error h
    rw [hrun]
    exact Or.inl ⟨rfl, rfl⟩
  · have hrun : run = _ := construct_absent h
    rw [hrun]
    exact Or.inl ⟨rfl, rfl⟩
  · obtain ⟨hconf, hfree⟩ := construct_bound h
    refine Or.inr ⟨m, b, w', hacq, ?_⟩
    by_cases hc : Conflict args.kind w'.live (w'.regions m.seg).hdr
    · obtain ⟨msg, hm⟩ := hconf hc
      have hrun : run = _ := hm
      rw [hrun]
      exact Or.inl ⟨rfl, rfl⟩
    · obtain ⟨inner, hi⟩ := hfree hc
      have hrun : run = _ := hi
      rw [hrun]
      exact Or.inr ⟨_, rfl, rfl, rfl⟩

end

/-! ## The owner flag -/

/-- **At most one live endpoint of a segment has the owner flag**, and the segment names its
    process. -/
structure Exclusive (who : E → Pid) (w : World E) : Prop where
  named : ∀ n g, w.names n = some g → g < w.segs
  mapped : ∀ e md, w.maps e = some md → md.shmem.seg < w.segs ∧ w.live (who e).val = true
  owner : ∀ e m, w.Flagged e m → (w.regions m.seg).hdr .segmentOwner = (who e).val ∧
    (w.regions m.seg).hdr .magic = MAGIC_VERSION
  unique : ∀ e e' m m', w.Flagged e m → w.Flagged e' m' → m.seg = m'.seg → e = e'

/-- Names and mappings are given up, and the segments keep their owners. -/
structure Shrinks (who : E → Pid) (w w' : World E) : Prop where
  names : ∀ n g, w'.names n = some g → w.names n = some g
  maps : ∀ e md, w'.maps e = some md → w.maps e = some md ∧ w'.live (who e).val = w.live (who e).val
  segs : w'.segs = w.segs
  owner : ∀ g, (w'.regions g).hdr .segmentOwner = (w.regions g).hdr .segmentOwner
  magic : ∀ g, (w'.regions g).hdr .magic = (w.regions g).hdr .magic

theorem Exclusive.shrink {w w' : World E} (h : Exclusive who w) (hs : Shrinks who w w') :
    Exclusive who w' := by
  refine ⟨fun n g hn => ?_, fun e md hm => ?_, fun e m hf => ?_, fun e e' m m' hf hf' => ?_⟩
  · rw [hs.segs]
    exact h.named n g (hs.names n g hn)
  · obtain ⟨hm', hl⟩ := hs.maps e md hm
    rw [hs.segs, hl]
    exact h.mapped e md hm'
  · rw [hs.owner, hs.magic]
    exact h.owner e m (hs.maps _ _ hf).1
  · exact h.unique e e' m m' (hs.maps _ _ hf).1 (hs.maps _ _ hf').1

/-- A deed that a bid takes is held by nobody. -/
theorem Exclusive.biddable {w : World E} (h : Exclusive who w) {e : E} {m : Shmem} {me : Pid}
    (hv : Biddable w.live me ((w.regions m.seg).hdr .segmentOwner)) : ¬ ∃ m', m'.seg = m.seg ∧
      w.Flagged e m' := by
  rintro ⟨m', hm, hf⟩
  have ho := (h.owner e m' hf).1
  rw [hm] at ho
  refine hv.2 ?_
  rw [ho, held_pid]
  exact (h.mapped e _ hf).2

section
variable [DecidableEq E] {e : E} {w w' : World E} {args : OpenArgs} {m : Shmem} {b : Bool}

/-- The other mappings are what they were. -/
theorem Acquired.flagged (h : Acquired e (who e) args w m b w') {e' : E} {m' : Shmem}
    (hf : w'.Flagged e' m') : e' = e ∧ m' = m ∧ b = true ∨ e' ≠ e ∧ w.Flagged e' m' := by
  unfold World.Flagged at hf
  rw [h.maps] at hf
  by_cases he : e' = e
  · subst he
    rw [Function.update_self] at hf
    cases hf
    exact Or.inl ⟨rfl, rfl, rfl⟩
  · rw [Function.update_of_ne he] at hf
    exact Or.inr ⟨he, hf⟩

/-- The owner flag of a segment goes to an endpoint when no other has it. -/
theorem Acquired.fresh (hx : Exclusive who w) (h : Acquired e (who e) args w m true w') {e' : E}
    {m' : Shmem} (hf : w.Flagged e' m') : m'.seg ≠ m.seg := by
  intro hm
  have hlt := (hx.mapped e' _ hf).1
  rcases h.found with ⟨-, hseg, -⟩ | ⟨-, -, -, hbid⟩
  · exact absurd (hm.trans hseg) hlt.ne
  · have hmagic := (hx.owner e' m' hf).2
    rw [hm] at hmagic
    exact hx.biddable (hbid rfl hmagic) ⟨m', hm, hf⟩

theorem Exclusive.acquired (hx : Exclusive who w) (hlive : w.live (who e).val = true)
    (h : Acquired e (who e) args w m b w') : Exclusive who w' := by
  have hsegs : w.segs ≤ w'.segs ∧ m.seg < w'.segs := by
    rcases h.found with ⟨-, hm, hs, -⟩ | ⟨hn, hs, -, -⟩
    · omega
    · have := hx.named _ _ hn
      omega
  have hkept : ∀ e' m', w.Flagged e' m' → w'.regions m'.seg = w.regions m'.seg := by
    intro e' m' hf
    by_cases hm : m'.seg = m.seg
    · rcases b with _ | _
      · rw [hm]
        exact h.kept rfl
      · exact absurd hm (h.fresh hx hf)
    · exact h.other _ hm
  refine ⟨fun n g hn => ?_, fun e' md hmd => ?_, fun e' m' hf => ?_, fun e₁ e₂ m₁ m₂ h₁ h₂ hs => ?_⟩
  · rcases h.found with ⟨-, -, -, hnames⟩ | ⟨-, -, hnames, -⟩
    · rw [hnames] at hn
      by_cases hn' : n = args.name
      · subst hn'
        rw [Function.update_self] at hn
        cases hn
        exact hsegs.2
      · rw [Function.update_of_ne hn'] at hn
        exact lt_of_lt_of_le (hx.named n g hn) hsegs.1
    · rw [hnames] at hn
      exact lt_of_lt_of_le (hx.named n g hn) hsegs.1
  · rw [h.maps] at hmd
    rw [h.live]
    by_cases he : e' = e
    · subst he
      rw [Function.update_self] at hmd
      cases hmd
      exact ⟨hsegs.2, hlive⟩
    · rw [Function.update_of_ne he] at hmd
      have := hx.mapped e' md hmd
      exact ⟨lt_of_lt_of_le this.1 hsegs.1, this.2⟩
  · rcases h.flagged hf with ⟨rfl, rfl, rfl⟩ | ⟨-, hf⟩
    · exact h.deed rfl
    · rw [hkept e' m' hf]
      exact hx.owner e' m' hf
  · rcases h.flagged h₁ with ⟨rfl, rfl, rfl⟩ | ⟨-, hf₁⟩ <;>
      rcases h.flagged h₂ with ⟨rfl, rfl, hb⟩ | ⟨-, hf₂⟩
    · rfl
    · exact absurd hs.symm (h.fresh hx hf₂)
    · subst hb
      exact absurd hs (h.fresh hx hf₁)
    · exact hx.unique _ _ _ _ hf₁ hf₂ hs

end

/-! ## What the other calls do -/

section
variable (who : E → Pid) (w : World E) (e : E)

theorem Shrinks.refl : Shrinks who w w :=
  ⟨fun _ _ => id, fun _ _ h => ⟨h, rfl⟩, rfl, fun _ => rfl, fun _ => rfl⟩

theorem shrinks_put (g : ℕ) (role : Role) (v : ℕ) : Shrinks who w (w.put g e role.cell v) := by
  have hword : ∀ g' h, h ≠ role.cell → ((w.put g e role.cell v).regions g').hdr h =
      (w.regions g').hdr h := by
    intro g' h hne
    rw [World.put_regions]
    by_cases hg : g' = g
    · subst hg
      rw [Function.update_self]
      exact Region.hdr_setWord_ne hne v
    · rw [Function.update_of_ne hg]
  refine ⟨fun n g' hn => ?_, fun e' md hm => ?_, World.put_segs .., fun g' => ?_, fun g' => ?_⟩
  · rwa [World.put_names] at hn
  · rw [World.put_maps] at hm
    rw [World.put_live]
    exact ⟨hm, rfl⟩
  · exact hword g' _ (by cases role <;> decide)
  · exact hword g' _ (by cases role <;> decide)

theorem shrinks_crashed (pid : ℕ) : Shrinks who w (w.crashed who pid) := by
  refine ⟨fun _ _ => id, fun e' md hm => ?_, rfl, fun _ => rfl, fun _ => rfl⟩
  have hm' : (if (who e').val = pid then none else w.maps e') = some md := hm
  split_ifs at hm' with hp
  exact ⟨hm', Function.update_of_ne hp ..⟩

/-- A claim of a role changes neither names nor mappings. -/
theorem claimed_frame (me : Pid) (g : ℕ) (kind : Kind) :
    (w.claimed e me g kind).names = w.names ∧ (w.claimed e me g kind).maps = w.maps ∧
      Shrinks who w (w.claimed e me g kind) := by
  unfold World.claimed
  rcases kind.role with _ | role
  · exact ⟨rfl, rfl, .refl who w⟩
  · exact ⟨World.put_names .., World.put_maps .., shrinks_put who w e g role me.val⟩

variable [DecidableEq E]

theorem shrinks_closed : Shrinks who w (w.closed e) := by
  refine ⟨fun n g hn => w.closed_names e hn, fun e' md hm => ?_, w.closed_segs e,
    fun g => by rw [w.closed_regions], fun g => by rw [w.closed_regions]⟩
  by_cases he : e' = e
  · subst he
    rw [w.closed_self] at hm
    cases hm
  · rw [w.closed_ne e he] at hm
    exact ⟨hm, by rw [w.closed_live]⟩

/-- **Dropping an endpoint**: its role is handed back, then its mapping goes. -/
theorem run_dropEndpoint (me : Pid) (ep : Endpoint) :
    ∃ w', (dropEndpoint me ep).run (World.exec who e) w = ((), w'.closed e) ∧
      w'.names = w.names ∧ w'.maps = w.maps ∧ Shrinks who w w' := by
  unfold dropEndpoint
  rcases ep.args.kind.role with _ | role
  · exact ⟨w, rfl, rfl, rfl, .refl who w⟩
  · dsimp only
    rw [Prog.run_bind, releaseRole, Prog.run_bind, (osMapping_runs who e ep.shmem).cas]
    split_ifs
    · exact ⟨_, rfl, World.put_names .., World.put_maps .., shrinks_put who w e _ role 0⟩
    · exact ⟨w, rfl, rfl, rfl, .refl who w⟩

/-- **`unlink`** removes the name. -/
theorem run_unlink (hmap : w.maps e = none) {name : String}
    (hlen : ∀ g, w.names name = some g → (w.regions g).len ≠ 0) :
    (unlink name).run (World.exec who e) w =
      ((), { w with names := Function.update w.names name none }) := by
  unfold unlink
  rw [Prog.run_bind]
  rcases hname : w.names name with _ | g
  · have hsame : Function.update w.names name none = w.names := by
      rw [← hname, Function.update_eq_self]
    rw [hsame, run_tryOpen, hname]
    rfl
  · rw [tryOpen_mapped who e w hname (hlen g hname)]
    dsimp only
    rw [Prog.run_bind, setOwner_mapped, run_dropShmem]
    simp [World.closed, World.mapped, Function.update_idem, ← hmap]

/-- The name of a segment of no bytes stays. -/
theorem run_unlink_empty {name : String} {g : ℕ} (hname : w.names name = some g)
    (hlen : (w.regions g).len = 0) : (unlink name).run (World.exec who e) w = ((), w) := by
  unfold unlink
  rw [Prog.run_bind, tryOpen_empty who e w hname hlen]
  rfl

end

/-! ## Runs -/

/-- An endpoint with the owner flag mapped its segment by this name. -/
def World.Owned (w : World E) (name : String) : Prop := ∃ e m, w.Flagged e m ∧ m.name = name

/-- The name of a segment whose owner lives refers to nothing else. -/
def World.Loyal (w : World E) : Prop := ∀ e m g, w.Flagged e m → w.names m.name = some g → g = m.seg

/-- The name of a segment whose owner lives refers to it. -/
def World.Rooted (w : World E) : Prop := ∀ e m, w.Flagged e m → w.names m.name = some m.seg

namespace Generations
variable [DecidableEq E]

/-- What holds in every run. -/
structure Inv (who : E → Pid) (s : Generations E) : Prop where
  exclusive : Exclusive who s.world
  ends : ∀ e, (s.ends e).map (·.shmem) = (s.world.maps e).map (·.shmem)

/-- No segment is created under a name while an owner lives who mapped another by it. -/
def Vacated (s : Generations E) (a : GenAct E) : Prop :=
  ∀ e args, a = .open e args → Creates args s.world → ¬ s.world.Owned args.name

/-- No name is unlinked whose owner lives. -/
def Unowned (s : Generations E) (a : GenAct E) : Prop :=
  ∀ e name, a = .unlink e name → ¬ s.world.Owned name

/-- **What a step does to the operating system.** -/
inductive Change (who : E → Pid) (w : World E) : GenAct E → World E → Prop
  | idle {a} : Change who w a w
  | refused {e args m b w₁} : w.live (who e).val = true → Acquired e (who e) args w m b w₁ →
      Change who w (.open e args) (w₁.closed e)
  | bound {e args m b w₁ w'} : w.live (who e).val = true → Acquired e (who e) args w m b w₁ →
      w'.names = w₁.names → w'.maps = w₁.maps → Shrinks who w₁ w' → Change who w (.open e args) w'
  | drop {e w₁} : w₁.names = w.names → w₁.maps = w.maps → Shrinks who w w₁ →
      Change who w (.drop e) (w₁.closed e)
  | unlink {e name} :
      Change who w (.unlink e name) { w with names := Function.update w.names name none }
  | crash {pid} : Change who w (.crash pid) (w.crashed who pid)

theorem Change.exclusive {w w' : World E} {a : GenAct E} (h : Change who w a w')
    (hx : Exclusive who w) : Exclusive who w' := by
  cases h with
  | idle => exact hx
  | refused hl ha => exact (hx.acquired hl ha).shrink (shrinks_closed who _ _)
  | bound hl ha _ _ hs => exact (hx.acquired hl ha).shrink hs
  | drop _ _ hs => exact (hx.shrink hs).shrink (shrinks_closed who _ _)
  | unlink =>
    refine hx.shrink ⟨fun n g hn => ?_, fun _ _ h => ⟨h, rfl⟩, rfl, fun _ => rfl, fun _ => rfl⟩
    dsimp only at hn
    rw [Function.update_apply] at hn
    split_ifs at hn
    exact hn
  | crash => exact hx.shrink (shrinks_crashed who _ _)

/-- An endpoint comes and goes with its mapping. -/
theorem ends_update {s : Generations E} (hI : s.Inv who) {e : E} {w : World E} {ep : Option Endpoint}
    (hself : ep.map (·.shmem) = (w.maps e).map (·.shmem))
    (hother : ∀ e', e' ≠ e → w.maps e' = s.world.maps e') (e' : E) :
    (Function.update s.ends e ep e').map (·.shmem) = (w.maps e').map (·.shmem) := by
  by_cases he : e' = e
  · subst he
    rw [Function.update_self]
    exact hself
  · rw [Function.update_of_ne he, hother e' he]
    exact hI.ends e'

omit [DecidableEq E] in
theorem Inv.unmapped {s : Generations E} (hI : s.Inv who) {e : E} (he : (s.ends e).isNone) :
    s.world.maps e = none := by
  have := hI.ends e
  rw [Option.isNone_iff_eq_none.1 he] at this
  exact Option.map_eq_none_iff.1 this.symm

/-- **One step keeps the invariant.** -/
theorem Inv.step {s s' : Generations E} {a : GenAct E} (hI : s.Inv who)
    (h : s.step who a = some s') : s'.Inv who ∧ Change who s.world a s'.world := by
  suffices hc : Change who s.world a s'.world ∧
      ∀ e, (s'.ends e).map (·.shmem) = (s'.world.maps e).map (·.shmem) from
    ⟨⟨hc.1.exclusive hI.exclusive, hc.2⟩, hc.1⟩
  cases a with
  | «open» e args =>
    simp only [Generations.step] at h
    split_ifs at h with hen
    cases h
    have hmap := hI.unmapped hen.2
    rcases construct_acquires who (who e) hmap 0 with ⟨hw, hres⟩ | ⟨m, b, w₁, hacq, ⟨hw, hres⟩ |
      ⟨ep, hw, hres, hep⟩⟩
    · rw [hw, hres]
      refine ⟨.idle, ends_update hI ?_ fun _ _ => rfl⟩
      rw [hmap]
      rfl
    · rw [hw, hres]
      refine ⟨.refused hen.1 hacq, ends_update hI ?_ fun e' he => ?_⟩
      · rw [World.closed_self]
        rfl
      · rw [World.closed_ne _ _ he, hacq.maps, Function.update_of_ne he]
    · rw [hw, hres]
      obtain ⟨hn, hm, hs⟩ := claimed_frame who w₁ e (who e) m.seg args.kind
      refine ⟨.bound hen.1 hacq hn hm hs, ends_update hI ?_ fun e' he => ?_⟩
      · rw [hm, hacq.maps, Function.update_self]
        exact congrArg some hep
      · rw [hm, hacq.maps, Function.update_of_ne he]
  | drop e =>
    simp only [Generations.step] at h
    split at h
    · rename_i ep hep
      cases h
      obtain ⟨w₁, hrun, hn, hm, hs⟩ := run_dropEndpoint who s.world e (who e) ep
      rw [hrun]
      refine ⟨.drop hn hm hs, ends_update hI ?_ fun e' he => ?_⟩
      · rw [World.closed_self]
        rfl
      · rw [World.closed_ne _ _ he, hm]
    · cases h
  | unlink e name =>
    simp only [Generations.step] at h
    split_ifs at h with hen
    cases h
    by_cases hempty : ∃ g, s.world.names name = some g ∧ (s.world.regions g).len = 0
    · obtain ⟨g, hname, hlen⟩ := hempty
      rw [run_unlink_empty who s.world e hname hlen]
      exact ⟨.idle, hI.ends⟩
    · rw [run_unlink who s.world e (hI.unmapped hen.2) fun g hname hlen => hempty ⟨g, hname, hlen⟩]
      exact ⟨.unlink, hI.ends⟩
  | crash pid =>
    cases h
    refine ⟨.crash, fun e => ?_⟩
    dsimp only [World.crashed]
    split_ifs
    · rfl
    · exact hI.ends e

omit [DecidableEq E] in
theorem loyal_shrink {w w' : World E} (h : w.Loyal) (hs : Shrinks who w w') : w'.Loyal :=
  fun e m g hf hn => h e m g (hs.maps _ _ hf).1 (hs.names _ _ hn)

theorem loyal_acquired {w w' : World E} (h : w.Loyal) {e : E} {args : OpenArgs} {m : Shmem}
    {b : Bool} (hv : Creates args w → ¬ w.Owned args.name)
    (ha : Acquired e (who e) args w m b w') : w'.Loyal := by
  intro e' m' g hf hn
  rcases ha.flagged hf with ⟨rfl, rfl, rfl⟩ | ⟨-, hf⟩ <;>
    rcases ha.found with ⟨hc, -, -, hnames⟩ | ⟨hname, -, hnames, -⟩
  · rw [hnames, ha.name, Function.update_self] at hn
    exact (Option.some.inj hn).symm
  · rw [hnames, ha.name, hname] at hn
    exact (Option.some.inj hn).symm
  · rw [hnames, Function.update_of_ne fun he => hv hc ⟨e', m', hf, he⟩] at hn
    exact h e' m' g hf hn
  · rw [hnames] at hn
    exact h e' m' g hf hn

/-- **A step keeps owners loyal**, if it creates no segment under the name of one. -/
theorem Change.loyal {s : Generations E} {w' : World E} {a : GenAct E}
    (h : Change who s.world a w') (hl : s.world.Loyal) (hv : s.Vacated a) : w'.Loyal := by
  cases h with
  | idle => exact hl
  | refused _ ha => exact loyal_shrink (loyal_acquired hl (hv _ _ rfl) ha) (shrinks_closed who _ _)
  | bound _ ha _ _ hs => exact loyal_shrink (loyal_acquired hl (hv _ _ rfl) ha) hs
  | drop _ _ hs => exact loyal_shrink (loyal_shrink hl hs) (shrinks_closed who _ _)
  | unlink =>
    intro e m g hf hn
    dsimp only at hn
    rw [Function.update_apply] at hn
    split_ifs at hn
    exact hl e m g hf hn
  | crash => exact loyal_shrink hl (shrinks_crashed who _ _)

theorem rooted_acquired {w w' : World E} (h : w.Rooted) {e : E} {args : OpenArgs} {m : Shmem}
    {b : Bool} (ha : Acquired e (who e) args w m b w') : w'.Rooted := by
  intro e' m' hf
  rcases ha.flagged hf with ⟨rfl, rfl, rfl⟩ | ⟨-, hf⟩ <;>
    rcases ha.found with ⟨hc, -, -, hnames⟩ | ⟨hname, -, hnames, -⟩
  · rw [hnames, ha.name, Function.update_self]
  · rw [hnames, ha.name, hname]
  · have hne : m'.name ≠ args.name := by
      intro he
      have := h e' m' hf
      rw [he, hc.1] at this
      cases this
    rw [hnames, Function.update_of_ne hne]
    exact h e' m' hf
  · rw [hnames]
    exact h e' m' hf

/-- An owner that leaves takes its own name. -/
theorem rooted_closed {w : World E} (h : w.Rooted) (hx : Exclusive who w) (e : E) :
    (w.closed e).Rooted := by
  intro e' m' hf
  have hf' : w.Flagged e' m' := ((shrinks_closed who w e).maps _ _ hf).1
  have hne : e' ≠ e := by
    rintro rfl
    rw [World.Flagged, World.closed_self] at hf
    cases hf
  unfold World.closed
  rcases hm : w.maps e with _ | ⟨m, b⟩
  · exact h e' m' hf'
  · dsimp only
    rcases b with _ | _
    · exact h e' m' hf'
    · have hname : m'.name ≠ m.name := by
        intro heq
        refine hne (hx.unique e' e m' m hf' hm ?_)
        have h₁ := h e' m' hf'
        rw [heq, h e m hm] at h₁
        exact (Option.some.inj h₁).symm
      rw [if_pos rfl, Function.update_of_ne hname]
      exact h e' m' hf'

omit [DecidableEq E] in
theorem rooted_of_eq {w w' : World E} (h : w.Rooted) (hn : w'.names = w.names)
    (hm : w'.maps = w.maps) : w'.Rooted := by
  intro e m hf
  rw [World.Flagged, hm] at hf
  rw [hn]
  exact h e m hf

/-- **A step keeps owners rooted**, if it unlinks the name of none. -/
theorem Change.rooted {s : Generations E} {w' : World E} {a : GenAct E}
    (h : Change who s.world a w') (hx : Exclusive who s.world) (hr : s.world.Rooted)
    (hu : s.Unowned a) : w'.Rooted := by
  cases h with
  | idle => exact hr
  | refused hl ha => exact rooted_closed (rooted_acquired hr ha) (hx.acquired hl ha) _
  | bound _ ha hn hm _ => exact rooted_of_eq (rooted_acquired hr ha) hn hm
  | drop hn hm hs => exact rooted_closed (rooted_of_eq hr hn hm) (hx.shrink hs) _
  | unlink =>
    intro e m hf
    dsimp only
    rw [Function.update_of_ne fun he => hu _ _ rfl ⟨e, m, hf, he⟩]
    exact hr e m hf
  | crash => exact fun e m hf => hr e m ((shrinks_crashed who _ _).maps _ _ hf).1

omit [DecidableEq E] in
/-- A free name has no owner. -/
theorem vacated_of_rooted {s : Generations E} {a : GenAct E} (hr : s.world.Rooted) : s.Vacated a := by
  rintro e args - hc ⟨e', m, hf, hn⟩
  have := hr e' m hf
  rw [hn, hc.1] at this
  cases this

omit [DecidableEq E] in
theorem Inv.init {w : World E} (hmaps : ∀ e, w.maps e = none)
    (hnames : ∀ n g, w.names n = some g → g < w.segs) : (init w).Inv who := by
  have hnone : ∀ e md, w.maps e ≠ some md := by
    intro e md h
    rw [hmaps e] at h
    cases h
  refine ⟨⟨hnames, fun e md h => absurd h (hnone e md), fun e m hf => absurd hf (hnone e _),
    fun e e' m m' hf => absurd hf (hnone e _)⟩, fun e => ?_⟩
  exact (congrArg (Option.map (·.shmem)) (hmaps e)).symm

/-- **Leaving a channel.**  In a run in which no segment is created under a name while an owner
    lives who mapped another segment by it, a drop removes a name only if it refers to the very
    segment that the endpoint has mapped.  All runs in which no name is unlinked whose owner
    lives are of this kind. -/
theorem leaving {w : World E} (hmaps : ∀ e, w.maps e = none)
    (hnames : ∀ n g, w.names n = some g → g < w.segs) :
    (∀ s, Reach (step who) (fun s a _ => s.Vacated a) (init w) s → ∀ e ep s' name,
      s.ends e = some ep → s.step who (.drop e) = some s' →
      s'.world.names name ≠ s.world.names name → s.world.names name = some ep.shmem.seg) ∧
    ∀ s, Reach (step who) (fun s a _ => s.Unowned a) (init w) s →
      Reach (step who) (fun s a _ => s.Vacated a) (init w) s := by
  have hnone : ∀ e m, ¬ w.Flagged e m := fun e m hf => by
    rw [World.Flagged, hmaps e] at hf
    cases hf
  constructor
  · intro s hr e ep s' name hep hs hname
    obtain ⟨hI, hl⟩ := hr.inv (I := fun s => s.Inv who ∧ s.world.Loyal)
      ⟨.init hmaps hnames, fun e m _ hf => absurd hf (hnone e m)⟩ fun s a s' hI hs hv =>
        ⟨(hI.1.step hs).1, (hI.1.step hs).2.loyal hI.2 hv⟩
    simp only [step, hep] at hs
    cases hs
    obtain ⟨w₁, hrun, hn, hm, -⟩ := run_dropEndpoint who s.world e (who e) ep
    rw [hrun] at hname
    have hend := hI.ends e
    rw [hep] at hend
    obtain ⟨⟨m, b⟩, hmd, hmm⟩ := Option.map_eq_some_iff.1 hend.symm
    dsimp only at hname hmm
    rw [World.closed, hm, hmd] at hname
    dsimp only at hname
    rw [hn] at hname
    -- only a flag removes a name, and only its own
    split_ifs at hname with hb
    · subst hb
      by_cases hne : name = m.name
      · subst hne
        rw [Function.update_self] at hname
        obtain ⟨g, hg⟩ := Option.ne_none_iff_exists'.1 hname.symm
        rw [hg, hl e m g hmd hg, ← hmm]
      · exact absurd (Function.update_of_ne hne ..) hname
    · exact absurd rfl hname
  · intro s hr
    exact (hr.inv (I := fun s => Reach (step who) (fun s a _ => s.Vacated a) (init w) s ∧
      s.Inv who ∧ s.world.Rooted) ⟨.refl, .init hmaps hnames, fun e m hf => absurd hf (hnone e m)⟩
      fun s a s' hI hs hu => ⟨hI.1.tail hs (vacated_of_rooted hI.2.2), (hI.2.1.step hs).1,
        (hI.2.1.step hs).2.rooted hI.2.1.exclusive hI.2.2 hu⟩).1

/-- Three processes. -/
def trio (e : Fin 3) : Pid := ⟨e.val + 1, Nat.succ_pos _, by omega⟩

/-- The owner leaves a tenant behind and takes the name. -/
theorem leaving_owner : ∃ (s s' : Generations (Fin 3)) (ep : Endpoint),
    s.step trio (.drop 0) = some s' ∧ s'.world.names "ch" = none ∧ s.ends 0 = some ep ∧
      s.world.names "ch" = some ep.shmem.seg := by
  have hrun : (steps (step trio) (fun _ a => match a with
        | .unlink _ _ => false
        | _ => true) (init (.boot fun _ => true))
      [.open 0 (.tiny 1 (by decide)), .open 1 { OpenArgs.tiny 1 (by decide) with kind := .reader false }]).map
      (fun s => ((s.ends 0).isSome, s.world.names "ch", (s.step trio (.drop 0)).map
        (·.world.names "ch"))) = some (true, some 0, some none) := by decide +kernel
  obtain ⟨s, hs, he⟩ := reach_eval hrun
  obtain ⟨hend, he⟩ := Prod.mk.inj he
  obtain ⟨hname, he⟩ := Prod.mk.inj he
  obtain ⟨s', hs', hgone⟩ := Option.map_eq_some_iff.1 he
  obtain ⟨ep, hep⟩ := Option.isSome_iff_exists.1 hend
  have hL := @leaving (Fin 3) trio _ (.boot fun _ => true) (fun _ => rfl) nofun
  have hr : Reach (step trio) (fun s a _ => s.Unowned a) (init (.boot fun _ => true)) s := by
    refine hs.mono fun s a _ ha e name h => ?_
    subst h
    cases ha
  refine ⟨s, s', ep, hs', hgone, hep, hL.1 s (hL.2 s hr) 0 ep s' "ch" hep hs' ?_⟩
  rw [hgone, hname]
  exact nofun

/-- Endpoint `0` creates the channel, a supervisor unlinks it, and endpoint `2` creates it anew.
    When endpoint `0` leaves, the new channel loses its name. -/
theorem drop_evicts : ∃ (s s' : Generations (Fin 3)) (ep : Endpoint),
    Reach (step trio) (fun _ _ _ => True) (init (.boot fun _ => true)) s ∧
    s.ends 0 = some ep ∧ ep.shmem.seg = 0 ∧ s.world.names "ch" = some 1 ∧
    s.step trio (.drop 0) = some s' ∧ s'.world.names "ch" = none := by
  have hrun : (steps (step trio) (fun _ _ => true) (init (.boot fun _ => true))
      [.open 0 (.tiny 1 (by decide)), .unlink 1 "ch", .open 2 (.tiny 1 (by decide))]).map
      (fun s => ((s.ends 0).map (·.shmem.seg), s.world.names "ch", (s.step trio (.drop 0)).map
        (·.world.names "ch"))) = some (some 0, some 1, some none) := by decide +kernel
  obtain ⟨s, hs, he⟩ := reach_eval hrun
  obtain ⟨hend, he⟩ := Prod.mk.inj he
  obtain ⟨hname, he⟩ := Prod.mk.inj he
  obtain ⟨s', hs', hgone⟩ := Option.map_eq_some_iff.1 he
  obtain ⟨ep, hep, hseg⟩ := Option.map_eq_some_iff.1 hend
  exact ⟨s, s', ep, hs.mono fun _ _ _ _ => trivial, hep, hseg, hname, hs', hgone⟩

end Generations

end ZeroChannel
