/-
  The deed of a segment is exclusive.

  Nobody opens the segment before its header is complete, so that nobody finds it blank
  (`Reach.clear`), and the outline of the contended deed applies: the owner flag goes with
  the deed.  An endpoint that was opened without a geometry performs no operation that
  grants the flag (`OsOp.Grants`).
-/
import ZeroChannel.Proof.OpenAmong
import ZeroChannel.Proof.Inside

namespace ZeroChannel

open Concur

variable {E : Type} [DecidableEq E] {who : E → Pid} {g : ℕ} {may : EndCall → Bool}

/-! ## No blank segments -/

omit [DecidableEq E] in
theorem orderly_finds {w : World E} (hw : w.Orderly g) (e : E) (o : OsOp) :
    w.findsBlank e o g = false := by
  cases o with
  | load m x =>
    cases x with
    | magic =>
      refine decide_eq_false ?_
      rintro ⟨hm, hz, hmap⟩
      rcases hw e _ hmap hm with ho | hr
      · cases ho
      · rw [hr] at hz
        exact absurd hz (by decide)
    | _ => rfl
  | _ => rfl

/-- If nobody opens the segment before its header is complete, nobody finds it blank. -/
theorem orderly_clear {w : World E} (hw : w.Before g) {s : (system who may).Conf}
    (hs : Reach Pool.step (fun _ a s' => Alive s' a ∧ s'.mem.world.Orderly g)
      (systemInit who may w) s) :
    Reach Pool.step (fun _ a s' => Clear g s' a) (systemInit who may w) s := by
  have h₀ : w.Orderly g := by
    intro e md hm
    rw [hw.maps e] at hm
    cases hm
  refine (hs.with_inv (I := fun s => s.mem.blank g = false ∧ s.mem.world.Orderly g) ⟨rfl, h₀⟩
    ?_).mono fun s a s' h => ⟨h.1.1, h.2.1⟩
  rintro s a s' ⟨hb, ho⟩ hstep ⟨-, ho'⟩
  refine ⟨?_, ho'⟩
  rcases Pool.step_cases hstep with ⟨t, c, l, p, -, -, -, rfl⟩ | ⟨t, c, o, l, -, -, rfl⟩ |
    ⟨t, c, o, k, -, -, rfl⟩
  · exact hb
  · exact hb
  · cases t with
    | endpoint e => exact Bool.or_eq_false_iff.2 ⟨hb, orderly_finds ho e o⟩
    | kernel => exact Bool.or_eq_false_iff.2 ⟨hb, orderly_finds ho c o⟩

/-! ## Granting the flag -/

/-- Operations that give the owner flag to the endpoint that performs them. -/
def OsOp.Grants : OsOp → Prop
  | create _ _ => True
  | setOwner owner => owner = true
  | _ => False

/-- Endpoint `e` has no owner flag. -/
def World.Unflagged (w : World E) (e : E) : Prop := ∀ m, ¬ w.Flagged e m

omit [DecidableEq E] in
theorem unflagged_none {w : World E} {e : E} (h : w.maps e = none) : w.Unflagged e := by
  intro m hm
  rw [World.Flagged, h] at hm
  cases hm

omit [DecidableEq E] in
theorem unflagged_of_maps {w w' : World E} {e : E} (h : w.Unflagged e) (hm : w'.maps e = w.maps e) :
    w'.Unflagged e := by
  intro m hf
  rw [World.Flagged, hm] at hf
  exact h m hf

omit [DecidableEq E] in
/-- Nobody else gives it the flag. -/
theorem unflagged_passes {w w' : World E} {e : E} (h : w.Unflagged e) (hs : Sound who g w')
    (hp : Passes who g e w w') : w'.Unflagged e := by
  intro m hf
  exact unflagged_of_maps h (hp.maps (hs.mapped e _ hf).2) m hf

/-- An operation that does not grant the flag. -/
theorem exec_unflagged {e : E} {o : OsOp} (ho : ¬ o.Grants) {w : World E} (h : w.Unflagged e) :
    (World.exec who e o w).2.Unflagged e := by
  cases o with
  | create name size => exact absurd trivial ho
  | «open» name =>
    simp only [World.exec]
    split
    · exact h
    · split_ifs
      · exact h
      · intro m hm
        rw [World.Flagged, World.mapped_self] at hm
        cases hm
  | setOwner owner =>
    intro m hm
    have hm' : Function.update w.maps e ((w.maps e).map fun md => { md with owner }) e =
      some ⟨m, true⟩ := hm
    rw [Function.update_self] at hm'
    obtain ⟨md, -, hmd⟩ := Option.map_eq_some_iff.1 hm'
    cases hmd
    exact ho rfl
  | close => exact unflagged_none (World.closed_self ..)
  | store m x v => exact unflagged_of_maps h (congrFun (World.put_maps ..) e)
  | cas m x old new =>
    simp only [World.exec]
    split_ifs
    · exact unflagged_of_maps h (congrFun (World.put_maps ..) e)
    · exact h
  | crash pid =>
    by_cases hp : (who e).val = pid
    · exact unflagged_none (if_pos hp)
    · exact unflagged_of_maps h (if_neg hp)
  | len | zero | load | ring | probe => exact h

/-- Code on a mapped header grants nothing. -/
theorem osMapping_ungranting (m : Shmem) :
    (osMapping m).Uses (fun o : OsOp => ¬ o.Grants) fun _ => True :=
  ⟨fun _ => ⟨id, fun _ => trivial⟩, fun _ _ _ _ => ⟨id, fun _ => trivial⟩,
    fun _ => ⟨id, fun _ => trivial⟩⟩

theorem onRing_ungranting {G : Geometry} {α : Type} (m : Shmem) (p : SegProg G α) :
    (onRing m p).All fun o : OsOp => ¬ o.Grants :=
  onRing_all (fun _ _ => id) p.all_true

theorem dropShmem_ungranting : dropShmem.All fun o : OsOp => ¬ o.Grants :=
  ⟨id, fun _ => trivial⟩

theorem reject_ungranting {α : Type} (er : ZeroChannelError) :
    (reject er : OsProg (Option (Except ZeroChannelError α))).All fun o : OsOp => ¬ o.Grants :=
  dropShmem_ungranting.bind fun _ => trivial

theorem tryAttach_ungranting (name : String) (dtype : Dtype) :
    (tryAttach name dtype).All fun o : OsOp => ¬ o.Grants := by
  have hopen : (tryOpen name).All fun o : OsOp => ¬ o.Grants := ⟨id, fun _ => trivial⟩
  refine hopen.bind fun r => ?_
  rcases r with _ | m
  · trivial
  · refine (attachHeader_all (osMapping_ungranting m) dtype).bind fun r => ?_
    rcases r with er | _ | header
    · exact reject_ungranting er
    · exact dropShmem_ungranting.bind fun _ => trivial
    · trivial

theorem bindEndpoint_ungranting (kind : Kind) (m : Shmem) (header : Header) (me : Pid) (name : String)
    (fuel : ℕ) : (bindEndpoint kind m header me name fuel).All fun o : OsOp => ¬ o.Grants := by
  have hM := osMapping_ungranting m
  cases kind with
  | writer =>
    refine bindWriter_all hM (fun h => ?_) trivial me name header fuel
    unfold attachWriter
    split
    · exact (onRing_ungranting m _).bind fun _ => trivial
    · trivial
  | reader zc =>
    refine bindReader_all hM (fun h => ?_) trivial me name zc header fuel
    unfold attachReader
    split <;> trivial

/-- **A constructor without a geometry** grants nothing. -/
theorem construct_ungranting {args : OpenArgs} (h : args.payloadBytes = none ∨ args.entryCount = none)
    (me : Pid) (fuel : ℕ) : (construct me args fuel).All fun o : OsOp => ¬ o.Grants := by
  have hopen : (openOrCreate me args.name args.payloadBytes args.entryCount args.dtype
      args.delayedConnect fuel).All fun o : OsOp => ¬ o.Grants := by
    unfold openOrCreate
    rcases hpb : args.payloadBytes with _ | pb <;> rcases hn : args.entryCount with _ | n
    · refine (tryAttach_ungranting args.name args.dtype).bind fun r => ?_
      rcases r with _ | er | _ | pair
      · trivial
      · trivial
      · dsimp only
        split_ifs <;> trivial
      · trivial
    · trivial
    · trivial
    · rw [hpb, hn] at h
      rcases h with h | h <;> cases h
  refine hopen.bind fun r => ?_
  rcases r with _ | er | _ | ⟨m, header⟩
  · trivial
  · trivial
  · trivial
  · refine (bindEndpoint_ungranting args.kind m header me args.name fuel).bind fun r => ?_
    rcases r with _ | er | inner
    · trivial
    · exact reject_ungranting er
    · trivial

theorem dropEndpoint_ungranting (me : Pid) (ep : Endpoint) :
    (dropEndpoint me ep).All fun o : OsOp => ¬ o.Grants := by
  unfold dropEndpoint
  rcases ep.args.kind.role with _ | role
  · exact dropShmem_ungranting
  · refine Prog.All.bind ?_ fun _ => dropShmem_ungranting
    exact ((osMapping_ungranting ep.shmem).cas _ _ _ trivial).bind fun _ => trivial

/-- **Calls without a geometry** grant nothing. -/
theorem enter_ungranting {me : Pid} {c : EndCall} {l : EndLoc} {p : OsProg (EndOut × EndLoc)}
    (hp : l.enter me c = some p) (hunlink : ∀ name, c ≠ .unlink name)
    (hc : ∀ args ∈ c.args?, args.payloadBytes = none ∨ args.entryCount = none) :
    p.All fun o : OsOp => ¬ o.Grants := by
  cases c with
  | construct args fuel =>
    cases l with
    | closed =>
      cases hp
      exact (construct_ungranting (hc args rfl) me fuel).bind fun _ => trivial
    | bound | spinning => cases hp
  | use u =>
    cases l with
    | bound ep =>
      obtain ⟨q, hq, rfl⟩ := Option.map_eq_some_iff.1 hp
      obtain ⟨G, -, rfl⟩ := Option.map_eq_some_iff.1 hq
      exact (onRing_ungranting ep.shmem _).bind fun _ => trivial
    | closed | spinning => cases hp
  | drop =>
    cases l with
    | bound ep =>
      cases hp
      exact (dropEndpoint_ungranting me ep).bind fun _ => trivial
    | closed | spinning => cases hp
  | unlink name => exact absurd rfl (hunlink name)

/-! ## What an endpoint was opened with -/

/-- A step completes the list of the calls of an endpoint, or leaves it alone. -/
theorem calls_step {s s' : (system who may).Conf} {a : (system who may).Act}
    (h : Pool.step s a = some s') (e : E) : calls s' e = calls s e ∨
      ∃ c : EndCall, a = .call (.endpoint e) c ∧ calls s' e = calls s e ++ [c] := by
  rcases Pool.step_cases h with ⟨t, c, l, p, rfl, hl, -, rfl⟩ | ⟨t, c, o, l, rfl, hl, rfl⟩ |
    ⟨t, c, o, k, rfl, hl, rfl⟩
  · by_cases ht : t = .endpoint e
    · subst ht
      refine Or.inr ⟨c, rfl, ?_⟩
      unfold calls
      rw [hl]
      simp only [Function.update_self]
    · refine Or.inl ?_
      unfold calls
      simp only [Function.update_of_ne (Ne.symm ht)]
  · refine Or.inl ?_
    by_cases ht : t = .endpoint e
    · subst ht
      unfold calls
      rw [hl]
      simp only [Function.update_self]
      exact List.map_append
    · unfold calls
      simp only [Function.update_of_ne (Ne.symm ht)]
  · refine Or.inl ?_
    by_cases ht : t = .endpoint e
    · subst ht
      unfold calls
      rw [hl]
      simp only [Function.update_self]
    · unfold calls
      simp only [Function.update_of_ne (Ne.symm ht)]

/-- The arguments lack a geometry. -/
def OpenArgs.Unsized (args : OpenArgs) : Prop := args.payloadBytes = none ∨ args.entryCount = none

/-- Endpoint `e` has the flag only if it was opened with a geometry. -/
structure Supplied (e : E) (s : (system who may).Conf) : Prop where
  flag : (∀ args ∈ openedWith s e, args.Unsized) → s.mem.world.Unflagged e
  prog : ∀ (c : EndCall) (p : OsProg (EndOut × EndLoc)), s.ctl (.endpoint e) = .busy c p →
    (∀ args ∈ c.args?, args.Unsized) → p.All fun o : OsOp => ¬ o.Grants

theorem openedWith_last {s : (system who may).Conf} {e : E} {c : EndCall} {l : List EndCall}
    (h : calls s e = l ++ [c]) :
    openedWith s e = c.args?.or (l.filterMap EndCall.args?).getLast? := by
  unfold openedWith
  rw [h, List.filterMap_append]
  rcases hc : c.args? with _ | args <;> simp [hc]

/-- A constructor is only called by an endpoint that has nothing mapped. -/
theorem construct_unflagged (ht : Tame may) {s : (system who may).Conf} {e : E} {l : EndLoc}
    {args : OpenArgs} {fuel : ℕ} {p : OsProg (EndOut × EndLoc)} (hL : (deedOutline g ht).Holds s)
    (hl : s.ctl (.endpoint e) = .idle l) (hp : l.enter (who e) (.construct args fuel) = some p) :
    s.mem.world.Unflagged e := by
  cases l with
  | closed =>
    have hun : Unmapped who g e s.mem.world := (deedOutline g ht).at_idle (hL.2 (.endpoint e)) hl
    intro m hf
    rw [World.Flagged, hun.maps (hun.sound.mapped e _ hf).2] at hf
    cases hf
  | bound | spinning => cases hp

/-- A step of somebody else. -/
theorem Supplied.other {s s' : (system who may).Conf} {e : E} (h : Supplied e s)
    (hcalls : calls s' e = calls s e) (hctl : s'.ctl (.endpoint e) = s.ctl (.endpoint e))
    (hflag : s.mem.world.Unflagged e → s'.mem.world.Unflagged e) : Supplied e s' := by
  have hwith : openedWith s' e = openedWith s e := by
    unfold openedWith
    rw [hcalls]
  constructor
  · intro hno
    rw [hwith] at hno
    exact hflag (h.flag hno)
  · intro c p hp
    rw [hctl] at hp
    exact h.prog c p hp

theorem Supplied.step (ht : Tame may) {s s' : (system who may).Conf} {a : (system who may).Act}
    {e : E} (hL : (deedOutline g ht).Holds s) (h : Supplied e s) (hs : Pool.step s a = some s')
    (hP : Clear g s' a) : Supplied e s' := by
  have hcalls := calls_step hs e
  rcases Pool.step_cases hs with ⟨t, c, l, p, rfl, hl, he, rfl⟩ | ⟨t, c, o, l, rfl, hl, rfl⟩ |
    ⟨t, c, o, k, rfl, hl, rfl⟩
  · by_cases hte : t = .endpoint e
    · subst hte
      have he' : (if may c then EndLoc.enter (who e) c l else none) = some p := he
      split_ifs at he' with hmay
      have hlast := hcalls.resolve_left fun hsame => by
        have := congrArg List.length hsame
        unfold calls at this
        rw [hl] at this
        simp [Function.update_self] at this
      obtain ⟨c', hc', hlast⟩ := hlast
      cases hc'
      constructor
      · intro hno
        rw [openedWith_last hlast] at hno
        cases c with
        | construct args fuel =>
          have hun := construct_unflagged ht hL hl he'
          exact hun
        | use | drop | unlink => exact h.flag hno
      · intro c' p' hp' hno
        dsimp only at hp'
        rw [Function.update_self] at hp'
        cases hp'
        refine enter_ungranting he' (fun name hc => ?_) hno
        rw [hc, ht.unlink name] at hmay
        cases hmay
    · refine h.other (hcalls.resolve_right ?_) (Function.update_of_ne (Ne.symm hte) ..) id
      rintro ⟨c', hc', -⟩
      cases hc'
      exact hte rfl
  · have hsame := hcalls.resolve_right nofun
    by_cases hte : t = .endpoint e
    · subst hte
      refine ⟨fun hno => h.flag ?_, fun c' p' hp' => ?_⟩
      · unfold openedWith at hno ⊢
        rwa [hsame] at hno
      · dsimp only at hp'
        rw [Function.update_self] at hp'
        cases hp'
    · exact h.other hsame (Function.update_of_ne (Ne.symm hte) ..) id
  · have hsame := hcalls.resolve_right nofun
    have hguar := (deedOutline g ht).guar hL hs hP (o := o) (by rw [hl]; rfl)
    by_cases hte : t = .endpoint e
    · subst hte
      have hlast : calls s e = (s.hist (.endpoint e)).map Prod.fst ++ [c] := by
        unfold calls
        rw [hl]
        rfl
      refine ⟨fun hno => ?_, fun c' p' hp' hno => ?_⟩
      · have hwith : ∀ args ∈ openedWith s e, args.Unsized := by
          unfold openedWith at hno ⊢
          rwa [hsame] at hno
        refine exec_unflagged (h.prog c _ hl fun args hargs => hwith args ?_).1 (h.flag hwith)
        rw [openedWith_last hlast, hargs]
        rfl
      · dsimp only at hp'
        rw [Function.update_self] at hp'
        cases hp'
        exact (h.prog c _ hl hno).2 _
    · refine h.other hsame (Function.update_of_ne (Ne.symm hte) ..) fun hf => ?_
      cases t with
      | endpoint e' => exact unflagged_passes hf hguar.1 (hguar.2.2.1 e fun h => hte (by rw [h]))
      | kernel => exact unflagged_passes hf hguar.1 (hguar.2.2 e)

theorem supplied_init {w : World E} (hw : w.Before g) (e : E) :
    Supplied e (systemInit who may w) :=
  ⟨fun _ => unflagged_none (hw.maps e), nofun⟩

/-! ## Runs -/

theorem opens_tame : Tame EndCall.opens := ⟨fun _ => rfl, fun _ _ _ h => by cases h⟩

/-- **The deed is exclusive.**  Endpoints open a segment, drop it, and crash; before its header
    is complete only its creator has mapped it.  At any moment at most one endpoint has the
    owner flag; it is one that supplied a geometry, its process lives, and the header names the
    process.  Once that process is dead, a bid made alone succeeds. -/
theorem deed_exclusive {w : World E} (hw : w.Before g) {s : (system who EndCall.opens).Conf}
    (hs : Reach Pool.step (fun _ a s' => Alive s' a ∧ s'.mem.world.Orderly g)
      (systemInit who EndCall.opens w) s) :
    (∀ e m, s.mem.world.Flagged e m → m.seg = g → s.mem.world.live (who e).val = true ∧
      (s.mem.world.Ready g → (s.mem.world.regions g).hdr .segmentOwner = (who e).val) ∧
      ∀ e' m', s.mem.world.Flagged e' m' → m'.seg = g → e' = e) ∧
    (∀ e, (∀ args ∈ openedWith s e, args.Unsized) → s.mem.world.Unflagged e) ∧
    ∀ e name fuel (pid : Pid), s.mem.world.live (who e).val = true →
      (s.mem.world.regions g).hdr .segmentOwner = pid.val → s.mem.world.live pid.val = false →
      ((claimSegment (osMapping ⟨name, g⟩) (who e) (fuel + 1)).run (World.exec who e)
        s.mem.world).1 = some true := by
  obtain ⟨hL, hsup⟩ := (orderly_clear hw hs).inv
    (I := fun s => (deedOutline g opens_tame).Holds s ∧ ∀ e, Supplied e s)
    ⟨deed_init opens_tame hw, supplied_init hw⟩ fun s a s' h hstep hP =>
      ⟨(deedOutline g opens_tame).step h.1 hstep hP, fun e => (h.2 e).step opens_tame h.1 hstep hP⟩
  have hsound : Sound who g s.mem.world := hL.1
  refine ⟨fun e m hf hm => ⟨(hsound.mapped e _ hf).2, fun hr => ?_, fun e' m' hf' hm' => ?_⟩,
    fun e => (hsup e).flag, fun e name fuel pid hl howner hdead => ?_⟩
  · exact hsound.owner hr e (hsound.flag e m hf hm)
  · have hd := hsound.flag e' m' hf' hm'
    rw [hsound.flag e m hf hm] at hd
    exact (Option.some.inj hd).symm
  · have hv : Biddable s.mem.world.live (who e) ((s.mem.world.regions g).hdr .segmentOwner) := by
      rw [howner]
      refine ⟨fun h => ?_, fun h => ?_⟩
      · rw [h, hl] at hdead
        cases hdead
      · rw [held_pid.1 h] at hdead
        cases hdead
    rw [(osMapping_runs who e ⟨name, g⟩).claimSegment_alone, if_pos hv]

/-- Two processes. -/
def duo (e : Bool) : Pid := ⟨bif e then 2 else 1, by cases e <;> decide, by cases e <;> decide⟩

/-- The creator of a segment crashes, and the endpoint that opens it next takes its deed. -/
theorem deed_exclusive_adopted : ∃ s : (system duo EndCall.opens).Conf,
    s.mem.world.Flagged true ⟨"ch", 0⟩ ∧ (s.mem.world.regions 0).hdr .segmentOwner = 2 ∧
      ∀ name, ¬ s.mem.world.Flagged false ⟨name, 0⟩ := by
  have hrun : (steps (tested Pool.step fun _ a s' => decide (Alive s' a ∧ s'.mem.world.Orderly 0))
      (fun _ _ => true) (systemInit duo EndCall.opens (.boot fun _ => true))
      (List.flatten [Pool.burst (.endpoint false) (.construct (.tiny 1 (by decide)) 1) 104,
        Pool.burst .kernel false 2,
        Pool.burst (.endpoint true) (.construct (.tiny 1 (by decide)) 1) 18])).map
      (fun s => (s.mem.world.maps true, (s.mem.world.regions 0).hdr .magic)) =
        some (some ⟨⟨"ch", 0⟩, true⟩, MAGIC_VERSION) := by decide +kernel
  obtain ⟨s, hs, he⟩ := reach_eval hrun
  obtain ⟨hmap, hready⟩ := Prod.mk.inj he
  have hr : Reach Pool.step (fun _ a s' => Alive s' a ∧ s'.mem.world.Orderly 0) _ s :=
    hs.of_tested.mono fun _ _ _ h => of_decide_eq_true h
  obtain ⟨-, howner, hunique⟩ := (deed_exclusive (before_boot _) hr).1 true _ hmap rfl
  refine ⟨s, hmap, howner hready, fun name hf => ?_⟩
  cases hunique false _ hf rfl

end ZeroChannel
