/-
  Opening a channel, run alone.

  One equation for each branch of `open_or_create`: what it answers, and the world it
  leaves behind.
-/
import ZeroChannel.Open
import ZeroChannel.Proof.Lifecycle
import ZeroChannel.Proof.Latch

namespace ZeroChannel

open Concur

variable {E : Type} [DecidableEq E] {α : Type}

/-! ## Operations -/

section
variable (who : E → Pid) (e : E) (w : World E)

theorem run_tryOpen (name : String) : (tryOpen name).run (World.exec who e) w =
    match w.names name with
    | none => (none, w)
    | some g => if (w.regions g).len = 0 then (none, w)
      else (some ⟨name, g⟩, w.mapped e ⟨⟨name, g⟩, false⟩) := by
  rcases hn : w.names name with _ | g
  · simp only [tryOpen, Prog.run_op, Prog.run_pure, World.exec, hn]
  · simp only [tryOpen, Prog.run_op, Prog.run_pure, World.exec, hn]

/-- A segment of no bytes is not opened. -/
theorem tryOpen_empty {name : String} {g : ℕ} (hname : w.names name = some g)
    (hlen : (w.regions g).len = 0) : (tryOpen name).run (World.exec who e) w = (none, w) := by
  rw [run_tryOpen, hname]
  exact if_pos hlen

theorem tryOpen_mapped {name : String} {g : ℕ} (hname : w.names name = some g)
    (hlen : (w.regions g).len ≠ 0) : (tryOpen name).run (World.exec who e) w =
      (some ⟨name, g⟩, w.mapped e ⟨⟨name, g⟩, false⟩) := by
  rw [run_tryOpen, hname]
  exact if_neg hlen

theorem run_shmemLen (m : Shmem) :
    (shmemLen m).run (World.exec who e) w = ((w.regions m.seg).len, w) := rfl

theorem run_setOwner (owner : Bool) : (setOwner owner).run (World.exec who e) w = ((), { w with
    maps := Function.update w.maps e ((w.maps e).map fun md => { md with owner }) }) := rfl

theorem run_dropShmem : dropShmem.run (World.exec who e) w = ((), w.closed e) := rfl

theorem run_reject (er : ZeroChannelError) : (reject er : OsProg (Option (Except _ α))).run
    (World.exec who e) w = (some (.error er), w.closed e) := rfl

theorem osMapping_runs (m : Shmem) : (osMapping m).Runs (World.exec who e)
    (fun w => (w.regions m.seg).hdr) (fun w h v => w.put m.seg e h v) World.live where
  load _ _ := rfl
  cas h old new w := by
    simp only [osMapping, Prog.run_op, Prog.run_pure, World.exec]
  probe _ _ := rfl

/-- A program of the ring runs on the bytes of the segment. -/
theorem run_onRing {G : Geometry} (m : Shmem) (p : SegProg G α) :
    (onRing m p).run (World.exec who e) w = ((p.run (Region.ringExec G) (w.regions m.seg)).1,
      w.setRegion m.seg (p.run (Region.ringExec G) (w.regions m.seg)).2) := by
  induction p generalizing w with
  | pure a => simp [onRing, Prog.lift]
  | op o k ih =>
    have hstep : (onRing m (.op o k)).run (World.exec who e) w =
        (onRing m (k (Region.ringExec G o (w.regions m.seg)).1)).run (World.exec who e)
          (w.setRegion m.seg (Region.ringExec G o (w.regions m.seg)).2) := rfl
    rw [hstep, ih, World.setRegion_self, World.setRegion_setRegion]
    rfl

end

/-! ## Laying down a header -/

/-- The region as `init_header` leaves it. -/
def Region.initialised (r : Region) (payloadBytes entryCount : ℕ) (dtype : Dtype) (owner : ℕ) :
    Region :=
  ((((((List.range (requiredBytes payloadBytes entryCount)).foldl (fun r k => r.setByte k 0) r).setWord
    HeaderWord.payloadBytes.off payloadBytes).setWord HeaderWord.entryCount.off entryCount).setWord
    HeaderWord.dtype.off dtype.code).setWord HeaderWord.segmentOwner.off owner).setWord
    HeaderWord.magic.off MAGIC_VERSION

section
variable (who : E → Pid) (e : E)

theorem run_zeroes (m : Shmem) : ∀ (l : List ℕ) (w : World E),
    (l.foldlM (fun _ k => (.op (.zero m k) .pure : OsProg Unit)) ()).run (World.exec who e) w =
      ((), w.setRegion m.seg (l.foldl (fun r k => r.setByte k 0) (w.regions m.seg))) := by
  intro l
  induction l with
  | nil =>
    intro w
    simp
  | cons k l ih =>
    intro w
    rw [List.foldlM_cons, Prog.run_bind]
    have hk : (.op (.zero m k) .pure : OsProg Unit).run (World.exec who e) w =
        ((), w.setRegion m.seg ((w.regions m.seg).setByte k 0)) := rfl
    rw [hk, ih, World.setRegion_self, World.setRegion_setRegion]
    rfl

theorem run_initSegment (m : Shmem) (payloadBytes entryCount : ℕ) (dtype : Dtype) (me : Pid)
    (w : World E) : (initSegment m payloadBytes entryCount dtype me).run (World.exec who e) w =
      ((), (w.setRegion m.seg ((w.regions m.seg).initialised payloadBytes entryCount dtype
        me.val)).won m.seg e) := by
  unfold initSegment initHeader
  rw [Prog.run_bind, run_zeroes]
  simp only [Prog.run_bind, Prog.run_op, Prog.run_pure, World.exec]
  simp [World.put, World.won, World.setRegion, Function.update_idem, Region.initialised]

end

theorem initialised_magic (r : Region) (payloadBytes entryCount : ℕ) (dtype : Dtype) (owner : ℕ) :
    (r.initialised payloadBytes entryCount dtype owner).hdr .magic = MAGIC_VERSION :=
  Region.hdr_setWord (by decide)

/-! ## A name that is taken -/

section
variable {who : E → Pid} {e : E} {w : World E} {name : String} {g : ℕ} (me : Pid)

theorem setOwner_mapped (m : Shmem) (b owner : Bool) :
    (setOwner owner).run (World.exec who e) (w.mapped e ⟨m, b⟩) = ((), w.mapped e ⟨m, owner⟩) := by
  simp [run_setOwner, World.mapped, Function.update_idem]

/-- **`open_or_create` on a name that is taken.** -/
theorem openExisting_alone (hname : w.names name = some g) (hlen : (w.regions g).len ≠ 0)
    (hmap : w.maps e = none) (payloadBytes entryCount : ℕ) (dtype : Dtype) (fuel : ℕ) :
    (openExisting me name payloadBytes entryCount dtype (fuel + 1)).run (World.exec who e) w =
      match acceptOf (w.regions g).hdr payloadBytes entryCount dtype with
      | .error er => (some (.error er), w)
      | .ok (some header) => (some (.ok (some (⟨name, g⟩, header))),
          if Biddable w.live me ((w.regions g).hdr .segmentOwner) then
            (w.put g e .segmentOwner me.val).mapped e ⟨⟨name, g⟩, true⟩
          else w.mapped e ⟨⟨name, g⟩, false⟩)
      | .ok none =>
        if (w.regions g).len < requiredBytes payloadBytes entryCount then
          (some (.error (.invalidArgument
            s!"abandoned segment '{name}' is too small for the requested geometry")), w)
        else
          let r := (w.regions g).initialised payloadBytes entryCount dtype me.val
          (some (.ok (some (⟨name, g⟩, .ofWords r.hdr))),
            ((w.setRegion g r).won g e).mapped e ⟨⟨name, g⟩, true⟩) := by
  have hM := osMapping_runs who e ⟨name, g⟩
  unfold openExisting
  rw [Prog.run_bind, tryOpen_mapped who e w hname hlen]
  dsimp only
  rw [Prog.run_bind, hM.acceptHeader_alone]
  have hacc : ((w.mapped e ⟨⟨name, g⟩, false⟩).regions g).hdr = (w.regions g).hdr := rfl
  rw [hacc]
  rcases acceptOf (w.regions g).hdr payloadBytes entryCount dtype with er | _ | header
  · rw [run_reject, World.mapped_closed hmap]
  · dsimp only
    rw [Prog.run_bind, run_shmemLen]
    by_cases hsmall : (w.regions g).len < requiredBytes payloadBytes entryCount
    · rw [if_pos hsmall, if_pos (by exact hsmall), run_reject, World.mapped_closed hmap]
    · rw [if_neg hsmall, if_neg (by exact hsmall), Prog.run_bind, run_initSegment]
      generalize hr : (w.regions g).initialised payloadBytes entryCount dtype me.val = r
      have hw : ((w.mapped e ⟨⟨name, g⟩, false⟩).setRegion g r).won g e =
          ((w.setRegion g r).won g e).mapped e ⟨⟨name, g⟩, false⟩ := rfl
      have hregion : (((w.setRegion g r).won g e).mapped e ⟨⟨name, g⟩, false⟩).regions g = r :=
        Function.update_self ..
      have hmagic : r.hdr .magic = MAGIC_VERSION := hr ▸ initialised_magic ..
      have hinit : ((w.mapped e ⟨⟨name, g⟩, false⟩).regions g).initialised payloadBytes entryCount
          dtype me.val = r := hr
      dsimp only
      rw [hinit, hw, headerOf, Prog.run_bind, hM.readHeader_alone]
      dsimp only
      rw [hregion, decodeHeader_ok hmagic]
      dsimp only
      rw [Prog.run_bind, setOwner_mapped]
      rfl
  · dsimp only
    rw [Prog.run_bind, hM.claimSegment_alone]
    by_cases hv : Biddable w.live me ((w.regions g).hdr .segmentOwner)
    · rw [if_pos hv, if_pos (by exact hv), World.put_mapped]
      dsimp only
      rw [Prog.run_bind, setOwner_mapped]
      rfl
    · rw [if_neg hv, if_neg (by exact hv)]
      dsimp only
      rw [Prog.run_bind, setOwner_mapped]
      rfl

/-- `open_or_create` on a name that is taken by a segment of no bytes. -/
theorem openExisting_empty (hname : w.names name = some g) (hlen : (w.regions g).len = 0)
    (payloadBytes entryCount : ℕ) (dtype : Dtype) (fuel : ℕ) :
    (openExisting me name payloadBytes entryCount dtype fuel).run (World.exec who e) w =
      (some (.error (.osError s!"shared memory segment '{name}' exists but could not be opened")),
        w) := by
  unfold openExisting
  rw [Prog.run_bind, tryOpen_empty who e w hname hlen]
  rfl

/-- **`try_attach`.** -/
theorem tryAttach_alone (hmap : w.maps e = none) (dtype : Dtype) :
    (tryAttach name dtype).run (World.exec who e) w =
      match w.names name with
      | none => (some (.ok none), w)
      | some g =>
        if (w.regions g).len = 0 then (some (.ok none), w)
        else match attachOf (w.regions g).hdr dtype with
          | .error er => (some (.error er), w)
          | .ok none => (some (.ok none), w)
          | .ok (some header) => (some (.ok (some (⟨name, g⟩, header))),
              w.mapped e ⟨⟨name, g⟩, false⟩) := by
  unfold tryAttach
  rw [Prog.run_bind]
  rcases hname : w.names name with _ | g
  · rw [run_tryOpen, hname]
    rfl
  · by_cases hlen : (w.regions g).len = 0
    · rw [tryOpen_empty who e w hname hlen]
      dsimp only
      rw [if_pos hlen]
      rfl
    rw [tryOpen_mapped who e w hname hlen]
    dsimp only
    rw [if_neg hlen, Prog.run_bind, (osMapping_runs who e ⟨name, g⟩).attachHeader_alone]
    have hatt : ((w.mapped e ⟨⟨name, g⟩, false⟩).regions g).hdr = (w.regions g).hdr := rfl
    rw [hatt]
    rcases attachOf (w.regions g).hdr dtype with er | _ | header
    · rw [run_reject, World.mapped_closed hmap]
    · simp only [Prog.run_bind, run_dropShmem, World.mapped_closed hmap]
      rfl
    · rfl

/-- The world with a new segment, its header laid down. -/
def World.founded (w : World E) (e : E) (me : Pid) (name : String) (payloadBytes entryCount : ℕ)
    (dtype : Dtype) : World E :=
  (w.created e name (requiredBytes payloadBytes entryCount)).setRegion w.segs
    ((Region.zeroed (requiredBytes payloadBytes entryCount)).initialised payloadBytes entryCount
      dtype me.val)

/-- **`create_segment`.** -/
theorem createSegment_alone (payloadBytes entryCount : ℕ) (dtype : Dtype) :
    (createSegment me name payloadBytes entryCount dtype).run (World.exec who e) w =
      if requiredBytes payloadBytes entryCount = 0 then
        (.error (.osError s!"failed to create shared memory: {w.mapSizeZero}"), w)
      else match w.names name with
        | some _ => (.ok none, w)
        | none => match w.refuses name (requiredBytes payloadBytes entryCount) with
          | some msg => (.error (.osError s!"failed to create shared memory: {msg}"), w)
          | none =>
            (.ok (some ⟨name, w.segs⟩), w.founded e me name payloadBytes entryCount dtype) := by
  unfold createSegment osCreate
  rw [Prog.run_bind]
  simp only [Prog.run_op, Prog.run_pure, World.exec]
  by_cases hsize : requiredBytes payloadBytes entryCount = 0
  · rw [if_pos hsize, if_pos hsize]
    rfl
  rw [if_neg hsize, if_neg hsize]
  rcases w.names name with _ | g
  · rcases w.refuses name (requiredBytes payloadBytes entryCount) with _ | msg
    · dsimp only
      rw [Prog.run_bind, run_initSegment]
      simp [World.founded, World.created, World.won, World.setRegion, Function.update_idem]
    · rfl
  · rfl

/-! ## Binding -/

end

/-- Operations that only load. -/
def SegOp.ReadOnly {G : Geometry} : SegOp G → Prop
  | loadSeq _ | loadByte _ _ | load _ => True
  | _ => False

theorem readOnly_exec {G : Geometry} {o : SegOp G} (ho : o.ReadOnly) (r : Region) :
    (Region.ringExec G o r).2 = r := by
  cases o with
  | loadSeq | loadByte | load => rfl
  | _ => exact ho.elim

theorem readOnly_run {G : Geometry} {p : SegProg G α} (hp : p.All SegOp.ReadOnly) (r : Region) :
    (p.run (Region.ringExec G) r).2 = r := by
  induction p generalizing r with
  | pure a => rfl
  | op o k ih => rw [Prog.run_op, ih _ (hp.2 _), readOnly_exec hp.1]

/-- Recovering the state of a writer changes nothing. -/
theorem attach_readOnly {G : Geometry} (header : Header) :
    (RawWriter.attach header : SegProg G (RawWriter G)).All SegOp.ReadOnly := by
  have hload : ∀ i : Slot G, (loadSeq i).All SegOp.ReadOnly := fun i => ⟨trivial, fun _ => trivial⟩
  have hscan : (recoverScan (G := G) header.lastEntrySeq).All SegOp.ReadOnly :=
    Prog.All.foldlM (fun maxSeq i => Prog.All.bind (hload i) fun raw => by trivial) _ _
  have hstate : (recoverState (G := G) header.writeIndex header.lastEntrySeq).All SegOp.ReadOnly := by
    refine hscan.bind fun maxSeq => (hload _).bind fun raw => ?_
    split_ifs <;> trivial
  exact hstate.bind fun _ => trivial

/-- A claim of the endpoint's role is refused. -/
def Conflict (kind : Kind) (live : ℕ → Bool) (hdr : HeaderWord → ℕ) : Prop :=
  ∃ role, kind.role = some role ∧ Held live (hdr role.cell)

/-- The endpoint's role, if it has one, is claimed. -/
def World.claimed (w : World E) (e : E) (me : Pid) (g : ℕ) (kind : Kind) : World E :=
  match kind.role with
  | none => w
  | some role => w.put g e role.cell me.val

section
variable {who : E → Pid} {e : E} {w : World E}

theorem attachReader_alone (header : Header) :
    ∃ inner, (attachReader header).run (World.exec who e) w = (inner, w) := by
  unfold attachReader
  rcases Geometry.of? header.payloadBytes header.entryCount with _ | G <;> exact ⟨_, rfl⟩

theorem attachWriter_alone (m : Shmem) (header : Header) :
    ∃ inner, (attachWriter m header).run (World.exec who e) w = (inner, w) := by
  unfold attachWriter
  rcases Geometry.of? header.payloadBytes header.entryCount with _ | G
  · exact ⟨_, rfl⟩
  · simp only [Prog.run_bind, run_onRing, readOnly_run (attach_readOnly header), World.setRegion_eq]
    exact ⟨_, rfl⟩

/-- **`bind`.** -/
theorem bindEndpoint_alone (who : E → Pid) (e : E) (w : World E) (me : Pid) (kind : Kind) (m : Shmem)
    (header : Header) (name : String) (fuel : ℕ) :
    (Conflict kind w.live (w.regions m.seg).hdr → ∃ msg,
      (bindEndpoint kind m header me name (fuel + 1)).run (World.exec who e) w =
        (some (.error (.roleConflict msg)), w)) ∧
    (¬ Conflict kind w.live (w.regions m.seg).hdr → ∃ inner,
      (bindEndpoint kind m header me name (fuel + 1)).run (World.exec who e) w =
        (some (.ok inner), w.claimed e me m.seg kind)) := by
  have hM := osMapping_runs who e m
  have hattach : ∀ (w : World E) (attach : OsProg Inner),
      (∃ inner, attach.run (World.exec who e) w = (inner, w)) → ∃ inner, (do
        let inner ← attach
        pure (some (.ok inner)) : OsProg (Option (Except ZeroChannelError Inner))).run
          (World.exec who e) w = (some (.ok inner), w) := by
    rintro w attach ⟨inner, hi⟩
    exact ⟨inner, by rw [Prog.run_bind, hi]; rfl⟩
  cases kind with
  | writer =>
    have hc : Conflict .writer w.live (w.regions m.seg).hdr ↔
        Held w.live ((w.regions m.seg).hdr .writerOwner) := by
      simp [Conflict, Kind.role, Role.cell]
    rw [hc]
    unfold bindEndpoint bindWriter
    dsimp only
    rw [Prog.run_bind, hM.claimRole_alone]
    constructor
    · intro hh
      rw [if_pos hh]
      exact ⟨_, rfl⟩
    · intro hh
      rw [if_neg hh]
      exact hattach _ _ (attachWriter_alone m header)
  | reader zc =>
    cases zc with
    | false =>
      constructor
      · rintro ⟨role, hr, -⟩
        cases hr
      · intro _
        exact hattach w _ (attachReader_alone header)
    | true =>
      have hc : Conflict (.reader true) w.live (w.regions m.seg).hdr ↔
          Held w.live ((w.regions m.seg).hdr .zcReaderOwner) := by
        simp [Conflict, Kind.role, Role.cell]
      rw [hc]
      unfold bindEndpoint bindReader
      simp only [if_true]
      rw [Prog.run_bind, hM.claimRole_alone]
      constructor
      · intro hh
        rw [if_pos hh]
        exact ⟨_, rfl⟩
      · intro hh
        rw [if_neg hh]
        exact hattach _ _ (attachReader_alone header)

end

/-! ## Constructors -/

section
variable {who : E → Pid} {e : E} {w w' : World E} {me : Pid} {args : OpenArgs} {fuel : ℕ}

theorem construct_error {er : ZeroChannelError}
    (h : (openOrCreate me args.name args.payloadBytes args.entryCount args.dtype args.delayedConnect
      (fuel + 1)).run (World.exec who e) w = (some (.error er), w')) :
    (construct me args (fuel + 1)).run (World.exec who e) w = (some (.error er), w') := by
  unfold construct
  rw [Prog.run_bind, h]
  rfl

theorem construct_absent
    (h : (openOrCreate me args.name args.payloadBytes args.entryCount args.dtype args.delayedConnect
      (fuel + 1)).run (World.exec who e) w = (some (.ok none), w')) :
    (construct me args (fuel + 1)).run (World.exec who e) w = (some (.ok none), w') := by
  unfold construct
  rw [Prog.run_bind, h]
  rfl

/-- A mapped segment is bound, or given up when the role is taken. -/
theorem construct_bound {m : Shmem} {header : Header}
    (h : (openOrCreate me args.name args.payloadBytes args.entryCount args.dtype args.delayedConnect
      (fuel + 1)).run (World.exec who e) w = (some (.ok (some (m, header))), w')) :
    (Conflict args.kind w'.live (w'.regions m.seg).hdr → ∃ msg,
      (construct me args (fuel + 1)).run (World.exec who e) w =
        (some (.error (.roleConflict msg)), w'.closed e)) ∧
    (¬ Conflict args.kind w'.live (w'.regions m.seg).hdr → ∃ inner,
      (construct me args (fuel + 1)).run (World.exec who e) w =
        (some (.ok (some ⟨args, m, header, inner⟩)), w'.claimed e me m.seg args.kind)) := by
  unfold construct
  rw [Prog.run_bind, h]
  dsimp only
  rw [Prog.run_bind]
  obtain ⟨hconf, hfree⟩ := bindEndpoint_alone who e w' me args.kind m header args.name
    fuel
  constructor
  · intro hc
    obtain ⟨msg, hm⟩ := hconf hc
    rw [hm]
    exact ⟨msg, rfl⟩
  · intro hc
    obtain ⟨inner, hi⟩ := hfree hc
    rw [hi]
    exact ⟨inner, rfl⟩

/-- `open_or_create` with a geometry of no bytes. -/
theorem openOrCreate_zero {pb n : ℕ} (hpb : args.payloadBytes = some pb)
    (hn : args.entryCount = some n) (hok : checkGeometry pb n = .ok ())
    (hsize : requiredBytes pb n = 0) :
    (openOrCreate me args.name args.payloadBytes args.entryCount args.dtype args.delayedConnect
      fuel).run (World.exec who e) w =
      (some (.error (.osError s!"failed to create shared memory: {w.mapSizeZero}")), w) := by
  unfold openOrCreate
  rw [hpb, hn]
  dsimp only
  rw [hok]
  dsimp only
  rw [Prog.run_bind, createSegment_alone, if_pos hsize]
  rfl

/-- `open_or_create` with a geometry, on a name that is taken. -/
theorem openOrCreate_taken {g pb n : ℕ} (hname : w.names args.name = some g)
    (hpb : args.payloadBytes = some pb) (hn : args.entryCount = some n)
    (hok : checkGeometry pb n = .ok ()) (hsize : requiredBytes pb n ≠ 0) :
    (openOrCreate me args.name args.payloadBytes args.entryCount args.dtype args.delayedConnect
      fuel).run (World.exec who e) w =
      (openExisting me args.name pb n args.dtype fuel).run (World.exec who e) w := by
  unfold openOrCreate
  rw [hpb, hn]
  dsimp only
  rw [hok]
  dsimp only
  rw [Prog.run_bind, createSegment_alone, if_neg hsize, hname]

/-- `open_or_create` without geometry is a tenant. -/
theorem open_tenant (who : E → Pid) {g : ℕ} (hname : w.names args.name = some g) (hmap : w.maps e = none)
    (hpb : args.payloadBytes = none) (hn : args.entryCount = none) (fuel : ℕ) :
    let run := (openOrCreate me args.name args.payloadBytes args.entryCount args.dtype
      args.delayedConnect (fuel + 1)).run (World.exec who e) w
    (∃ er, run = (some (.error er), w)) ∨ run = (some (.ok none), w) ∨
      ∃ header, run = (some (.ok (some (⟨args.name, g⟩, header))),
        w.mapped e ⟨⟨args.name, g⟩, false⟩) := by
  intro run
  have hrun : run = (openOrCreate me args.name none none args.dtype args.delayedConnect
      (fuel + 1)).run (World.exec who e) w := by simp only [run, hpb, hn]
  rw [hrun]
  unfold openOrCreate
  dsimp only
  rw [Prog.run_bind, tryAttach_alone hmap, hname]
  dsimp only
  by_cases hlen : (w.regions g).len = 0
  · rw [if_pos hlen]
    dsimp only
    split_ifs
    · exact Or.inr (Or.inl rfl)
    · exact Or.inl ⟨_, rfl⟩
  rw [if_neg hlen]
  rcases attachOf (w.regions g).hdr args.dtype with er | _ | header
  · exact Or.inl ⟨er, rfl⟩
  · dsimp only
    split_ifs
    · exact Or.inr (Or.inl rfl)
    · exact Or.inl ⟨_, rfl⟩
  · exact Or.inr (Or.inr ⟨header, rfl⟩)

end

end ZeroChannel
