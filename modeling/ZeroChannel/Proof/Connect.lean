/-
  Opening a channel, as the directory sees it.

  A directory describes the state of the system (`Describes`) if names, processes and ends
  agree and every segment carries its channel (`Line.Backed`).  What the constructors do,
  `bind` and `open_or_create` included, leads from such a state to one that the directory
  describes after it has opened the channel, with the same answer (`construct_run`).
-/
import ZeroChannel.Proof.Lines
import ZeroChannel.Proof.Generations

namespace ZeroChannel

open Concur

variable {G : Geometry} {E : Type} [DecidableEq E] {who : E → Pid}

/-! ## Binding -/

omit [DecidableEq E] in
theorem World.put_region (w : World E) (g : ℕ) (e : E) (h : HeaderWord) (v : ℕ) :
    (w.put g e h v).regions g = (w.regions g).setWord h.off v := by
  rw [put_regions, Function.update_self]

/-- The header does not tell the owners. -/
theorem ofWords_setWord (r : Region) {w : HeaderWord} (hw : w.isOwner) (v : ℕ) :
    Header.ofWords (r.setWord w.off v).hdr = .ofWords r.hdr := by
  have hne : ∀ w', w'.isOwner = false → (r.setWord w.off v).hdr w' = r.hdr w' := by
    intro w' hw'
    refine Region.hdr_setWord_ne ?_ v
    rintro rfl
    rw [hw] at hw'
    cases hw'
  unfold Header.ofWords
  rw [hne _ rfl, hne _ rfl, hne _ rfl, hne _ rfl, hne _ rfl]

theorem Geometry.of?_self (G : Geometry) : Geometry.of? G.payloadBytes G.entryCount = some G :=
  dif_pos ⟨G.payload_pos, G.count_pos, G.aligned⟩

section
variable {s : Session G E} {dtype : Dtype} {w : World E} {m : Shmem}
  (h : Rings (w.regions m.seg) s dtype)
include h

omit [DecidableEq E] in
theorem Rings.geometry : Geometry.of? (Header.ofWords (w.regions m.seg).hdr).payloadBytes
    (Header.ofWords (w.regions m.seg).hdr).entryCount = some G := by
  have hpb : (Header.ofWords (w.regions m.seg).hdr).payloadBytes = G.payloadBytes := h.payload
  have hn : (Header.ofWords (w.regions m.seg).hdr).entryCount = G.entryCount := h.count
  rw [hpb, hn, Geometry.of?_self]

/-- A writer resumes where the last one stopped. -/
theorem attachWriter_run (who : E → Pid) (e : E) :
    (attachWriter m (.ofWords (w.regions m.seg).hdr)).run (World.exec who e) w =
      (.writer G s.writer, w) := by
  have hindex : (Header.ofWords (w.regions m.seg).hdr).writeIndex = s.writer.currentIndex.val :=
    (h.hdr .writeIndex).trans h.rep.index
  have hlast : (Header.ofWords (w.regions m.seg).hdr).lastEntrySeq = s.mem.log.length :=
    (h.hdr .lastEntrySeq).trans h.rep.last
  unfold attachWriter
  rw [h.geometry]
  simp only [Prog.run_bind, run_onRing, attach_run ringExec_reads, h.stores.2, hindex, hlast,
    h.rep.resumed_eq, World.setRegion_eq]
  rfl

/-- **`bind`**, with its answer. -/
theorem bindEndpoint_run (who : E → Pid) (e : E) (me : Pid) (kind : Kind) (name : String)
    (fuel : ℕ) :
    (bindEndpoint kind m (.ofWords (w.regions m.seg).hdr) me name (fuel + 1)).run
      (World.exec who e) w =
      match kind.role with
      | none => (some (.ok (kind.bound s)), w)
      | some role => if Held w.live ((w.regions m.seg).hdr role.cell) then
          (some (.error (.roleConflict s!"the {role.text} role on channel '{name}' is held by process {(w.regions m.seg).hdr role.cell}")), w)
        else (some (.ok (kind.bound s)), w.put m.seg e role.cell me.val) := by
  have hM := osMapping_runs who e m
  -- a writer that has claimed its role resumes on the ring it finds
  have hwriter : (attachWriter m (.ofWords (w.regions m.seg).hdr)).run (World.exec who e)
      (w.put m.seg e .writerOwner me.val) =
      (.writer G s.writer, w.put m.seg e .writerOwner me.val) := by
    have hr := h.named (w := .writerOwner) rfl (me.lt.trans (by norm_num) : me.val < 2 ^ 64)
    rw [← w.put_region m.seg e] at hr
    rw [← ofWords_setWord (w.regions m.seg) (w := .writerOwner) rfl me.val, ← w.put_region m.seg e,
      attachWriter_run hr]
    rfl
  have hreader : ∀ w' : World E, (attachReader (.ofWords (w.regions m.seg).hdr)).run
      (World.exec who e) w' = (.reader G .attach, w') := by
    intro w'
    unfold attachReader
    rw [h.geometry]
    rfl
  cases kind with
  | writer =>
    unfold bindEndpoint bindWriter
    simp only [Kind.role, Role.cell, Kind.bound]
    rw [Prog.run_bind, hM.claimRole_alone]
    by_cases hh : Held w.live ((w.regions m.seg).hdr .writerOwner)
    · rw [if_pos hh]
      exact (if_pos hh).symm
    · rw [if_neg hh]
      dsimp only
      rw [Prog.run_bind, hwriter]
      exact (if_neg hh).symm
  | reader zc =>
    unfold bindEndpoint bindReader
    cases zc with
    | false =>
      simp only [Bool.false_eq_true, if_false, Kind.role, Kind.bound, Prog.run_bind, Prog.pure_eq,
        Prog.run_pure, hreader]
    | true =>
      simp only [if_true, Kind.role, Role.cell, Kind.bound]
      rw [Prog.run_bind, hM.claimRole_alone]
      by_cases hh : Held w.live ((w.regions m.seg).hdr .zcReaderOwner)
      · rw [if_pos hh]
        exact (if_pos hh).symm
      · rw [if_neg hh]
        dsimp only
        rw [Prog.run_bind, hreader]
        exact (if_neg hh).symm

end

/-! ## What a directory describes -/

/-- The ends that are connected to segment `g`. -/
def Service.on (S : Service E) (g : ℕ) (e : E) : Option Port :=
  (S.ports e).filter fun p => p.ep.any fun ep => ep.shmem.seg = g

omit [DecidableEq E] in
theorem on_eq_some {S : Service E} {g : ℕ} {e : E} {p : Port} : S.on g e = some p ↔
    S.ports e = some p ∧ ∃ ep, p.ep = some ep ∧ ep.shmem.seg = g := by
  unfold Service.on
  rw [Option.filter_eq_some_iff, Option.any_eq_true]
  simp only [decide_eq_true_eq]

omit [DecidableEq E] in
/-- An end is connected to one segment. -/
theorem on_else {S : Service E} {g : ℕ} {e : E} {p : Port} {ep : Endpoint} (hp : S.ports e = some p)
    (hep : p.ep = some ep) (hg : g ≠ ep.shmem.seg) : S.on g e = none := by
  simp only [Service.on, hp, Option.filter_some, hep, Option.any_some]
  exact if_neg fun h => hg (of_decide_eq_true h).symm

/-- An end in use. -/
structure Housed (who : E → Pid) (w : World E) (e : E) (p : Port) : Prop where
  live : w.live (who e).val
  mapped : (w.maps e).map Mapped.shmem = p.ep.map Endpoint.shmem
  ep : ∀ ep ∈ p.ep, ep.args = p.args ∧ ep.shmem.name = p.args.name ∧ ep.shmem.seg < w.segs
  fresh : p.ep = none → p.writes = [] ∧ p.reads = []

/-- An end, as the directory sees it. -/
structure Seen (who : E → Pid) (w : World E) (e : E) (k : Option Desk) (p : Option Port) : Prop where
  desk : k = p.map fun p =>
    ⟨p.args, (w.maps e).map fun md => (md.shmem.seg, md.owner), p.reads.map Prod.snd⟩
  idle : p = none → w.maps e = none
  housed : ∀ p' ∈ p, Housed who w e p'

/-- **The directory describes the system.** -/
structure Directory.Describes (who : E → Pid) (d : Directory E) (S : Service E) : Prop where
  names : d.names = S.world.names
  live : d.live = S.world.live
  refuses : d.refuses = S.world.refuses
  count : d.count = S.world.segs
  bound : ∀ name g, S.world.names name = some g → g < S.world.segs
  ends : ∀ e, Seen who S.world e (d.desks e) (S.ports e)
  lines : ∀ g < S.world.segs, ∃ l s, d.lines g = some l ∧
    l.Backed who S.world.live (S.world.regions g) (S.on g) s

/-- The worlds differ in segment `g` and in the mapping of `e` at most. -/
structure World.Moved (w w' : World E) (g : ℕ) (e : E) : Prop where
  names : w'.names = w.names
  live : w'.live = w.live
  refuses : w'.refuses = w.refuses
  segs : w'.segs = w.segs
  regions : ∀ g' ≠ g, w'.regions g' = w.regions g'
  maps : ∀ e' ≠ e, w'.maps e' = w.maps e'

section
variable {d : Directory E} {w w' : World E} {ports : E → Option Port} {g : ℕ} {e : E}

omit [DecidableEq E] in
theorem Seen.congr {k : Option Desk} {p : Option Port} (h : Seen who w e k p)
    (hm : w'.maps e = w.maps e) (hl : w'.live (who e).val = w.live (who e).val)
    (hs : w.segs ≤ w'.segs) : Seen who w' e k p := by
  refine ⟨by rw [hm]; exact h.desk, fun hp => hm.trans (h.idle hp), fun p' hp' => ?_⟩
  obtain ⟨hlive, hmapped, hep, hfresh⟩ := h.housed p' hp'
  refine ⟨hl.trans hlive, by rw [hm]; exact hmapped, fun ep hep' => ?_, hfresh⟩
  obtain ⟨h₁, h₂, h₃⟩ := hep ep hep'
  exact ⟨h₁, h₂, h₃.trans_le hs⟩

namespace Directory

omit [DecidableEq E] in
theorem Describes.line (h : d.Describes who ⟨w, ports⟩) {name : String} (hn : w.names name = some g) :
    ∃ l s, d.lines g = some l ∧ g < w.segs ∧
      l.Backed who w.live (w.regions g) (Service.on ⟨w, ports⟩ g) s := by
  obtain ⟨l, s, hl, hb⟩ := h.lines g (h.bound name g hn)
  exact ⟨l, s, hl, h.bound name g hn, hb⟩

omit [DecidableEq E] in
/-- A name is given up. -/
theorem Describes.unname (h : d.Describes who ⟨w, ports⟩) (name : String) :
    (d.unname name).Describes who
      ⟨{ w with names := Function.update w.names name none }, ports⟩ := by
  refine ⟨congrArg (fun names : String → Option ℕ => Function.update names name none) h.names,
    h.live, h.refuses, h.count, fun n g hn => h.bound n g ?_,
    fun e => (h.ends e).congr rfl rfl le_rfl, h.lines⟩
  have hne : n ≠ name := by
    rintro rfl
    simp at hn
  simpa [hne] using hn

/-- A channel changes under its ends. -/
theorem Describes.setLine (h : d.Describes who ⟨w, ports⟩) (hw : w.Moved w' g e)
    (hmaps : w'.maps e = w.maps e) {l : Line E} {s : Session l.geometry E}
    (hb : l.Backed who w.live (w'.regions g) (Service.on ⟨w, ports⟩ g) s) :
    (d.setLine g l).Describes who ⟨w', ports⟩ := by
  refine ⟨h.names.trans hw.names.symm, h.live.trans hw.live.symm, h.refuses.trans hw.refuses.symm,
    h.count.trans hw.segs.symm, fun n g' hn => ?_, fun e' => ?_, fun g' hg' => ?_⟩
  · exact (h.bound n g' (hw.names ▸ hn)).trans_eq hw.segs.symm
  · refine (h.ends e').congr ?_ (congrFun hw.live _) hw.segs.ge
    by_cases he : e' = e
    · rw [he]
      exact hmaps
    · exact hw.maps e' he
  · show ∃ l' s', _ ∧ Line.Backed who w'.live (w'.regions g') _ l' s'
    rw [hw.live]
    by_cases hg : g' = g
    · subst hg
      exact ⟨l, s, Function.update_self .., hb⟩
    · obtain ⟨l', s', hl, hb'⟩ := h.lines g' (hg'.trans_eq hw.segs)
      rw [hw.regions g' hg]
      exact ⟨l', s', (Function.update_of_ne hg ..).trans hl, hb'⟩

/-- An end moves on a channel. -/
theorem Describes.move (h : d.Describes who ⟨w, ports⟩) (hw : w.Moved w' g e) (hg : g < w.segs)
    {p : Port} (ep : Endpoint) {own : Bool} (hmap : w'.maps e = some ⟨ep.shmem, own⟩)
    (hlive : w.live (who e).val) (hep : p.ep = some ep) (hargs : ep.args = p.args)
    (hname : ep.shmem.name = p.args.name) (hseg : ep.shmem.seg = g)
    (hoff : ∀ g' ≠ g, Service.on ⟨w, ports⟩ g' e = none) {l : Line E} {s : Session l.geometry E}
    (hb : l.Backed who w.live (w'.regions g)
      (Function.update (Service.on ⟨w, ports⟩ g) e (some p)) s) :
    ((d.setLine g l).setDesk e ⟨p.args, some (g, own), p.reads.map Prod.snd⟩).Describes who
      ⟨w', Function.update ports e (some p)⟩ := by
  have hon : ∀ g', Service.on ⟨w', Function.update ports e (some p)⟩ g' =
      if g' = g then Function.update (Service.on ⟨w, ports⟩ g) e (some p)
      else Service.on ⟨w, ports⟩ g' := by
    intro g'
    funext e'
    by_cases he : e' = e
    · subst he
      have hp : Service.on ⟨w', Function.update ports e' (some p)⟩ g' e' =
          if g = g' then some p else none := by
        simp only [Service.on, Function.update_self, Option.filter_some, hep, Option.any_some, hseg,
          decide_eq_true_eq]
      split_ifs with hg'
      · rw [hp, if_pos hg'.symm, Function.update_self]
      · rw [hp, if_neg (Ne.symm hg'), hoff g' hg']
    · have hp : Service.on ⟨w', Function.update ports e (some p)⟩ g' e' =
          Service.on ⟨w, ports⟩ g' e' := by
        simp only [Service.on, Function.update_of_ne he]
      split_ifs with hg'
      · rw [hp, Function.update_of_ne he, hg']
      · exact hp
  have hseen : Seen who w' e (some ⟨p.args, some (g, own), p.reads.map Prod.snd⟩) (some p) := by
    refine ⟨?_, fun hp => absurd hp (by simp), ?_⟩
    · rw [Option.map_some, hmap, Option.map_some, hseg]
    · rintro _ ⟨⟩
      refine ⟨(congrFun hw.live _).trans hlive, by rw [hmap, hep]; rfl, ?_, ?_⟩
      · rintro ep' hep'
        obtain rfl : ep = ep' := Option.some.inj (hep.symm.trans hep')
        exact ⟨hargs, hname, (hseg.trans_lt hg).trans_eq hw.segs.symm⟩
      · intro hn
        rw [hep] at hn
        cases hn
  refine ⟨h.names.trans hw.names.symm, h.live.trans hw.live.symm, h.refuses.trans hw.refuses.symm,
    h.count.trans hw.segs.symm, fun n g' hn => ?_, fun e' => ?_, fun g' hg' => ?_⟩
  · exact (h.bound n g' (hw.names ▸ hn)).trans_eq hw.segs.symm
  · by_cases he : e' = e
    · rw [he]
      simpa only [setDesk, Function.update_self] using hseen
    · have hs := (h.ends e').congr (hw.maps e' he) (congrFun hw.live _) hw.segs.ge
      simpa only [setDesk, Directory.setLine, Function.update_of_ne he] using hs
  · show ∃ l' s', _ ∧ Line.Backed who w'.live (w'.regions g') _ l' s'
    rw [hw.live, hon]
    by_cases hgg : g' = g
    · subst hgg
      rw [if_pos rfl]
      exact ⟨l, s, Function.update_self .., hb⟩
    · obtain ⟨l', s', hl, hb'⟩ := h.lines g' (hg'.trans_eq hw.segs)
      rw [if_neg hgg, hw.regions g' hgg]
      exact ⟨l', s', (Function.update_of_ne hgg ..).trans hl, hb'⟩

end Directory

end

/-! ## Connecting -/

namespace World
variable {w w' : World E} {g : ℕ} {e : E}

omit [DecidableEq E] in
theorem Moved.refl (w : World E) (g : ℕ) (e : E) : w.Moved w g e :=
  ⟨rfl, rfl, rfl, rfl, fun _ _ => rfl, fun _ _ => rfl⟩

theorem Moved.mapped (h : w.Moved w' g e) (md : Mapped) : w.Moved (w'.mapped e md) g e :=
  ⟨h.names, h.live, h.refuses, h.segs, h.regions,
    fun e' he => (World.mapped_ne w' e he md).trans (h.maps e' he)⟩

omit [DecidableEq E] in
theorem Moved.setRegion (w : World E) (g : ℕ) (e : E) (r : Region) : w.Moved (w.setRegion g r) g e :=
  ⟨rfl, rfl, rfl, rfl, fun _ hg => World.setRegion_ne w hg r, fun _ _ => rfl⟩

omit [DecidableEq E] in
theorem Moved.put (h : w.Moved w' g e) (hw : HeaderWord) (v : ℕ) : w.Moved (w'.put g e hw v) g e := by
  refine ⟨(put_names ..).trans h.names, (put_live ..).trans h.live, ?_, (put_segs ..).trans h.segs,
    fun g' hg => ?_, fun e' he => ?_⟩
  · rw [← h.refuses]
    unfold World.put
    split_ifs <;> rfl
  · rw [put_regions, Function.update_of_ne hg, h.regions g' hg]
  · rw [put_maps, h.maps e' he]

/-- The world with `v` as the owner of the role. -/
def signed (w : World E) (g : ℕ) (e : E) (kind : Kind) (v : ℕ) : World E := match kind.role with
  | none => w
  | some role => w.put g e role.cell v

section
variable (w : World E) (g : ℕ) (e : E) (kind : Kind) (v : ℕ)

omit [DecidableEq E] in
theorem signed_region : (w.signed g e kind v).regions g = kind.sign v (w.regions g) := by
  unfold signed Kind.sign
  cases kind.role with
  | none => rfl
  | some role => exact w.put_region ..

omit [DecidableEq E] in
theorem signed_maps : (w.signed g e kind v).maps = w.maps := by
  unfold signed
  cases kind.role with
  | none => rfl
  | some role => exact put_maps ..

end

omit [DecidableEq E] in
theorem Moved.signed (h : w.Moved w' g e) (kind : Kind) (v : ℕ) :
    w.Moved (w'.signed g e kind v) g e := by
  unfold World.signed
  cases kind.role with
  | none => exact h
  | some role => exact h.put _ _

/-- No channel has published anything. -/
structure Sequel (w w' : World E) : Prop where
  segs : w'.segs = w.segs
  last : ∀ g, (w'.regions g).hdr .lastEntrySeq = (w.regions g).hdr .lastEntrySeq

omit [DecidableEq E] in
theorem Sequel.signed (h : w.Sequel w') (g : ℕ) (e : E) (kind : Kind) (v : ℕ) :
    w.Sequel (w'.signed g e kind v) := by
  have hm := (Moved.refl w' g e).signed kind v
  refine ⟨hm.segs.trans h.segs, fun g' => Eq.trans ?_ (h.last g')⟩
  by_cases hg : g' = g
  · subst hg
    rw [signed_region]
    unfold Kind.sign
    cases kind.role with
    | none => rfl
    | some role => exact Region.hdr_setWord_ne (by cases role <;> decide) _
  · rw [hm.regions g' hg]

/-- A mapping comes and goes. -/
theorem closed_mapped (h : w.maps e = none) (m : Shmem) (own : Bool) :
    (w.mapped e ⟨m, own⟩).closed e =
      if own then { w with names := Function.update w.names m.name none } else w := by
  cases own with
  | false => exact mapped_closed h m
  | true => simp [mapped, closed, ← h]

end World

section
variable {l : Line E} {w : World E} {m : Shmem} {on : E → Option Port} {s : Session l.geometry E}

/-- **`bind`** does on the segment what connecting does to the channel. -/
theorem Line.Backed.bind_run (hb : l.Backed who w.live (w.regions m.seg) on s) (e : E)
    (args : OpenArgs) (fuel : ℕ) :
    (bindEndpoint args.kind m (.ofWords (w.regions m.seg).hdr) (who e) args.name (fuel + 1)).run
      (World.exec who e) w = match l.bind who e args with
        | .error er => (some (.error er), w)
        | .ok _ => (some (.ok (args.kind.bound s)), w.signed m.seg e args.kind (who e).val) := by
  rw [bindEndpoint_run hb.rings]
  unfold Line.bind World.signed
  cases args.kind.role with
  | none => rfl
  | some role =>
    dsimp only
    cases hh : l.holder role with
    | none => exact if_neg (hb.owners.free role hh)
    | some e' =>
      obtain ⟨hc, hl⟩ := hb.owners.taken role e' hh
      rw [hc]
      exact if_pos (held_pid.2 hl)

end

namespace Directory
variable {d : Directory E} {w : World E} {ports : E → Option Port} {e : E}

omit [DecidableEq E] in
/-- An end that is not connected has no mapping. -/
theorem Describes.unmapped (h : d.Describes who ⟨w, ports⟩) (hfree : ∀ p ∈ ports e, p.ep = none) :
    w.maps e = none ∧ ∀ g, Service.on ⟨w, ports⟩ g e = none := by
  have hseen := h.ends e
  cases hp : ports e with
  | none =>
    refine ⟨hseen.idle hp, fun g => ?_⟩
    simp only [Service.on, hp, Option.filter_none]
  | some p =>
    have hep := hfree p hp
    refine ⟨?_, fun g => ?_⟩
    · have hm := (hseen.housed p hp).mapped
      rw [hep] at hm
      exact Option.map_eq_none_iff.1 hm
    · simp only [Service.on, hp, Option.filter_some, hep, Option.any_none]
      rfl

/-- **Connecting to a channel.** -/
theorem Describes.join_run (h : d.Describes who ⟨w, ports⟩) (hlive : w.live (who e).val)
    (hfree : ∀ p ∈ ports e, p.ep = none) {g : ℕ} (hg : g < w.segs) {l : Line E}
    (hl : d.lines g = some l) (args : OpenArgs) (own : Bool) (fuel : ℕ) :
    ∃ res w' d', (bindEndpoint args.kind ⟨args.name, g⟩ (.ofWords (w.regions g).hdr) (who e) args.name
        (fuel + 1)).run (World.exec who e) (w.mapped e ⟨⟨args.name, g⟩, own⟩) = (some res, w') ∧
      d.join who e args g l own = (res.map fun _ => (), d') ∧ w.Sequel w' ∧
      d'.Describes who (match res with
        | .error _ => ⟨w'.closed e, ports⟩
        | .ok inner => ⟨w', Function.update ports e (some
            ⟨args, some ⟨args, ⟨args.name, g⟩, .ofWords (w.regions g).hdr, inner⟩, [], []⟩)⟩) := by
  obtain ⟨hmap, hoff⟩ := h.unmapped hfree
  obtain ⟨l', s, hl', hb⟩ := h.lines g hg
  obtain rfl : l = l' := Option.some.inj (hl.symm.trans hl')
  have hrun := hb.bind_run (w := w.mapped e ⟨⟨args.name, g⟩, own⟩) (m := ⟨args.name, g⟩) e args fuel
  have hsame : w.Sequel (w.mapped e ⟨⟨args.name, g⟩, own⟩) := ⟨rfl, fun _ => rfl⟩
  unfold Directory.join
  cases hbind : l.bind who e args with
  | error er =>
    rw [hbind] at hrun
    refine ⟨.error er, _, _, hrun, rfl, hsame, ?_⟩
    dsimp only
    rw [World.closed_mapped hmap]
    cases own with
    | false => exact h
    | true => exact h.unname args.name
  | ok l' =>
    rw [hbind] at hrun
    refine ⟨.ok (args.kind.bound s), _, _, hrun, rfl, hsame.signed g e args.kind (who e).val, ?_⟩
    have hmoved := ((World.Moved.refl w g e).mapped ⟨⟨args.name, g⟩, own⟩).signed args.kind (who e).val
    let ep : Endpoint := ⟨args, ⟨args.name, g⟩, .ofWords (w.regions g).hdr, args.kind.bound s⟩
    obtain ⟨s', hb'⟩ := hb.bind (p := ⟨args, some ep, [], []⟩) hlive (hoff g) hbind rfl rfl rfl
    have hmaps : ((w.mapped e ⟨⟨args.name, g⟩, own⟩).signed g e args.kind (who e).val).maps e =
        some ⟨⟨args.name, g⟩, own⟩ := by
      rw [World.signed_maps]
      exact World.mapped_self ..
    refine h.move (p := ⟨args, some ep, [], []⟩) hmoved hg ep hmaps hlive rfl rfl rfl rfl
      (fun g' _ => hoff g') (s := s') ?_
    rw [World.signed_region]
    exact hb'

/-! ## Looking a name up -/

section
variable (h : d.Describes who ⟨w, ports⟩)
include h

omit [DecidableEq E] in
theorem Describes.find_none {name : String} : d.find name = none ↔ w.names name = none := by
  have hn : d.names = w.names := h.names
  unfold find
  rw [hn]
  cases hg : w.names name with
  | none => simp
  | some g =>
    obtain ⟨l, s, hl, -⟩ := h.line hg
    simp [hl]

omit [DecidableEq E] in
theorem Describes.find_some {name : String} {g : ℕ} {l : Line E} (hf : d.find name = some (g, l)) :
    w.names name = some g ∧ d.lines g = some l ∧ g < w.segs ∧
      ∃ s, l.Backed who w.live (w.regions g) (Service.on ⟨w, ports⟩ g) s := by
  have hn : d.names = w.names := h.names
  unfold find at hf
  rw [hn] at hf
  cases hg : w.names name with
  | none =>
    rw [hg] at hf
    cases hf
  | some g' =>
    obtain ⟨l', s, hl, hs, hb⟩ := h.line hg
    rw [hg, Option.bind_some, hl] at hf
    cases hf
    exact ⟨rfl, hl, hs, s, hb⟩

/-- **`try_attach`** looks the name up. -/
theorem Describes.tryAttach_run (hfree : ∀ p ∈ ports e, p.ep = none) (name : String)
    (dtype : Dtype) :
    (tryAttach name dtype).run (World.exec who e) w = match d.find name with
      | none => (some (.ok none), w)
      | some (g, l) => match l.checkDtype dtype with
        | .error er => (some (.error er), w)
        | .ok () => (some (.ok (some (⟨name, g⟩, .ofWords (w.regions g).hdr))),
            w.mapped e ⟨⟨name, g⟩, false⟩) := by
  rw [tryAttach_alone (h.unmapped hfree).1]
  cases hf : d.find name with
  | none => rw [h.find_none.1 hf]
  | some gl =>
    obtain ⟨hn, -, -, s, hb⟩ := h.find_some hf
    rw [hn]
    dsimp only
    rw [if_neg hb.rings.len, hb.rings.attachOf]
    rcases gl.2.checkDtype dtype with er | ⟨⟩ <;> rfl

/-- **`open_or_create`** on a name that is taken. -/
theorem Describes.openExisting_run (hlive : w.live (who e).val) (hfree : ∀ p ∈ ports e, p.ep = none)
    {name : String} {g : ℕ} {l : Line E} (hf : d.find name = some (g, l)) (pb n : ℕ) (dtype : Dtype)
    (fuel : ℕ) :
    let own := !d.live l.deed.val
    let l' := if own then { l with deed := who e } else l
    ∃ w₁ : World E, (d.setLine g l').Describes who ⟨w₁, ports⟩ ∧ g < w₁.segs ∧
      (openExisting (who e) name pb n dtype (fuel + 1)).run (World.exec who e) w =
        match (do l.checkSizes pb n; l.checkDtype dtype : Except ZeroChannelError Unit) with
        | .error er => (some (.error er), w)
        | .ok () => (some (.ok (some (⟨name, g⟩, .ofWords (w₁.regions g).hdr))),
            w₁.mapped e ⟨⟨name, g⟩, own⟩) := by
  intro own l'
  obtain ⟨hn, -, hg, s, hb⟩ := h.find_some hf
  have hl : d.live = w.live := h.live
  -- the bid is won just when the process whose the channel is has died
  have hbid : Biddable w.live (who e) ((w.regions g).hdr .segmentOwner) ↔ own = true := by
    simp only [own, hb.owners.deed, Biddable, held_pid, hl, Bool.not_eq_true']
    constructor
    · rintro ⟨-, hd⟩
      simpa using hd
    · intro hd
      refine ⟨fun he => ?_, by simp [hd]⟩
      rw [he, hlive] at hd
      cases hd
  rw [openExisting_alone (who e) hn hb.rings.len (h.unmapped hfree).1, hb.rings.acceptOf]
  have hmoved := World.Moved.refl w g e
  cases hown : own with
  | true =>
    have hb' := hb.adopt (who e)
    rw [← w.put_region g e] at hb'
    refine ⟨w.put g e .segmentOwner (who e).val, ?_, (World.put_segs ..).symm ▸ hg, ?_⟩
    · simp only [l', hown, if_true]
      exact h.setLine (hmoved.put _ _) (congrFun (World.put_maps ..) e) hb'
    · rcases (do l.checkSizes pb n; l.checkDtype dtype : Except ZeroChannelError Unit) with er | ⟨⟩
      · rfl
      · simp only [Except.map, if_pos (hbid.2 hown), World.put_region,
          ofWords_setWord _ (w := .segmentOwner) rfl]
  | false =>
    refine ⟨w, ?_, hg, ?_⟩
    · simp only [l', hown, Bool.false_eq_true, if_false]
      exact h.setLine hmoved rfl hb
    · rcases (do l.checkSizes pb n; l.checkDtype dtype : Except ZeroChannelError Unit) with er | ⟨⟩
      · rfl
      · simp only [Except.map, if_neg (fun hb => absurd (hbid.1 hb) (by simp [hown]))]

omit [DecidableEq E] in
/-- Nobody is connected to a segment that does not exist. -/
theorem Describes.on_new : Service.on ⟨w, ports⟩ w.segs = fun _ => none := by
  funext e
  by_contra hne
  obtain ⟨p, hp⟩ := Option.ne_none_iff_exists'.1 hne
  obtain ⟨hp, ep, hep, hs⟩ := on_eq_some.1 hp
  exact absurd hs (((h.ends e).housed p hp).ep ep hep).2.2.ne

/-- **A new channel.** -/
theorem Describes.create_run (e : E) (name : String) (G : Geometry) (dtype : Dtype)
    (hsize : exactBytes G.payloadBytes G.entryCount < 2 ^ 64) : ∃ w₁ : World E,
      (d.create who e name G dtype).Describes who ⟨w₁, ports⟩ ∧ w.segs < w₁.segs ∧
      (w₁.regions w.segs).hdr .magic = MAGIC_VERSION ∧
      w.founded e (who e) name G.payloadBytes G.entryCount dtype =
        w₁.mapped e ⟨⟨name, w.segs⟩, true⟩ := by
  have hcount : d.count = w.segs := h.count
  have hf : (Region.zeroed (requiredBytes G.payloadBytes G.entryCount)).Fits G := by
    rw [requiredBytes_exact hsize]
    exact ⟨le_rfl, hsize⟩
  have hb := Line.Backed.init who w.live hf dtype (who e)
  obtain ⟨w₁, hw₁⟩ : ∃ w₁ : World E,
      w₁ = { w.founded e (who e) name G.payloadBytes G.entryCount dtype with maps := w.maps } :=
    ⟨_, rfl⟩
  have hnames : w₁.names = Function.update w.names name (some w.segs) := by rw [hw₁]; rfl
  have hlive : w₁.live = w.live := by rw [hw₁]; rfl
  have hrefuses : w₁.refuses = w.refuses := by rw [hw₁]; rfl
  have hsegs : w₁.segs = w.segs + 1 := by rw [hw₁]; rfl
  have hmaps : w₁.maps = w.maps := by rw [hw₁]
  have hnew : w₁.regions w.segs = (Region.zeroed (requiredBytes G.payloadBytes G.entryCount)).initialised
      G.payloadBytes G.entryCount dtype (who e).val := by
    rw [hw₁]
    exact World.setRegion_self ..
  have hold : ∀ g, g ≠ w.segs → w₁.regions g = w.regions g := by
    intro g hg
    rw [hw₁]
    exact (World.setRegion_ne _ hg _).trans (Function.update_of_ne hg ..)
  have hlines : (d.create who e name G dtype).lines = Function.update d.lines w.segs
      (some ⟨G, dtype, .empty G E, fun _ => none, who e⟩) := by
    rw [← hcount]
    rfl
  refine ⟨w₁, ⟨?_, h.live.trans hlive.symm, h.refuses.trans hrefuses.symm,
    (congrArg Nat.succ hcount).trans hsegs.symm, fun n g hn => ?_, fun e' => ?_, fun g hg => ?_⟩,
      hsegs ▸ Nat.lt_succ_self _, ?_, ?_⟩
  · have hn : d.names = w.names := h.names
    rw [create, hn, hcount]
    exact hnames.symm
  · have hn : w₁.names n = some g := hn
    rw [hnames] at hn
    refine lt_of_lt_of_eq ?_ hsegs.symm
    by_cases hname : n = name
    · rw [hname, Function.update_self] at hn
      cases hn
      exact Nat.lt_succ_self _
    · rw [Function.update_of_ne hname] at hn
      exact (h.bound n g hn).trans (Nat.lt_succ_self _)
  · exact (h.ends e').congr (congrFun hmaps e') (congrFun hlive _) (hsegs ▸ Nat.le_succ _)
  · show ∃ l s, _ ∧ Line.Backed who w₁.live (w₁.regions g) (Service.on ⟨w, ports⟩ g) l s
    have hg : g < w₁.segs := hg
    rw [hlines, hlive]
    by_cases hgs : g = w.segs
    · rw [hgs, hnew, h.on_new]
      exact ⟨_, _, Function.update_self .., hb⟩
    · rw [Function.update_of_ne hgs, hold g hgs]
      exact h.lines g (by rw [hsegs] at hg; exact lt_of_le_of_ne (Nat.lt_succ_iff.1 hg) hgs)
  · rw [hnew]
    exact initialised_magic ..
  · rw [hw₁]
    simp only [World.mapped, World.founded, World.setRegion, World.created]

end

end Directory

/-! ## Constructors -/

/-- What a constructor returns, and what the directory answers. -/
inductive OpensAs (who : E → Pid) (ports : E → Option Port) (e : E) (args : OpenArgs) :
    Option (Except ZeroChannelError (Option Endpoint)) × World E →
      Except ZeroChannelError Bool × Directory E → Prop
  | error {er : ZeroChannelError} {w : World E} {d : Directory E} :
    d.Describes who ⟨w, ports⟩ → OpensAs who ports e args (some (.error er), w) (.error er, d)
  | ok {ep : Option Endpoint} {w : World E} {d : Directory E} :
    d.Describes who ⟨w, Function.update ports e (some ⟨args, ep, [], []⟩)⟩ →
      OpensAs who ports e args (some (.ok ep), w) (.ok ep.isSome, d)

namespace Directory
variable {d : Directory E} {w : World E} {ports : E → Option Port} {e : E} {args : OpenArgs}

/-- A segment is mapped and bound. -/
theorem Describes.construct_join (h : d.Describes who ⟨w, ports⟩) (hlive : w.live (who e).val)
    (hfree : ∀ p ∈ ports e, p.ep = none) {g : ℕ} (hg : g < w.segs) {l : Line E}
    (hl : d.lines g = some l) {own : Bool} {fuel : ℕ} {w₀ : World E}
    (hrun : (openOrCreate (who e) args.name args.payloadBytes args.entryCount args.dtype
      args.delayedConnect (fuel + 1)).run (World.exec who e) w₀ =
        (some (.ok (some (⟨args.name, g⟩, .ofWords (w.regions g).hdr))),
          w.mapped e ⟨⟨args.name, g⟩, own⟩)) :
    OpensAs who ports e args ((construct (who e) args (fuel + 1)).run (World.exec who e) w₀)
      ((d.join who e args g l own).1.map fun _ => true, (d.join who e args g l own).2) := by
  obtain ⟨res, w', d', hb, hj, -, hd⟩ := h.join_run hlive hfree hg hl args own fuel
  unfold construct
  rw [Prog.run_bind, hrun]
  dsimp only
  rw [Prog.run_bind, hb, hj]
  cases res with
  | error er => exact .error hd
  | ok inner => exact .ok hd

omit [DecidableEq E] in
theorem checkGeometry_of? (pb n : ℕ) :
    (∃ er, checkGeometry pb n = .error er) ∨
      ∃ G : Geometry, checkGeometry pb n = .ok () ∧ Geometry.of? pb n = some G ∧
        pb = G.payloadBytes ∧ n = G.entryCount := by
  cases hc : checkGeometry pb n with
  | error er => exact Or.inl ⟨er, rfl⟩
  | ok =>
    obtain ⟨h₁, h₂, h₃⟩ := checkGeometry_ok.1 hc
    exact Or.inr ⟨⟨pb, n, h₁, h₂, h₃⟩, rfl, dif_pos ⟨h₁, h₂, h₃⟩, rfl, rfl⟩

/-- An end that waits for its channel. -/
theorem Describes.setDesk (h : d.Describes who ⟨w, ports⟩) (hlive : w.live (who e).val)
    (hfree : ports e = none) : (d.setDesk e ⟨args, none, []⟩).Describes who
      ⟨w, Function.update ports e (some ⟨args, none, [], []⟩)⟩ := by
  obtain ⟨hmap, hoff⟩ := h.unmapped (e := e) fun p hp => by rw [hfree] at hp; cases hp
  have hon : ∀ g, Service.on ⟨w, Function.update ports e (some ⟨args, none, [], []⟩)⟩ g =
      Service.on ⟨w, ports⟩ g := by
    intro g
    funext e'
    by_cases he : e' = e
    · rw [he, hoff g]
      simp only [Service.on, Function.update_self]
      rfl
    · simp only [Service.on, Function.update_of_ne he]
  have hseen : Seen who w e (some ⟨args, none, []⟩) (some ⟨args, none, [], []⟩) := by
    refine ⟨by rw [hmap]; rfl, fun hn => absurd hn (by simp), ?_⟩
    rintro _ ⟨⟩
    exact ⟨hlive, by rw [hmap]; rfl, fun ep hep => absurd hep (by simp), fun _ => ⟨rfl, rfl⟩⟩
  refine ⟨h.names, h.live, h.refuses, h.count, h.bound, fun e' => ?_, fun g hg => ?_⟩
  · by_cases he : e' = e
    · rw [he]
      simpa only [Directory.setDesk, Function.update_self] using hseen
    · simpa only [Directory.setDesk, Function.update_of_ne he] using h.ends e'
  · rw [hon]
    exact h.lines g hg

/-- `open_or_create` without sizes is `try_attach`. -/
theorem openOrCreate_tenant (me : Pid) {w' : World E}
    {r : Except ZeroChannelError (Option (Shmem × Header))} (hpb : args.payloadBytes = none)
    (hn : args.entryCount = none) (fuel : ℕ)
    (hrun : (tryAttach args.name args.dtype).run (World.exec who e) w = (some r, w')) :
    (openOrCreate me args.name args.payloadBytes args.entryCount args.dtype args.delayedConnect
      (fuel + 1)).run (World.exec who e) w =
        (some (if r = .ok none ∧ !args.delayedConnect then
          .error (.osError "shared memory segment does not exist and sizes were not supplied")
        else r), w') := by
  unfold openOrCreate
  rw [hpb, hn]
  dsimp only
  rw [Prog.run_bind, hrun]
  rcases r with er | _ | pair
  · rfl
  · cases args.delayedConnect <;> rfl
  · rfl

section
variable (h : d.Describes who ⟨w, ports⟩) (hlive : w.live (who e).val) (hfree : ports e = none)
include h hlive hfree

/-- A constructor without sizes. -/
theorem Describes.construct_attach (hpb : args.payloadBytes = none) (hn : args.entryCount = none)
    (fuel : ℕ) : OpensAs who ports e args
      ((construct (who e) args (fuel + 1)).run (World.exec who e) w) (d.open who e args) := by
  have hfree' : ∀ p ∈ ports e, p.ep = none := fun p hp => by rw [hfree] at hp; cases hp
  have hrun := h.tryAttach_run hfree' args.name args.dtype
  unfold Directory.open attach
  rw [hpb, hn]
  dsimp only
  cases hf : d.find args.name with
  | none =>
    rw [hf] at hrun
    have hopen := openOrCreate_tenant (who e) hpb hn fuel hrun
    cases hd : args.delayedConnect with
    | true =>
      rw [if_neg (by simp [hd])] at hopen
      rw [construct_absent hopen]
      exact .ok (h.setDesk hlive hfree)
    | false =>
      rw [if_pos ⟨rfl, by simp [hd]⟩] at hopen
      rw [construct_error hopen]
      exact .error h
  | some gl =>
    obtain ⟨-, hl, hg, -⟩ := h.find_some hf
    rw [hf] at hrun
    dsimp only at hrun ⊢
    rcases hdt : gl.2.checkDtype args.dtype with er | ⟨⟩
    · rw [hdt] at hrun
      rw [construct_error (openOrCreate_tenant _ hpb hn fuel hrun)]
      exact .error h
    · rw [hdt] at hrun
      have hjoin := h.construct_join hlive hfree' hg hl (openOrCreate_tenant _ hpb hn fuel hrun)
      rcases hj : d.join who e args gl.1 gl.2 false with ⟨er | ⟨⟩, d'⟩ <;> rw [hj] at hjoin <;>
        exact hjoin

omit hlive hfree in
/-- A new segment is mapped with its header. -/
theorem Describes.openOrCreate_new {G : Geometry} (hpb : args.payloadBytes = some G.payloadBytes)
    (hn : args.entryCount = some G.entryCount) (hf : d.find args.name = none)
    (hr : d.refuses args.name (requiredBytes G.payloadBytes G.entryCount) = none)
    (hsize : exactBytes G.payloadBytes G.entryCount < 2 ^ 64) (fuel : ℕ) : ∃ w₁ : World E,
      (d.create who e args.name G args.dtype).Describes who ⟨w₁, ports⟩ ∧ w.segs < w₁.segs ∧
      w₁.live = w.live ∧
      (openOrCreate (who e) args.name args.payloadBytes args.entryCount args.dtype
        args.delayedConnect (fuel + 1)).run (World.exec who e) w =
          (some (.ok (some (⟨args.name, w.segs⟩, .ofWords (w₁.regions w.segs).hdr))),
            w₁.mapped e ⟨⟨args.name, w.segs⟩, true⟩) := by
  have hw : d.refuses = w.refuses := h.refuses
  rw [hw] at hr
  obtain ⟨w₁, hd, hs, hmagic, hfounded⟩ := h.create_run e args.name G args.dtype hsize
  have hlive : w₁.live = w.live := hd.live.symm.trans h.live
  refine ⟨w₁, hd, hs, hlive, ?_⟩
  have hc : checkGeometry G.payloadBytes G.entryCount = .ok () :=
    checkGeometry_ok.2 ⟨G.payload_pos, G.count_pos, G.aligned⟩
  unfold openOrCreate
  rw [hpb, hn]
  dsimp only
  rw [hc]
  dsimp only
  rw [Prog.run_bind, createSegment_alone, if_neg (requiredBytes_ne_zero hsize), h.find_none.1 hf]
  dsimp only
  rw [hr]
  dsimp only
  rw [headerOf, Prog.run_bind, (osMapping_runs who e _).readHeader_alone, hfounded]
  dsimp only
  rw [decodeHeader_ok (by exact hmagic)]
  rfl

/-- A constructor with sizes. -/
theorem Describes.construct_create {pb n : ℕ} (hpb : args.payloadBytes = some pb)
    (hn : args.entryCount = some n) (hsize : exactBytes pb n < 2 ^ 64) (fuel : ℕ) :
    OpensAs who ports e args
      ((construct (who e) args (fuel + 1)).run (World.exec who e) w) (d.open who e args) := by
  have hfree' : ∀ p ∈ ports e, p.ep = none := fun p hp => by rw [hfree] at hp; cases hp
  unfold Directory.open
  rw [hpb, hn]
  dsimp only
  rcases checkGeometry_of? pb n with ⟨er, hc⟩ | ⟨G, hc, hG, rfl, rfl⟩
  · have hopen : (openOrCreate (who e) args.name args.payloadBytes args.entryCount args.dtype
        args.delayedConnect (fuel + 1)).run (World.exec who e) w = (some (.error er), w) := by
      unfold openOrCreate
      rw [hpb, hn]
      dsimp only
      rw [hc]
      rfl
    rw [construct_error hopen, hc]
    exact .error h
  · rw [hc, hG]
    dsimp only
    cases hf : d.find args.name with
    | none =>
      dsimp only
      cases hr : d.refuses args.name (requiredBytes G.payloadBytes G.entryCount) with
      | some msg =>
        have hw : d.refuses = w.refuses := h.refuses
        rw [hw] at hr
        have hopen : (openOrCreate (who e) args.name args.payloadBytes args.entryCount args.dtype
            args.delayedConnect (fuel + 1)).run (World.exec who e) w =
            (some (.error (.osError s!"failed to create shared memory: {msg}")), w) := by
          unfold openOrCreate
          rw [hpb, hn]
          dsimp only
          rw [hc]
          dsimp only
          rw [Prog.run_bind, createSegment_alone, if_neg (requiredBytes_ne_zero hsize),
            h.find_none.1 hf]
          dsimp only
          rw [hr]
          rfl
        rw [construct_error hopen]
        exact .error h
      | none =>
        obtain ⟨w₁, hd, hs, hlive', hopen⟩ :=
          h.openOrCreate_new (e := e) hpb hn hf hr hsize fuel
        have hcount : d.count = w.segs := h.count
        have hnew : (d.create who e args.name G args.dtype).lines w.segs =
            some ⟨G, args.dtype, .empty G E, fun _ => none, who e⟩ := by
          rw [← hcount]
          exact Function.update_self ..
        have hjoin := hd.construct_join (by rw [hlive']; exact hlive) hfree' hs hnew hopen
        rw [hcount]
        exact hjoin
  -- the name is taken
    | some gl =>
      obtain ⟨hname, -, -, -⟩ := h.find_some hf
      obtain ⟨w₁, hd, hs, hrun⟩ := h.openExisting_run hlive hfree' hf G.payloadBytes G.entryCount
        args.dtype fuel
      have hopen := (openOrCreate_taken hname hpb hn hc (requiredBytes_ne_zero hsize)).trans hrun
      dsimp only
      unfold adopt
      cases hck : (do gl.2.checkSizes G.payloadBytes G.entryCount; gl.2.checkDtype args.dtype :
          Except ZeroChannelError Unit) with
      | error er =>
        rw [hck] at hopen
        rw [construct_error hopen]
        exact .error h
      | ok =>
        rw [hck] at hopen
        have hlive' : w₁.live = w.live := hd.live.symm.trans h.live
        have hjoin := hd.construct_join (by rw [hlive']; exact hlive) hfree' hs
          (Function.update_self ..) hopen
        exact hjoin

/-- **A constructor.** -/
theorem Describes.construct_run (hsize : ∀ pb ∈ args.payloadBytes, ∀ n ∈ args.entryCount,
      exactBytes pb n < 2 ^ 64) (fuel : ℕ) :
    OpensAs who ports e args
      ((construct (who e) args (fuel + 1)).run (World.exec who e) w) (d.open who e args) := by
  have hmixed : ∀ {er}, (openOrCreate (who e) args.name args.payloadBytes args.entryCount args.dtype
      args.delayedConnect (fuel + 1)).run (World.exec who e) w = (some (.error er), w) →
      d.open who e args = (.error er, d) → OpensAs who ports e args
        ((construct (who e) args (fuel + 1)).run (World.exec who e) w) (d.open who e args) := by
    intro er hopen hd
    rw [construct_error hopen, hd]
    exact .error h
  cases hpb : args.payloadBytes with
  | none =>
    cases hn : args.entryCount with
    | none => exact h.construct_attach hlive hfree hpb hn fuel
    | some n => exact hmixed (by rw [hpb, hn]; rfl) (by unfold Directory.open; rw [hpb, hn])
  | some pb =>
    cases hn : args.entryCount with
    | none => exact hmixed (by rw [hpb, hn]; rfl) (by unfold Directory.open; rw [hpb, hn])
    | some n => exact h.construct_create hlive hfree hpb hn (hsize pb hpb n hn) fuel

end

end Directory

end ZeroChannel
