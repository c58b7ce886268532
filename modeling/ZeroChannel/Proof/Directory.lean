/-
  The crate is a directory of rotating queues.

  Calls, leaving and crashes lead from a state that a directory describes to one that it
  describes after the same step, with the same answer, as opening does (`Describes.step`);
  the runs follow by induction (`directory_of_queues`).
-/
import ZeroChannel.Proof.Connect
import ZeroChannel.Concur.Trace

namespace ZeroChannel

open Concur

variable {G : Geometry} {E : Type} [DecidableEq E] {who : E → Pid}

/-! ## Calls -/

/-- What a call of the end `e` returns, and what the directory answers. -/
def ServesAs (who : E → Pid) (ports : E → Option Port) (e : E)
    (run : Option (PortAnswer × Port) × World E) (ans : Option (PortAnswer × Directory E)) : Prop :=
  Option.Rel (fun r x => r.1 = x.1 ∧
    x.2.Describes who ⟨run.2, Function.update ports e (some r.2)⟩) run.1 ans

namespace Directory
variable {d : Directory E} {w : World E} {ports : E → Option Port} {e : E} {p : Port} {c : PortCall}

omit [DecidableEq E] in
/-- The desk of an end that is connected. -/
theorem Describes.desk_connected (h : d.Describes who ⟨w, ports⟩) (hp : ports e = some p)
    {ep : Endpoint} (hep : p.ep = some ep) : ∃ own, w.maps e = some ⟨ep.shmem, own⟩ ∧
      d.desks e = some ⟨p.args, some (ep.shmem.seg, own), p.reads.map Prod.snd⟩ := by
  have hseen : Seen who w e (d.desks e) (ports e) := h.ends e
  have hm := (hseen.housed p hp).mapped
  rw [hep, Option.map_some, Option.map_eq_some_iff] at hm
  obtain ⟨⟨m, own⟩, hm, rfl⟩ := hm
  have hdesk := hseen.desk
  rw [hp, Option.map_some, hm] at hdesk
  exact ⟨own, hm, hdesk⟩

/-- The rest of a call. -/
theorem Describes.serve_run (h : d.Describes who ⟨w, ports⟩) (hp : ports e = some p)
    (hk : p.args.kind.has c) (hz : c.inPlace → p.args.kind = .reader true)
    (hlog : ∀ g < w.segs, (w.regions g).hdr .lastEntrySeq < 2 ^ 63 - 1)
    (hc : c.claims → p.writes = []) {k : Desk}
    (hd : d.desks e = some k) :
    ServesAs who ports e ((p.serve c).run (World.exec who e) w) (d.serve e k c) := by
  have hseen : Seen who w e (d.desks e) (ports e) := h.ends e
  cases hep : p.ep with
  | none =>
    have hm := (h.unmapped (e := e) fun p' hp' => by rw [hp] at hp'; cases hp'; exact hep).1
    have hdesk := hseen.desk
    rw [hd, hp, hm] at hdesk
    obtain rfl := Option.some.inj hdesk
    unfold Port.serve Directory.serve ServesAs
    rw [hep]
    cases c.idle with
    | none => exact .none
    | some a =>
      refine .some ⟨rfl, ?_⟩
      rw [← hp, Function.update_eq_self]
      exact h
  | some ep =>
    obtain ⟨own, hm, hdesk⟩ := h.desk_connected hp hep
    obtain rfl := Option.some.inj (hd.symm.trans hdesk)
    obtain ⟨hargs, hname, hg⟩ := (hseen.housed p hp).ep ep hep
    have hlive := (hseen.housed p hp).live
    obtain ⟨l, s, hl, hb⟩ := h.lines _ hg
    have hon : Service.on ⟨w, ports⟩ ep.shmem.seg e = some p := on_eq_some.2 ⟨hp, ep, hep, rfl⟩
    have hoff : ∀ g ≠ ep.shmem.seg, Service.on ⟨w, ports⟩ g e = none := fun g => on_else hp hep
    have hmoved : ∀ r, w.Moved (w.setRegion ep.shmem.seg r) ep.shmem.seg e :=
      World.Moved.setRegion w _ e
    have hlog' : s.mem.log.length < 2 ^ 63 - 1 := by
      have hlast := (hb.rings.hdr .lastEntrySeq).trans hb.rings.rep.last
      have hlog := hlog _ hg
      have hlog : (w.regions ep.shmem.seg).hdr .lastEntrySeq < 2 ^ 63 - 1 := hlog
      rwa [hlast] at hlog
    unfold Port.serve Directory.serve
    rw [hep]
    dsimp only
    rw [hl, Option.bind_some]
    cases hb.places.place e p hon with
    | writer hkind hi hh hw hr =>
      have hinner : ep.inner = .writer l.geometry s.writer := by
        rw [hep] at hi
        exact Option.some.inj hi
      have hnil : c.claims → s.writeHandles = [] :=
        fun h => List.map_eq_nil_iff.1 (hw.symm.trans (hc h))
      rw [hkind] at hk
      have hs := serve_writer hb.rings.rep hb.queue hb.rings.stores hlog' e [] hk hnil
      rw [hinner, hkind, hw, hr, List.map_nil]
      dsimp only
      generalize s.writer.serve s.slots c = x, l.call .writer e [] c = y at hs ⊢
      cases hs with
      | none => exact .none
      | @some prog x hs =>
        obtain ⟨s', sw⟩ := hs
        have hheld : x.2.2 = [] := congrArg Prod.snd sw.queue
        unfold ServesAs
        rw [Prog.run_bind, run_onRing, sw.answer]
        refine .some ⟨rfl, ?_⟩
        dsimp only
        rw [hheld]
        refine h.move (p := ⟨p.args, some { ep with inner := .writer l.geometry s'.writer }, s'.slots, []⟩)
          (hmoved _) hg { ep with inner := .writer l.geometry s'.writer } hm hlive rfl hargs hname rfl
          hoff (s := s') ?_
        rw [World.setRegion_self]
        exact hb.wrote sw hh hon rfl hkind rfl rfl rfl
    | @reader zc xs hkind hi hh hw hr hxs hnil =>
      have hinner : ep.inner = .reader l.geometry (s.readers e) := by
        rw [hep] at hi
        exact Option.some.inj hi
      rw [hkind] at hk
      have hplace : zc = false → c.inPlace = false := by
        rintro rfl
        by_contra hin
        have hk' := hz (by simpa using hin)
        rw [hkind] at hk'
        cases hk'
      have hs := serve_reader hb.rings.rep hb.queue hb.rings.stores hlog' (e := e) hxs hk
      rw [hinner, hkind, hw, hr]
      dsimp only
      rw [handlesOf_snd]
      generalize (s.readers e).serve (handlesOf xs) c = x,
        l.call (.reader zc) e (entriesOf xs) c = y at hs ⊢
      cases hs with
      | none => exact .none
      | @some prog x hs =>
        obtain ⟨s', xs', sr⟩ := hs
        have hheld : x.2.2 = (handlesOf xs').map Prod.snd :=
          (congrArg Prod.snd sr.queue).trans (handlesOf_snd xs').symm
        unfold ServesAs
        rw [Prog.run_bind, run_onRing, sr.answer]
        refine .some ⟨rfl, ?_⟩
        dsimp only
        rw [hheld]
        refine h.move (p := ⟨p.args, some { ep with inner := .reader l.geometry (s'.readers e) }, [],
            handlesOf xs'⟩)
          (hmoved _) hg { ep with inner := .reader l.geometry (s'.readers e) } hm hlive rfl hargs hname
          rfl hoff (s := s') ?_
        rw [World.setRegion_self]
        exact hb.read sr hh hnil hplace hon rfl hkind rfl rfl rfl

/-- What `ensure_connected` returns to the end `p`, and what the directory finds. -/
inductive ConnectsAs (who : E → Pid) (ports : E → Option Port) (e : E) (p : Port) (w : World E)
    (d : Directory E) : Option (Except ZeroChannelError Port) × World E →
      Except ZeroChannelError Bool × Directory E → Prop
  | error {er : ZeroChannelError} {w' : World E} {d' : Directory E} :
    d'.Describes who ⟨w', ports⟩ →
      ConnectsAs who ports e p w d (some (.error er), w') (.error er, d')
  | waits : p.args.delayedConnect → ConnectsAs who ports e p w d (some (.ok p), w) (.ok false, d)
  | absent : p.args.delayedConnect = false → ConnectsAs who ports e p w d
      (some (.error (.osError "shared memory segment not available")), w) (.ok false, d)
  | ok {p' : Port} {w' : World E} {d' : Directory E} : p'.args = p.args → p'.writes = [] →
    w.Sequel w' → d'.Describes who ⟨w', Function.update ports e (some p')⟩ →
      ConnectsAs who ports e p w d (some (.ok p'), w') (.ok true, d')

/-- **`ensure_connected`.** -/
theorem Describes.connect_run (h : d.Describes who ⟨w, ports⟩) (hp : ports e = some p)
    (hep : p.ep = none) (fuel : ℕ) : ConnectsAs who ports e p w d
      ((p.ensureConnected (who e) (fuel + 1)).run (World.exec who e) w) (d.attach who e p.args) := by
  have hhoused : Housed who w e p := (h.ends e).housed p hp
  have hfree : ∀ p' ∈ ports e, p'.ep = none := fun p' hp' => by rw [hp] at hp'; cases hp'; exact hep
  have hrun := h.tryAttach_run hfree p.args.name p.args.dtype
  unfold Port.ensureConnected attach
  rw [hep, if_neg (by simp), Prog.run_bind, hrun]
  cases hf : d.find p.args.name with
  | none =>
    dsimp only
    cases hd : p.args.delayedConnect with
    | true => exact .waits hd
    | false => exact .absent hd
  | some gl =>
    obtain ⟨-, hl, hg, -⟩ := h.find_some hf
    dsimp only
    rcases gl.2.checkDtype p.args.dtype with er | ⟨⟩
    · exact .error h
    · obtain ⟨res, w', d', hb, hj, hw, hd⟩ := h.join_run hhoused.live hfree hg hl p.args false fuel
      dsimp only
      rw [Prog.run_bind, hb, hj]
      cases res with
      | error er => exact .error hd
      | ok inner =>
        obtain ⟨hwrites, hreads⟩ := hhoused.fresh hep
        refine .ok rfl hwrites hw ?_
        rw [hwrites, hreads]
        exact hd

/-- An answer that leaves the ends as they are. -/
theorem Describes.answer (h : d.Describes who ⟨w, ports⟩) (hp : ports e = some p)
    (o : Option PortAnswer) :
    ServesAs who ports e (o.map fun a => (a, p), w) (o.map fun a => (a, d)) := by
  cases o with
  | none => exact .none
  | some a =>
    refine .some ⟨rfl, ?_⟩
    rw [← hp, Function.update_eq_self]
    exact h

/-- **A call.** -/
theorem Describes.call_run (h : d.Describes who ⟨w, ports⟩) (hp : ports e = some p)
    (hlog : ∀ g < w.segs, (w.regions g).hdr .lastEntrySeq < 2 ^ 63 - 1)
    (hc : c.claims → p.writes = []) {k : Desk}
    (hd : d.desks e = some k) (fuel : ℕ) :
    ServesAs who ports e ((p.call (who e) c (fuel + 1)).run (World.exec who e) w) (d.call who e k c) := by
  have hseen : Seen who w e (d.desks e) (ports e) := h.ends e
  have hdesk := hseen.desk
  rw [hd, hp] at hdesk
  have hargs : k.args = p.args := by rw [Option.some.inj hdesk]
  unfold Port.call Directory.call
  rw [hargs]
  cases hk : p.args.kind.has c with
  | false => exact .none
  | true =>
    simp only [Bool.not_true, Bool.false_eq_true, if_false]
    cases hz : c.inPlace && p.args.kind ≠ .reader true with
    | true =>
      simp only [if_true]
      exact h.answer hp (some _)
    | false =>
      simp only [Bool.false_eq_true, if_false]
      have hz' : c.inPlace → p.args.kind = .reader true := by
        intro hin
        by_contra hne
        simp [hin, hne] at hz
      have hserve := h.serve_run hp hk hz' hlog hc hd
      cases hep : p.ep with
      | some ep =>
        -- nothing is left to be connected
        obtain ⟨own, -, hdesk'⟩ := h.desk_connected hp hep
        obtain rfl := Option.some.inj (hd.symm.trans hdesk')
        have hens : p.ensureConnected (who e) (fuel + 1) = pure (some (.ok p)) := by
          unfold Port.ensureConnected
          rw [hep]
          rfl
        rw [hens]
        cases c.connects <;> exact hserve
      | none =>
        have hm := (h.unmapped (e := e) fun p' hp' => by rw [hp] at hp'; cases hp'; exact hep).1
        rw [hm] at hdesk
        obtain rfl := Option.some.inj hdesk
        cases hcn : c.connects with
        | false => exact hserve
        | true =>
          have hconn := h.connect_run hp hep fuel
          simp only [Option.map_none, Option.isNone_none, Bool.and_true, if_true, Prog.run_bind]
          generalize (p.ensureConnected (who e) (fuel + 1)).run (World.exec who e) w = x,
            d.attach who e p.args = y at hconn ⊢
          cases hconn with
          | error hd' => exact hd'.answer hp _
          | waits hdel =>
            simp only [hdel, if_true]
            exact hserve
          | absent hdel =>
            simp only [hdel, Bool.false_eq_true, if_false]
            exact h.answer hp _
          | @ok p' w' d' ha hw hs hd' =>
            have hp' : Function.update ports e (some p') e = some p' := Function.update_self ..
            obtain ⟨k', hk'⟩ : ∃ k', d'.desks e = some k' := by
              have hdesk := (hd'.ends e).desk
              rw [hdesk]
              exact ⟨_, congrArg _ hp'⟩
            have hserve' := hd'.serve_run hp' (ha.symm ▸ hk) (ha.symm ▸ hz')
              (fun g hg => (hs.last g).trans_lt (hlog g (hg.trans_eq hs.segs))) (fun _ => hw) hk'
            unfold ServesAs at hserve' ⊢
            simp only [Function.update_idem] at hserve'
            simp only [hk', Option.bind_some]
            exact hserve'

end Directory

/-! ## Leaving -/

namespace Directory
variable {d : Directory E} {w w' : World E} {ports : E → Option Port} {e : E} {p : Port}

omit [DecidableEq E] in
/-- Ends go. -/
theorem Describes.left (h : d.Describes who ⟨w, ports⟩) (gone : E → Bool)
    (hnames : w'.names = w.names) (hrefuses : w'.refuses = w.refuses) (hsegs : w'.segs = w.segs)
    (hmaps : ∀ e, w'.maps e = if gone e then none else w.maps e)
    (hlive : ∀ e, gone e = false → w'.live (who e).val = w.live (who e).val)
    (hlines : ∀ g < w.segs, ∀ l : Line E, ∀ s : Session l.geometry E,
      l.Backed who w.live (w.regions g) (Service.on ⟨w, ports⟩ g) s →
      ∃ s' : Session (l.left gone).geometry E, (l.left gone).Backed who w'.live (w'.regions g)
        (fun e => if gone e then none else Service.on ⟨w, ports⟩ g e) s') :
    Describes who { d.left gone with live := w'.live }
      ⟨w', fun e => if gone e then none else ports e⟩ := by
  have hon : ∀ g, Service.on ⟨w', fun e => if gone e then none else ports e⟩ g =
      fun e => if gone e then none else Service.on ⟨w, ports⟩ g e := by
    intro g
    funext e
    cases hg : gone e <;> simp [Service.on, hg]
  refine ⟨h.names.trans hnames.symm, rfl, h.refuses.trans hrefuses.symm, h.count.trans hsegs.symm,
    fun n g hn => (h.bound n g (hnames ▸ hn)).trans_eq hsegs.symm, fun e => ?_, fun g hg => ?_⟩
  · show Seen who w' e (if gone e then none else d.desks e) (if gone e then none else ports e)
    have hm := hmaps e
    cases hg : gone e with
    | true =>
      rw [hg] at hm
      exact ⟨rfl, fun _ => hm, fun _ hp => by cases hp⟩
    | false =>
      rw [hg] at hm
      exact (h.ends e).congr hm (hlive e hg) hsegs.ge
  · obtain ⟨l, s, hl, hb⟩ := h.lines g (hg.trans_eq hsegs)
    obtain ⟨s', hb'⟩ := hlines g (hg.trans_eq hsegs) l s hb
    refine ⟨l.left gone, s', ?_, ?_⟩
    · show (d.lines g).map _ = _
      rw [hl]
      rfl
    · rw [hon]
      exact hb'

theorem run_dropEndpoint_taken (who : E → Pid) (me : Pid) (ep : Endpoint)
    (hc : ∀ role, ep.args.kind.role = some role →
      (w.regions ep.shmem.seg).hdr role.cell = me.val) :
    (dropEndpoint me ep).run (World.exec who e) w =
      ((), (w.signed ep.shmem.seg e ep.args.kind 0).closed e) := by
  unfold dropEndpoint World.signed
  cases hr : ep.args.kind.role with
  | none => rfl
  | some role =>
    dsimp only
    rw [Prog.run_bind, releaseRole, Prog.run_bind, (osMapping_runs who e ep.shmem).cas,
      if_pos (hc role hr)]
    rfl

/-- An end goes, its role handed back and its mapping closed. -/
theorem Describes.dropped (h : d.Describes who ⟨w, ports⟩) {g : ℕ} (hw : w.Moved w' g e)
    (hmaps : w'.maps = Function.update w.maps e none)
    (hline : ∀ l : Line E, ∀ s : Session l.geometry E,
      l.Backed who w.live (w.regions g) (Service.on ⟨w, ports⟩ g) s →
      ∃ s' : Session (l.left fun e' => e' = e).geometry E, (l.left fun e' => e' = e).Backed who w.live
        (w'.regions g) (fun e' => if decide (e' = e) then none else Service.on ⟨w, ports⟩ g e') s')
    (hoff : ∀ g' ≠ g, Service.on ⟨w, ports⟩ g' e = none) :
    (d.left fun e' => e' = e).Describes who ⟨w', Function.update ports e none⟩ := by
  have hlive : d.live = w'.live := h.live.trans hw.live.symm
  have hports : Function.update ports e none = fun e' => if decide (e' = e) then none else ports e' := by
    funext e'
    simp [Function.update_apply]
  have hleft : Describes who { d.left (fun e' => decide (e' = e)) with live := w'.live }
      ⟨w', fun e' => if decide (e' = e) then none else ports e'⟩ := by
    refine h.left _ hw.names hw.refuses hw.segs (fun e' => ?_) (fun _ _ => congrFun hw.live _)
      fun g' _ l s hb => ?_
    · rw [hmaps, Function.update_apply]
      simp
    · rw [hw.live]
      by_cases hg : g' = g
      · subst hg
        exact hline l s hb
      · rw [hw.regions g' hg]
        exact hb.untouched (hoff g' hg)
  rw [← hlive, ← hports] at hleft
  exact hleft

/-- **A connected end is dropped.** -/
theorem Describes.drop_run (h : d.Describes who ⟨w, ports⟩) (hp : ports e = some p) {ep : Endpoint}
    (hep : p.ep = some ep) : ∃ w' own, (dropEndpoint (who e) ep).run (World.exec who e) w = ((), w') ∧
      d.desks e = some ⟨p.args, some (ep.shmem.seg, own), p.reads.map Prod.snd⟩ ∧
      Describes who
        (if own then (d.left fun e' => e' = e).unname p.args.name else d.left fun e' => e' = e)
        ⟨w', Function.update ports e none⟩ := by
  obtain ⟨own, hm, hdesk⟩ := h.desk_connected hp hep
  obtain ⟨hargs, hname, hg⟩ := ((h.ends e).housed p hp).ep ep hep
  obtain ⟨l, s, hl, hb⟩ := h.lines _ hg
  have hon : Service.on ⟨w, ports⟩ ep.shmem.seg e = some p := on_eq_some.2 ⟨hp, ep, hep, rfl⟩
  have hrun := run_dropEndpoint_taken (w := w) (e := e) who (who e) ep
    fun role hr => (hb.owners.taken role e ((hb.places.place e p hon).holds (hargs ▸ hr))).1
  have hmoved := (World.Moved.refl w ep.shmem.seg e).signed ep.args.kind 0
  have hregion := w.signed_region ep.shmem.seg e ep.args.kind 0
  have hmaps := w.signed_maps ep.shmem.seg e ep.args.kind 0
  rw [hargs] at hrun hmoved hregion hmaps
  generalize w.signed ep.shmem.seg e p.args.kind 0 = w₁ at hrun hmoved hregion hmaps
  -- the mapping goes, the name stays for now
  have hdrop : (d.left fun e' => e' = e).Describes who
      ⟨{ w₁ with maps := Function.update w₁.maps e none }, Function.update ports e none⟩ := by
    refine h.dropped ⟨hmoved.names, hmoved.live, hmoved.refuses, hmoved.segs, hmoved.regions,
      fun e' he => ?_⟩ ?_ (fun l s hb => ?_) fun g => on_else hp hep
    · exact (Function.update_of_ne he ..).trans (hmoved.maps e' he)
    · rw [hmaps]
    · rw [hregion]
      exact hb.handed hon
  rw [← hmaps] at hm
  refine ⟨w₁.closed e, own, hrun, hdesk, ?_⟩
  unfold World.closed
  rw [hm]
  cases own with
  | false => exact hdrop
  | true =>
    have hnamed := hdrop.unname p.args.name
    rw [← hname] at hnamed ⊢
    exact hnamed

end Directory

/-! ## Steps -/

/-- The steps that are asked about: a segment that is asked for is smaller than the address
    space, no channel has used up its numbers at a call, and a writer that builds an entry
    neither writes nor acquires another slot. -/
def Service.Orderly (S : Service E) : ServiceAct E → Prop
  | .open _ args => ∀ pb ∈ args.payloadBytes, ∀ n ∈ args.entryCount, exactBytes pb n < 2 ^ 64
  | .call e c => (∀ g < S.world.segs, (S.world.regions g).hdr .lastEntrySeq < 2 ^ 63 - 1) ∧
      (c.claims → ∀ p ∈ S.ports e, p.writes = [])
  | _ => True

/-- **One step of the crate is one step of the directory**, with the same answer. -/
theorem Directory.Describes.step {d : Directory E} {S : Service E} (h : d.Describes who S)
    {a : ServiceAct E} (ha : S.Orderly a) :
    Option.Rel (fun x y => x.1 = y.1 ∧ y.2.Describes who x.2) (S.step who a) (d.step who a) := by
  obtain ⟨w, ports⟩ := S
  have hseen : ∀ e, Seen who w e (d.desks e) (ports e) := h.ends
  have hguard : ∀ e, (d.live (who e).val ∧ (d.desks e).isNone) ↔
      (w.live (who e).val ∧ (ports e).isNone) := by
    intro e
    have hl : d.live = w.live := h.live
    rw [hl, (hseen e).desk, Option.isNone_map]
  cases a with
  | «open» e args =>
    simp only [Service.step, Directory.step, hguard]
    split_ifs with hg
    · have hfree : ports e = none := Option.isNone_iff_eq_none.1 hg.2
      have hopen := h.construct_run hg.1 hfree ha 0
      rw [Nat.zero_add] at hopen
      generalize (construct (who e) args 1).run (World.exec who e) w = x, d.open who e args = y
        at hopen ⊢
      cases hopen with
      | error hd => exact .some ⟨rfl, hd⟩
      | ok hd => exact .some ⟨rfl, hd⟩
    · exact .none
  | call e c =>
    simp only [Service.step, Directory.step]
    cases hp : ports e with
    | none =>
      rw [(hseen e).desk, hp]
      exact .none
    | some p =>
      obtain ⟨k, hk⟩ : ∃ k, d.desks e = some k := ⟨_, (hseen e).desk.trans (congrArg _ hp)⟩
      have hcall := h.call_run hp ha.1 (fun hc => ha.2 hc p hp) hk 0
      rw [Nat.zero_add] at hcall
      rw [hk, Option.bind_some, Option.bind_some]
      generalize (p.call (who e) c 1).run (World.exec who e) w = x, d.call who e k c = y at hcall ⊢
      obtain ⟨res, w'⟩ := x
      unfold ServesAs at hcall
      dsimp only at hcall ⊢
      cases hcall with
      | none => exact .none
      | some hr => exact .some ⟨congrArg _ hr.1, hr.2⟩
  | drop e =>
    simp only [Service.step, Directory.step]
    cases hp : ports e with
    | none =>
      rw [(hseen e).desk, hp]
      exact .none
    | some p =>
      cases hep : p.ep with
      | none =>
        obtain ⟨hm, hoff⟩ := h.unmapped (e := e) fun p' hp' => by rw [hp] at hp'; cases hp'; exact hep
        have hdrop := h.dropped (World.Moved.refl w 0 e) (by rw [← hm, Function.update_eq_self])
          (fun l s hb => hb.untouched (hoff 0)) fun g _ => hoff g
        rw [(hseen e).desk, hp, hm]
        simp only [Option.map_some, Option.map_none, hep]
        exact .some ⟨rfl, hdrop⟩
      | some ep =>
        obtain ⟨w', own, hrun, hk, hdrop⟩ := h.drop_run hp hep
        rw [hk]
        simp only [Option.map_some, hep, hrun]
        refine .some ⟨rfl, ?_⟩
        cases own <;> exact hdrop
  | unlink e name =>
    simp only [Service.step, Directory.step, hguard]
    split_ifs with hg
    · have hm := (hseen e).idle (Option.isNone_iff_eq_none.1 hg.2)
      have hlen : ∀ g, w.names name = some g → (w.regions g).len ≠ 0 := fun g hname => by
        obtain ⟨l, s, -, -, hb⟩ := h.line hname
        exact hb.rings.len
      rw [run_unlink who w e hm hlen]
      exact .some ⟨rfl, h.unname name⟩
    · exact .none
  | crash pid =>
    have hl : d.live = w.live := h.live
    refine .some ⟨rfl, ?_⟩
    have hleft := h.left (fun e => decide ((who e).val = pid))
      (show (w.crashed who pid).names = w.names from rfl) rfl rfl (fun e => ?_) (fun e he => ?_)
      fun g _ l s hb => hb.crashed pid
    · simp only [decide_eq_true_eq] at hleft
      rw [hl]
      exact hleft
    · simp [World.crashed]
    · exact Function.update_of_ne (of_decide_eq_false he) ..

instance (S : Service E) (a : ServiceAct E) : Decidable (S.Orderly a) := match a with
  | .open _ args => inferInstanceAs
      (Decidable (∀ pb ∈ args.payloadBytes, ∀ n ∈ args.entryCount, exactBytes pb n < 2 ^ 64))
  | .call e c => inferInstanceAs (Decidable
      ((∀ g < S.world.segs, (S.world.regions g).hdr .lastEntrySeq < 2 ^ 63 - 1) ∧
        (c.claims → ∀ p ∈ S.ports e, p.writes = [])))
  | .drop _ => inferInstanceAs (Decidable True)
  | .unlink _ _ => inferInstanceAs (Decidable True)
  | .crash _ => inferInstanceAs (Decidable True)

/-- An orderly step. -/
def Service.orderlyStep (who : E → Pid) (S : Service E) (a : ServiceAct E) :
    Option (ServiceAnswer × Service E) :=
  if S.Orderly a then S.step who a else none

/-! ## Runs -/

omit [DecidableEq E] in
/-- Nothing is open, and no name refers to a segment. -/
theorem Directory.Describes.init (live : ℕ → Bool) (refuses : String → ℕ → Option String) :
    (Directory.empty E live refuses).Describes who
      (Service.init { World.boot live with refuses }) := by
  refine ⟨rfl, rfl, rfl, rfl, fun name g hn => ?_, fun e => ?_, fun g hg => ?_⟩
  · exact absurd hn (Option.some_ne_none g).symm
  · exact ⟨rfl, fun _ => rfl, fun p hp => absurd hp (Option.not_mem_none p)⟩
  · exact absurd hg (Nat.not_lt_zero g)

/-- An orderly step, with the answer of the directory. -/
theorem Directory.Describes.orderly {d : Directory E} {S S' : Service E} (h : d.Describes who S)
    {a : ServiceAct E} {b : ServiceAnswer} (hs : S.orderlyStep who a = some (b, S')) :
    ∃ d', d.step who a = some (b, d') ∧ d'.Describes who S' := by
  unfold Service.orderlyStep at hs
  split_ifs at hs with ha
  have hstep := h.step ha
  rw [hs] at hstep
  generalize d.step who a = r at hstep ⊢
  cases hstep with
  | some hr => exact ⟨_, congrArg some (Prod.ext hr.1.symm rfl), hr.2⟩

/-- An orderly run is one of the directory. -/
theorem Directory.describes_run {live : ℕ → Bool} {refuses : String → ℕ → Option String}
    {tr : List (ServiceAct E × ServiceAnswer)} {S : Service E}
    (h : Trace (fun S a b S' => S.orderlyStep who a = some (b, S'))
      (.init { World.boot live with refuses }) tr S) :
    ∃ d : Directory E, Trace (fun d a b d' => d.step who a = some (b, d'))
      (.empty E live refuses) tr d ∧ d.Describes who S := by
  refine h.simulate (R := fun S d => Directory.Describes who d S) (I := fun _ => True)
    (.init live refuses) (fun _ _ _ _ _ _ => trivial) ?_ trivial
  intro S d a b S' hdesc hs _
  exact hdesc.orderly hs

/-- **The crate is a directory of rotating queues.**  Every orderly run has the trace of a run
    of the directory, which then answers every orderly step as the crate does. -/
theorem directory_of_queues {live : ℕ → Bool} {refuses : String → ℕ → Option String}
    {tr : List (ServiceAct E × ServiceAnswer)} {S : Service E}
    (h : Trace (fun S a b S' => S.orderlyStep who a = some (b, S'))
      (.init { World.boot live with refuses }) tr S) :
    ∃ d : Directory E,
      Trace (fun d a b d' => d.step who a = some (b, d')) (.empty E live refuses) tr d ∧
      ∀ a, S.Orderly a → (S.step who a).map Prod.fst = (d.step who a).map Prod.fst := by
  obtain ⟨d, hd, hdesc⟩ := Directory.describes_run h
  refine ⟨d, hd, fun a ha => ?_⟩
  have hstep := hdesc.step ha
  generalize S.step who a = x, d.step who a = y at hstep ⊢
  cases hstep with
  | none => rfl
  | some hr => exact congrArg some hr.1

/-- A reader waits for its channel; a writer that crashes leaves the role and the name to the
    next one, which skips the entry that the reader still holds and takes the name along when
    it goes, but not the channel from its reader. -/
theorem directory_of_queues_succession : ∃ (who : Fin 3 → Pid)
    (tr : List (ServiceAct (Fin 3) × ServiceAnswer)) (d : Directory (Fin 3)),
    tr.map Prod.snd = [.opened (.ok false), .called (.tryAcquire (.ok none)), .opened (.ok true),
      .called (.write (.ok ())), .called (.tryAcquire (.ok (some 1))),
      .opened (.error (.roleConflict "the writer role on channel 'ch' is held by process 8")),
      .called (.write (.ok ())), .done, .opened (.ok true), .called (.write (.ok ())),
      .called (.bytes (List.replicate 8 5)), .done,
      .called (.readInto (.ok (some 3)) (List.replicate 8 7)), .opened (.ok true),
      .called (.write (.ok ())), .called (.number 3)] ∧
    Trace (fun d a b d' => d.step who a = some (b, d'))
      (.empty _ (fun _ => true) fun _ _ => none) tr d := by
  let who : Fin 3 → Pid := fun e => ⟨e.val + 7, by omega, by omega⟩
  let reader : OpenArgs := ⟨.reader true, "ch", none, none, .u8, true, by decide⟩
  let writer : OpenArgs := ⟨.writer, "ch", some 8, some 2, .u8, false, by decide⟩
  have hrun : (record (Service.orderlyStep who)
      (.init { World.boot (fun _ => true) with refuses := fun _ _ => none })
      [.open 0 reader, .call 0 (.tryAcquire none), .open 1 writer,
        .call 1 (.write (List.replicate 8 5)), .call 0 (.tryAcquire none), .open 2 writer,
        .call 1 (.write (List.replicate 8 6)), .crash 8, .open 2 writer,
        .call 2 (.write (List.replicate 8 7)), .call 0 (.asBytes 1), .drop 2,
        .call 0 (.readInto (List.replicate 8 0) none), .open 2 writer,
        .call 2 (.write (List.replicate 8 9)), .call 0 .writerEntrySeq]).map
          (fun q => q.1.map Prod.snd) =
      some [.opened (.ok false), .called (.tryAcquire (.ok none)), .opened (.ok true),
        .called (.write (.ok ())), .called (.tryAcquire (.ok (some 1))),
        .opened (.error (.roleConflict "the writer role on channel 'ch' is held by process 8")),
        .called (.write (.ok ())), .done, .opened (.ok true), .called (.write (.ok ())),
        .called (.bytes (List.replicate 8 5)), .done,
        .called (.readInto (.ok (some 3)) (List.replicate 8 7)), .opened (.ok true),
        .called (.write (.ok ())), .called (.number 3)] := by
    decide +kernel
  obtain ⟨⟨tr, S⟩, hr, he⟩ := Option.map_eq_some_iff.1 hrun
  obtain ⟨d, hd, -⟩ := directory_of_queues (trace_of_record hr)
  exact ⟨who, tr, d, he, hd⟩

end ZeroChannel
