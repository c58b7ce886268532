/-
  A channel of the directory in its segment.

  The bytes hold a session (`Rings`) whose queue is that of the channel, the header names
  those who have its roles (`Owners`), and the ends that are connected have their places in
  the session (`Places`).  Each of the three has its own lemmas for an end that connects,
  makes a call or goes.
-/
import ZeroChannel.Proof.Serve
import ZeroChannel.Proof.Inside

namespace ZeroChannel

open Concur

variable {G : Geometry} {E : Type}

/-! ## The bytes -/

/-- The words that name a process. -/
def HeaderWord.isOwner : HeaderWord → Bool
  | segmentOwner | writerOwner | zcReaderOwner => true
  | _ => false

theorem Role.cell_isOwner (role : Role) : role.cell.isOwner := by
  cases role <;> rfl

theorem Role.cell_ne_deed (role : Role) : HeaderWord.segmentOwner ≠ role.cell := by
  cases role <;> decide

theorem Role.cell_inj {r r' : Role} (h : r.cell = r'.cell) : r = r' := by
  cases r <;> cases r' <;> first | rfl | cases h

/-- The session after a store to such a word. -/
def Session.named (s : Session G E) (w : HeaderWord) (v : ℕ) : Session G E :=
  { s with mem := { s.mem with seg := s.mem.seg.setHdr w v } }

theorem Session.Represents.named {s : Session G E} (h : s.Represents) {w : HeaderWord}
    (hw : w.isOwner) (v : ℕ) : (s.named w v).Represents := by
  have hne : ∀ w', w'.isOwner = false → (s.named w v).mem.seg.hdr w' = s.mem.seg.hdr w' := by
    rintro w' hw'
    refine Segment.setHdr_ne _ ?_ v
    rintro rfl
    rw [hw] at hw'
    cases hw'
  exact ⟨⟨h.lt, h.pin, h.nodup⟩, h.marked, (hne _ rfl).trans h.magic, h.count,
    (hne _ rfl).trans h.last, (hne _ rfl).trans h.index, h.newest, h.neg, h.data, h.view, h.handle⟩

/-- The session when the writer is gone: what it was building is given up. -/
def Session.vacated (s : Session G E) : Session G E := { s with writeHandles := [] }

theorem Session.Represents.vacated {s : Session G E} (h : s.Represents) : s.vacated.Represents :=
  ⟨⟨h.lt, h.pin, h.nodup⟩, h.marked, h.magic, h.count, h.last, h.index, h.newest, h.neg, h.data,
    h.view, Or.inl rfl⟩

theorem Session.queue_vacated (s : Session G E) : s.vacated.queue = s.queue.vacated := by
  refine queue_change s s.vacated (u := .building) (f := fun c => { c with use := .free })
    (fun i => ?_) rfl rfl
  split_ifs with hi
  · obtain ⟨hw, -⟩ := useAt_building.1 hi
    simp [cellAt, useAt, vacated, hw]
  · -- a free slot is in nobody's hands
    rw [useAt_building] at hi
    simp only [cellAt, useAt, vacated, List.not_mem_nil, if_false]
    split_ifs with h₁ h₂ h₃
    · rfl
    · rfl
    · exact absurd ⟨by omega, h₃⟩ hi
    · rfl

/-- The bytes `r` hold the session `s`, and the header describes its channel. -/
structure Rings (r : Region) (s : Session G E) (dtype : Dtype) : Prop where
  rep : s.Represents
  stores : Stores r s.mem
  payload : r.hdr .payloadBytes = G.payloadBytes
  count : r.hdr .entryCount = G.entryCount
  dtype : r.hdr .dtype = dtype.code

namespace Rings
variable {r : Region} {s : Session G E} {dtype : Dtype} (h : Rings r s dtype)
include h

theorem hdr (w : HeaderWord) : r.hdr w = s.mem.seg.hdr w := congrArg (fun m => m.hdr w) h.stores.2

theorem magic : r.hdr .magic = MAGIC_VERSION := (h.hdr .magic).trans h.rep.magic

theorem len : r.len ≠ 0 := by
  have hle := h.stores.1.exact
  unfold exactBytes HEADER_BYTES at hle
  omega

/-- After a call. -/
theorem goes {r' : Region} {s' : Session G E} (hg : s.Goes s') (hs : Stores r' s'.mem) :
    Rings r' s' dtype ∧ ∀ w, w.isOwner → r'.hdr w = r.hdr w := by
  have hhdr : ∀ w, w ≠ .writeIndex → w ≠ .lastEntrySeq → r'.hdr w = r.hdr w := by
    intro w hi hl
    rw [h.hdr, ← hg.hdr w hi hl]
    exact congrArg (fun m => m.hdr w) hs.2
  refine ⟨⟨hg.rep, hs, ?_, ?_, ?_⟩, fun w hw => hhdr w ?_ ?_⟩
  · exact (hhdr _ (by decide) (by decide)).trans h.payload
  · exact (hhdr _ (by decide) (by decide)).trans h.count
  · exact (hhdr _ (by decide) (by decide)).trans h.dtype
  · rintro rfl
    cases hw
  · rintro rfl
    cases hw

/-- After a store of an owner. -/
theorem named {w : HeaderWord} (hw : w.isOwner) {v : ℕ} (hv : v < 2 ^ 64) :
    Rings (r.setWord w.off v) (s.named w v) dtype := by
  have hne : ∀ w', w'.isOwner = false → (r.setWord w.off v).hdr w' = r.hdr w' := by
    intro w' hw'
    refine Region.hdr_setWord_ne ?_ v
    rintro rfl
    rw [hw] at hw'
    cases hw'
  refine ⟨h.rep.named hw v, ⟨h.stores.1.of_len rfl, ?_⟩, (hne _ rfl).trans h.payload,
    (hne _ rfl).trans h.count, (hne _ rfl).trans h.dtype⟩
  rw [h.stores.1.decode_setHdr w hv, h.stores.2]
  rfl

/-- When the writer is gone. -/
theorem vacated : Rings r s.vacated dtype :=
  ⟨h.rep.vacated, h.stores, h.payload, h.count, h.dtype⟩

/-- An end is entered, its bookmark at the start. -/
theorem entered [DecidableEq E] (e : E) :
    Rings r { s with readers := Function.update s.readers e .attach } dtype :=
  ⟨⟨⟨h.rep.lt, h.rep.pin, h.rep.nodup⟩, h.rep.marked, h.rep.magic, h.rep.count, h.rep.last,
    h.rep.index, h.rep.newest, h.rep.neg, h.rep.data, h.rep.view, h.rep.handle⟩,
    h.stores, h.payload, h.count, h.dtype⟩

end Rings

/-! ## What the header tells -/

section
variable {l : Line E} {r : Region} {s : Session l.geometry E} (h : Rings r s l.dtype)
include h

theorem Rings.checkDtype (requested : Dtype) :
    ZeroChannel.checkDtype (.ofWords r.hdr) requested = l.checkDtype requested := by
  have hcode : ∀ d : Dtype, d.code = requested.code ↔ d = requested := by
    intro d
    cases d <;> cases requested <;> decide
  have hd : (Header.ofWords r.hdr).dtype = l.dtype.code := h.dtype
  unfold ZeroChannel.checkDtype Line.checkDtype
  rw [hd]
  simp only [hcode]
  rfl

theorem Rings.checkSizes (pb n : ℕ) :
    validateHeader (.ofWords r.hdr) pb n = l.checkSizes pb n := by
  have hpb : (Header.ofWords r.hdr).payloadBytes = l.geometry.payloadBytes := h.payload
  have hn : (Header.ofWords r.hdr).entryCount = l.geometry.entryCount := h.count
  unfold validateHeader Line.checkSizes
  rw [hpb, hn]

/-- What `try_attach` finds. -/
theorem Rings.attachOf (requested : Dtype) : attachOf r.hdr requested =
    (l.checkDtype requested).map fun _ => some (.ofWords r.hdr) := by
  have hpos : ¬ ((Header.ofWords r.hdr).payloadBytes = 0 ∨ (Header.ofWords r.hdr).entryCount = 0) :=
    not_or.2 ⟨fun h0 => l.geometry.payload_pos.ne' (h.payload.symm.trans h0),
      fun h0 => l.geometry.count_pos.ne' (h.count.symm.trans h0)⟩
  unfold ZeroChannel.attachOf
  rw [decodeHeader_some.2 ⟨h.magic, rfl⟩]
  dsimp only
  rw [if_neg hpos, h.checkDtype]
  rcases l.checkDtype requested with er | ⟨⟩ <;> rfl

/-- What `open_or_create` finds. -/
theorem Rings.acceptOf (pb n : ℕ) (requested : Dtype) : acceptOf r.hdr pb n requested =
    (do l.checkSizes pb n; l.checkDtype requested : Except ZeroChannelError Unit).map
      fun _ => some (.ofWords r.hdr) := by
  unfold ZeroChannel.acceptOf
  rw [decodeHeader_some.2 ⟨h.magic, rfl⟩]
  dsimp only
  rw [h.checkSizes, h.checkDtype]
  rcases l.checkSizes pb n with er | ⟨⟩
  · rfl
  · rcases l.checkDtype requested with er | ⟨⟩ <;> rfl

end

/-- A region that has just been initialised. -/
theorem Rings.init {r : Region} (hf : r.Fits G) (dtype : Dtype) (me : Pid) :
    Rings (r.initialised G.payloadBytes G.entryCount dtype me.val)
      (.init G E dtype me.val) dtype := by
  have hrun : ((initRegion G.payloadBytes G.entryCount dtype me.val).run Region.rawExec r).2 =
      r.initialised G.payloadBytes G.entryCount dtype me.val := by
    have hzero : ∀ (ks : List ℕ) (r : Region),
        (ks.foldlM (fun _ k => (.op (.zero k) .pure : Prog rawSig Unit)) ()).run Region.rawExec r =
          ((), ks.foldl (fun r k => r.setByte k 0) r) := by
      intro ks
      induction ks with
      | nil => intro r; rfl
      | cons k ks ih =>
        intro r
        rw [List.foldlM_cons, Prog.run_bind]
        exact ih _
    unfold initRegion initHeader
    rw [Prog.run_bind, hzero]
    rfl
  obtain ⟨hdec, hlen, -⟩ := hf.init_implements dtype me
  rw [hrun] at hdec hlen
  have hhdr : ∀ w, (r.initialised G.payloadBytes G.entryCount dtype me.val).hdr w =
      (Segment.init G dtype me.val).hdr w := fun w => congrArg (fun m => m.hdr w) hdec
  exact ⟨.init dtype me.val, ⟨hf.of_len hlen, hdec⟩, hhdr _, hhdr _, hhdr _⟩

/-! ## The owners -/

/-- The header names the process of each role and the one whose the channel is. -/
structure Owners (who : E → Pid) (live : ℕ → Bool) (hdr : HeaderWord → ℕ) (holder : Role → Option E)
    (deed : Pid) : Prop where
  deed : hdr .segmentOwner = deed.val
  free : ∀ role, holder role = none → ¬ Held live (hdr role.cell)
  taken : ∀ role e, holder role = some e → hdr role.cell = (who e).val ∧ live (who e).val

namespace Owners
variable {who : E → Pid} {live : ℕ → Bool} {r : Region} {holder : Role → Option E} {deed : Pid}
  (h : Owners who live r.hdr holder deed)
include h

theorem congr {r' : Region} (hr : ∀ w, w.isOwner → r'.hdr w = r.hdr w) :
    Owners who live r'.hdr holder deed := by
  refine ⟨(hr _ rfl).trans h.deed, fun role hh => ?_, fun role e hh => ?_⟩
  · rw [hr _ role.cell_isOwner]
    exact h.free role hh
  · rw [hr _ role.cell_isOwner]
    exact h.taken role e hh

/-- A role is claimed. -/
theorem claim [DecidableEq E] {e : E} (hl : live (who e).val) (role : Role) :
    Owners who live (r.setWord role.cell.off (who e).val).hdr
      (Function.update holder role (some e)) deed := by
  have hpid : (who e).val < 2 ^ 64 := (who e).lt.trans (by norm_num)
  have hne : ∀ role', role' ≠ role →
      (r.setWord role.cell.off (who e).val).hdr role'.cell = r.hdr role'.cell :=
    fun role' hr => Region.hdr_setWord_ne (fun he => hr (Role.cell_inj he)) _
  refine ⟨(Region.hdr_setWord_ne role.cell_ne_deed _).trans h.deed, fun role' hh => ?_,
    fun role' e' hh => ?_⟩
  · by_cases hr : role' = role
    · subst hr
      rw [Function.update_self] at hh
      cases hh
    · rw [Function.update_of_ne hr] at hh
      rw [hne role' hr]
      exact h.free role' hh
  · by_cases hr : role' = role
    · subst hr
      rw [Function.update_self] at hh
      cases hh
      exact ⟨Region.hdr_setWord hpid, hl⟩
    · rw [Function.update_of_ne hr] at hh
      rw [hne role' hr]
      exact h.taken role' e' hh

/-- The deed passes on. -/
theorem succeed (me : Pid) :
    Owners who live (r.setWord HeaderWord.segmentOwner.off me.val).hdr holder me := by
  have hpid : me.val < 2 ^ 64 := me.lt.trans (by norm_num)
  have hne : ∀ role : Role,
      (r.setWord HeaderWord.segmentOwner.off me.val).hdr role.cell = r.hdr role.cell :=
    fun role => Region.hdr_setWord_ne role.cell_ne_deed.symm _
  refine ⟨Region.hdr_setWord hpid, fun role hh => ?_, fun role e hh => ?_⟩
  · rw [hne]
    exact h.free role hh
  · rw [hne]
    exact h.taken role e hh

/-- The ends in `gone` are gone, and their processes with them or the roles handed back. -/
theorem leave {live' : ℕ → Bool} {r' : Region} {gone : E → Bool}
    (hdeed : r'.hdr .segmentOwner = r.hdr .segmentOwner)
    (hnone : ∀ role : Role, ¬ Held live (r.hdr role.cell) → ¬ Held live' (r'.hdr role.cell))
    (hgone : ∀ role e, holder role = some e → gone e → ¬ Held live' (r'.hdr role.cell))
    (hkeep : ∀ role e, holder role = some e → gone e = false →
      r'.hdr role.cell = r.hdr role.cell ∧ live' (who e).val = live (who e).val) :
    Owners who live' r'.hdr (fun role => (holder role).filter fun e => !gone e) deed := by
  refine ⟨hdeed.trans h.deed, fun role hh => ?_, fun role e hh => ?_⟩
  · cases hr : holder role with
    | none => exact hnone role (h.free role hr)
    | some e =>
      have hg : gone e := by simpa only [hr, Option.filter_some, ite_eq_right_iff, reduceCtorEq,
        imp_false, Bool.not_eq_true', Bool.not_eq_false] using hh
      exact hgone role e hr hg
  · obtain ⟨hr, hg⟩ := Option.filter_eq_some_iff.1 hh
    obtain ⟨hc, hl⟩ := h.taken role e hr
    obtain ⟨hc', hl'⟩ := hkeep role e hr (by simpa using hg)
    exact ⟨hc'.trans hc, hl'.trans hl⟩

end Owners

/-! ## The ends -/

/-- What an end is given when it connects. -/
def Kind.bound (s : Session G E) : Kind → Inner
  | .writer => .writer G s.writer
  | .reader _ => .reader G .attach

/-- The region with `v` as the owner of the role, if there is one. -/
def Kind.sign (kind : Kind) (v : ℕ) (r : Region) : Region := match kind.role with
  | none => r
  | some role => r.setWord role.cell.off v

/-- The place of an end that is connected to the session `s`. -/
inductive Place (holder : Role → Option E) (s : Session G E) (e : E) (p : Port) : Prop
  | writer (hk : p.args.kind = .writer) (hi : p.ep.map Endpoint.inner = some (.writer G s.writer))
      (hh : holder .writer = some e) (hw : p.writes = s.slots) (hr : p.reads = [])
  | reader {zc : Bool} {xs : List (ReadHandle G)} (hk : p.args.kind = .reader zc)
      (hi : p.ep.map Endpoint.inner = some (.reader G (s.readers e)))
      (hh : zc → holder .zcReader = some e) (hw : p.writes = []) (hr : p.reads = handlesOf xs)
      (hxs : xs.Nodup ∧ ∀ x ∈ xs, x ∈ s.readHandles) (hz : zc = false → xs = [])

/-- The ends that are connected; who holds a role is one of them. -/
structure Places (holder : Role → Option E) (s : Session G E) (on : E → Option Port) : Prop where
  idle : holder .writer = none → s.writeHandles = []
  holds : ∀ role e, holder role = some e → ∃ p, on e = some p ∧ p.args.kind.role = some role
  place : ∀ e p, on e = some p → Place holder s e p

section
variable {holder holder' : Role → Option E} {s s' : Session G E} {on : E → Option Port} {e : E}

/-- What an end is not concerned with. -/
theorem Place.congr {p : Port} (h : Place holder s e p)
    (hw : holder .writer = some e →
      holder' .writer = some e ∧ s'.writer = s.writer ∧ s'.slots = s.slots)
    (hz : holder .zcReader = some e →
      holder' .zcReader = some e ∧ ∀ x ∈ s.readHandles, x ∈ s'.readHandles)
    (hr : s'.readers e = s.readers e) : Place holder' s' e p := by
  cases h with
  | writer hk hi hh hwr hrd =>
    obtain ⟨hh', hwriter, hslots⟩ := hw hh
    exact .writer hk (by rw [hi, hwriter]) hh' (by rw [hwr, hslots]) hrd
  | @reader zc xs hk hi hh hwr hrd hxs hnil =>
    refine .reader hk (by rw [hi, hr]) (fun h => (hz (hh h)).1) hwr hrd ⟨hxs.1, fun x hx => ?_⟩ hnil
    cases zc with
    | false =>
      rw [hnil rfl] at hx
      cases hx
    | true => exact (hz (hh rfl)).2 x (hxs.2 x hx)

/-- The place of an end that has just connected. -/
theorem Place.bound {p : Port} (hi : p.ep.map Endpoint.inner = some (p.args.kind.bound s))
    (hh : ∀ role, p.args.kind.role = some role → holder role = some e)
    (hw : p.args.kind = .writer → s.writeHandles = []) (hr : s.readers e = .attach)
    (hpw : p.writes = []) (hpr : p.reads = []) : Place holder s e p := by
  cases hk : p.args.kind with
  | writer =>
    rw [hk] at hi hh
    refine .writer hk hi (hh _ rfl) ?_ hpr
    rw [hpw, Session.slots, hw hk]
    rfl
  | reader zc =>
    rw [hk] at hi hh
    have hnil : p.reads = handlesOf ([] : List (ReadHandle G)) := hpr
    refine .reader hk (by rw [hi, hr]; rfl) ?_ hpw hnil ⟨List.nodup_nil, ?_⟩ fun _ => rfl
    · rintro rfl
      exact hh _ rfl
    · exact fun x hx => absurd hx List.not_mem_nil

/-- The connected end has the role it was opened for. -/
theorem Place.holds {p : Port}
    (h : Place holder s e p) {role : Role} (hr : p.args.kind.role = some role) :
    holder role = some e := by
  cases h with
  | writer hk _ hh =>
    rw [hk] at hr
    cases hr
    exact hh
  | @reader zc _ hk _ hh =>
    rw [hk] at hr
    cases zc with
    | false => cases hr
    | true =>
      cases hr
      exact hh rfl

/-- One end moves. -/
theorem Places.update [DecidableEq E] (h : Places holder s on) {p : Port} (hp : Place holder' s' e p)
    (hidle : holder' .writer = none → s'.writeHandles = [])
    (hrole : ∀ role, holder' role = some e → p.args.kind.role = some role)
    (hheld : ∀ role e', e' ≠ e → holder' role = some e' → holder role = some e')
    (hother : ∀ e' p', e' ≠ e → Place holder s e' p' → Place holder' s' e' p') :
    Places holder' s' (Function.update on e (some p)) := by
  refine ⟨hidle, fun role e' hh => ?_, fun e' p' hon => ?_⟩
  · by_cases he : e' = e
    · subst he
      exact ⟨p, Function.update_self .., hrole role hh⟩
    · rw [Function.update_of_ne he]
      exact h.holds role e' (hheld role e' he hh)
  · by_cases he : e' = e
    · subst he
      rw [Function.update_self] at hon
      cases hon
      exact hp
    · rw [Function.update_of_ne he] at hon
      exact hother e' p' he (h.place e' p' hon)

/-- Ends go. -/
theorem Places.left (h : Places holder s on) {gone : E → Bool} (hw : s'.writer = s.writer)
    (hr : s'.readers = s.readers) (hx : s'.readHandles = s.readHandles)
    (hs : s'.writeHandles = if (holder .writer).any gone then [] else s.writeHandles) :
    Places (fun role => (holder role).filter fun e => !gone e) s'
      (fun e => if gone e then none else on e) := by
  have hstay : ∀ role e, gone e = false → holder role = some e →
      (holder role).filter (fun e => !gone e) = some e := by
    intro role e hg hh
    rw [hh, Option.filter_some, hg]
    rfl
  refine ⟨fun hh => ?_, fun role e hh => ?_, fun e p hon => ?_⟩
  · rw [hs]
    cases hr : holder .writer with
    | none => rw [Option.any_none, if_neg Bool.false_ne_true, h.idle hr]
    | some e =>
      have hg : gone e = true := by
        by_contra hg
        exact absurd (hh.symm.trans (hstay _ e (by simpa using hg) hr)) (by simp)
      rw [Option.any_some, if_pos hg]
  · obtain ⟨hr, hg⟩ := Option.filter_eq_some_iff.1 hh
    rw [if_neg (by simpa using hg)]
    exact h.holds role e hr
  · split_ifs at hon with hg
    have hg : gone e = false := by simpa using hg
    refine (h.place e p hon).congr (fun hh => ⟨hstay _ e hg hh, hw, ?_⟩)
      (fun hh => ⟨hstay _ e hg hh, fun x hx' => ?_⟩) (by rw [hr])
    · unfold Session.slots
      rw [hs, hh, Option.any_some, hg]
      rfl
    · rw [hx]
      exact hx'

end

/-! ## The channel -/

/-- **A channel in its segment.** -/
structure Line.Backed (who : E → Pid) (live : ℕ → Bool) (r : Region) (on : E → Option Port)
    (l : Line E) (s : Session l.geometry E) : Prop where
  rings : Rings r s l.dtype
  queue : s.queue = l.queue
  owners : Owners who live r.hdr l.holder l.deed
  places : Places l.holder s on

namespace Line.Backed
variable {who : E → Pid} {live live' : ℕ → Bool} {r r' : Region} {on : E → Option Port} {l : Line E}
  {s : Session l.geometry E} (h : l.Backed who live r on s)
include h

/-- Somebody connects. -/
theorem bind [DecidableEq E] {e : E} {p : Port} (hl : live (who e).val) (hon : on e = none)
    {l' : Line E} (hb : l.bind who e p.args = .ok l')
    (hi : p.ep.map Endpoint.inner = some (p.args.kind.bound s)) (hw : p.writes = [])
    (hr : p.reads = []) : ∃ s' : Session l'.geometry E,
      l'.Backed who live (p.args.kind.sign (who e).val r) (Function.update on e (some p)) s' := by
  have hheld : ∀ role, l.holder role ≠ some e := by
    intro role hh
    obtain ⟨p', hp', -⟩ := h.places.holds role e hh
    rw [hon] at hp'
    cases hp'
  have hmarks : Session.queue { s with readers := Function.update s.readers e .attach } =
      { l.queue with marks := Function.update l.queue.marks e 0 } := by
    rw [← h.queue]
    exact congrArg (Queue.mk _ _) (Function.comp_update RawReader.lastEntrySeq s.readers e .attach)
  -- the others keep what they have
  have hother : ∀ (holder : Role → Option E) (s' : Session l.geometry E),
      (∀ role e', l.holder role = some e' → holder role = some e') → s'.writer = s.writer →
      s'.writeHandles = s.writeHandles → s'.readHandles = s.readHandles →
      s'.readers = Function.update s.readers e .attach →
      ∀ e' p', e' ≠ e → Place l.holder s e' p' → Place holder s' e' p' := by
    intro holder s' hholder hwr hwh hrh hrd e' p' he hp'
    refine hp'.congr (fun hh => ⟨hholder _ e' hh, hwr, ?_⟩)
      (fun hh => ⟨hholder _ e' hh, fun x hx => by rwa [hrh]⟩) ?_
    · unfold Session.slots
      rw [hwh]
    · rw [hrd, Function.update_of_ne he]
  have hin := h.rings.entered e
  unfold Line.bind at hb
  cases hrole : p.args.kind.role with
  | none =>
    simp only [hrole, Except.ok.injEq] at hb
    subst hb
    refine ⟨{ s with readers := Function.update s.readers e .attach }, ?_, hmarks, ?_, ?_⟩
    · rw [Kind.sign, hrole]
      exact hin
    · rw [Kind.sign, hrole]
      exact h.owners
    · refine h.places.update ?_ h.places.idle (fun role hh => absurd hh (hheld role))
        (fun _ _ _ hh => hh) (hother _ _ (fun _ _ hh => hh) rfl rfl rfl rfl)
      refine .bound hi (fun role hr => ?_) (fun hk => ?_) (Function.update_self ..) hw hr
      · rw [hrole] at hr
        cases hr
      · rw [hk] at hrole
        cases hrole
  | some role =>
    cases hh : l.holder role with
    | some e' =>
      simp only [hrole, hh] at hb
      cases hb
    | none =>
      simp only [hrole, hh, Except.ok.injEq] at hb
      subst hb
      have hnew : ∀ role' e', Function.update l.holder role (some e) role' = some e' →
          e' ≠ e → l.holder role' = some e' := by
        intro role' e' hu he
        by_cases hr : role' = role
        · subst hr
          rw [Function.update_self] at hu
          cases hu
          exact absurd rfl he
        · rwa [Function.update_of_ne hr] at hu
      have hkept : ∀ role' e', l.holder role' = some e' →
          Function.update l.holder role (some e) role' = some e' := by
        intro role' e' hh'
        rwa [Function.update_of_ne]
        rintro rfl
        rw [hh] at hh'
        cases hh'
      refine ⟨Session.named _ role.cell (who e).val, ?_, hmarks, ?_, ?_⟩
      · rw [Kind.sign, hrole]
        exact hin.named role.cell_isOwner ((who e).lt.trans (by norm_num))
      · rw [Kind.sign, hrole]
        exact h.owners.claim hl role
      · refine h.places.update ?_ (fun hu => h.places.idle ?_)
          (fun role' (hu : Function.update l.holder role (some e) role' = some e) => ?_)
          (fun role' e' he hu => hnew role' e' hu he) (hother _ _ hkept rfl rfl rfl rfl)
        · refine .bound hi (fun role' hr' => ?_) (fun hk => ?_) (Function.update_self ..) hw hr
          · rw [hrole] at hr'
            cases hr'
            exact Function.update_self ..
          · rw [hk] at hrole
            cases hrole
            exact h.places.idle hh
        · by_contra hne
          obtain ⟨e', he'⟩ := Option.ne_none_iff_exists'.1 hne
          exact absurd ((hkept _ e' he').symm.trans hu) (by simp)
        · by_cases hr' : role' = role
          · rw [hr', hrole]
          · rw [Function.update_of_ne hr'] at hu
            exact absurd hu (hheld role')

/-- The writer has been served. -/
theorem wrote [DecidableEq E] {e : E} {p p' : Port} {held : List ℕ}
    {prog : SegProg l.geometry (PortAnswer × RawWriter l.geometry × List ℕ)}
    {x : PortAnswer × Queue l.geometry E × List ℕ} {s' : Session l.geometry E}
    (hw : ServedWriter l s held r prog x s') (hh : l.holder .writer = some e) (hon : on e = some p)
    (hargs : p'.args = p.args) (hk : p.args.kind = .writer)
    (hi : p'.ep.map Endpoint.inner = some (.writer l.geometry s'.writer)) (hs : p'.writes = s'.slots)
    (hr : p'.reads = []) :
    Backed who live (prog.run (Region.ringExec l.geometry) r).2 (Function.update on e (some p'))
      { l with queue := x.2.1 } s' := by
  obtain ⟨hrings, hhdr⟩ := h.rings.goes hw.goes hw.stores
  have hrole : ∀ role, l.holder role = some e → p'.args.kind.role = some role := by
    intro role hh'
    obtain ⟨p₁, hp₁, hk₁⟩ := h.places.holds role e hh'
    rw [hon] at hp₁
    cases hp₁
    rw [hargs, hk₁]
  refine ⟨hrings, congrArg Prod.fst hw.queue.symm, h.owners.congr hhdr, ?_⟩
  refine h.places.update (.writer (hargs ▸ hk) hi hh hs hr)
    (fun hn => absurd (hn.symm.trans hh) (by simp)) hrole (fun _ _ _ hh' => hh')
    fun e' p₁ he hp₁ => hp₁.congr (fun hh' => ?_) (fun hh' => ⟨hh', fun y hy => ?_⟩) ?_
  · exact absurd (Option.some.inj (hh'.symm.trans hh)) he
  · rw [hw.handles]
    exact hy
  · rw [hw.readers]

/-- A reader has been served. -/
theorem read [DecidableEq E] {e : E} {c : PortCall} {p p' : Port} {zc : Bool}
    {xs xs' : List (ReadHandle l.geometry)}
    {prog : SegProg l.geometry (PortAnswer × RawReader l.geometry × List (ℕ × ℕ))}
    {x : PortAnswer × Queue l.geometry E × List ℕ} {s' : Session l.geometry E}
    (hw : ServedReader l s e c r xs prog x s' xs') (hz : zc → l.holder .zcReader = some e)
    (hnil : zc = false → xs = []) (hc : zc = false → c.inPlace = false) (hon : on e = some p)
    (hargs : p'.args = p.args)
    (hk : p.args.kind = .reader zc)
    (hi : p'.ep.map Endpoint.inner = some (.reader l.geometry (s'.readers e))) (hs : p'.writes = [])
    (hr : p'.reads = handlesOf xs') :
    Backed who live (prog.run (Region.ringExec l.geometry) r).2 (Function.update on e (some p'))
      { l with queue := x.2.1 } s' := by
  obtain ⟨hrings, hhdr⟩ := h.rings.goes hw.goes hw.stores
  have hrole : ∀ role, l.holder role = some e → p'.args.kind.role = some role := by
    intro role hh'
    obtain ⟨p₁, hp₁, hk₁⟩ := h.places.holds role e hh'
    rw [hon] at hp₁
    cases hp₁
    rw [hargs, hk₁]
  refine ⟨hrings, congrArg Prod.fst hw.queue.symm, h.owners.congr hhdr, ?_⟩
  refine h.places.update (.reader (hargs ▸ hk) hi hz hs hr ⟨hw.nodup, hw.held⟩ fun h0 => ?_)
    (fun hn => hw.handles.trans (h.places.idle hn)) hrole (fun _ _ _ hh' => hh')
    fun e' p₁ he hp₁ => hp₁.congr (fun hh' => ⟨hh', hw.writer, ?_⟩)
      (fun hh' => ⟨hh', fun y hy => hw.others y hy ?_⟩) (hw.readers e' he)
  · have hsub := hw.acquired (hc h0)
    rw [hnil h0] at hsub
    exact List.eq_nil_iff_forall_not_mem.2 fun y hy => absurd (hsub y hy) List.not_mem_nil
  · unfold Session.slots
    rw [hw.handles]
  · -- who is served is not the zero-copy reader, and holds nothing
    cases zc with
    | true => exact absurd (Option.some.inj (hh'.symm.trans (hz rfl))) he
    | false =>
      rw [hnil rfl]
      exact List.not_mem_nil

/-- A new owner of the deed. -/
theorem adopt (me : Pid) : Backed who live (r.setWord HeaderWord.segmentOwner.off me.val) on
    { l with deed := me } (s.named .segmentOwner me.val) where
  rings := h.rings.named rfl (me.lt.trans (by norm_num))
  queue := h.queue
  owners := h.owners.succeed me
  places := ⟨h.places.idle, h.places.holds, fun e p hon => (h.places.place e p hon).congr
    (fun hh => ⟨hh, rfl, rfl⟩) (fun hh => ⟨hh, fun _ hx => hx⟩) rfl⟩

/-- Ends go. -/
theorem left {gone : E → Bool} {s₁ : Session l.geometry E} (h₁ : Rings r' s₁ l.dtype)
    (hq : s₁.queue = s.queue) (hw : s₁.writer = s.writer) (hwh : s₁.writeHandles = s.writeHandles)
    (hrd : s₁.readers = s.readers) (hrh : s₁.readHandles = s.readHandles)
    (ho : Owners who live' r'.hdr (fun role => (l.holder role).filter fun e => !gone e) l.deed) :
    ∃ s' : Session (l.left gone).geometry E,
      (l.left gone).Backed who live' r' (fun e => if gone e then none else on e) s' := by
  have hqueue : s₁.queue = l.queue := hq.trans h.queue
  by_cases hg : (l.holder .writer).any gone
  · have hleft : s₁.vacated.queue = (l.left gone).queue :=
      (s₁.queue_vacated.trans (congrArg Queue.vacated hqueue)).trans (if_pos hg).symm
    exact ⟨s₁.vacated, h₁.vacated, hleft, ho, h.places.left hw hrd hrh (if_pos hg).symm⟩
  · have hleft : s₁.queue = (l.left gone).queue := hqueue.trans (if_neg hg).symm
    exact ⟨s₁, h₁, hleft, ho, h.places.left hw hrd hrh (hwh.trans (if_neg hg).symm)⟩

/-- A channel that an end is not connected to. -/
theorem untouched [DecidableEq E] {e : E} (hon : on e = none) :
    ∃ s' : Session (l.left fun e' => e' = e).geometry E, (l.left fun e' => e' = e).Backed who live r
      (fun e' => if decide (e' = e) then none else on e') s' := by
  refine h.left h.rings rfl rfl rfl rfl rfl (h.owners.leave rfl (fun _ => id) ?_ fun _ _ _ _ => ⟨rfl, rfl⟩)
  intro role e' hh hg
  obtain ⟨p, hp, -⟩ := h.places.holds role e' hh
  rw [of_decide_eq_true hg, hon] at hp
  cases hp

/-- A connected end hands its role back. -/
theorem handed [DecidableEq E] {e : E} {p : Port} (hon : on e = some p) :
    ∃ s' : Session (l.left fun e' => e' = e).geometry E, (l.left fun e' => e' = e).Backed who live
      (p.args.kind.sign 0 r) (fun e' => if decide (e' = e) then none else on e') s' := by
  -- its role is the only one it has
  have honly : ∀ role, l.holder role = some e → p.args.kind.role = some role := by
    intro role hh
    obtain ⟨p', hp', hr⟩ := h.places.holds role e hh
    rw [hon] at hp'
    cases hp'
    exact hr
  unfold Kind.sign
  cases hrole : p.args.kind.role with
  | none =>
    refine h.left h.rings rfl rfl rfl rfl rfl
      (h.owners.leave rfl (fun _ => id) ?_ fun _ _ _ _ => ⟨rfl, rfl⟩)
    intro role e' hh hg
    rw [of_decide_eq_true hg] at hh
    rw [honly role hh] at hrole
    cases hrole
  | some role =>
    have hholds := (h.places.place e p hon).holds hrole
    have hzero : (r.setWord role.cell.off 0).hdr role.cell = 0 := Region.hdr_setWord (by norm_num)
    have hne : ∀ role', role' ≠ role →
        (r.setWord role.cell.off 0).hdr role'.cell = r.hdr role'.cell :=
      fun role' hr => Region.hdr_setWord_ne (fun he => hr (Role.cell_inj he)) _
    refine h.left (h.rings.named role.cell_isOwner (by norm_num)) rfl rfl rfl rfl rfl
      (h.owners.leave (Region.hdr_setWord_ne role.cell_ne_deed _) (fun role' hh => ?_) ?_ ?_)
    · by_cases hr : role' = role
      · rw [hr, hzero]
        exact not_held_zero live
      · rwa [hne role' hr]
    · intro role' e' hh hg
      rw [of_decide_eq_true hg] at hh
      have hr := honly role' hh
      rw [hrole] at hr
      cases hr
      rw [hzero]
      exact not_held_zero live
    · intro role' e' hh hg
      refine ⟨hne role' ?_, rfl⟩
      rintro rfl
      rw [hholds] at hh
      cases hh
      simp at hg

/-- A process is gone. -/
theorem crashed (pid : ℕ) : ∃ s' : Session (l.left fun e => (who e).val = pid).geometry E,
    (l.left fun e => (who e).val = pid).Backed who (Function.update live pid false) r
      (fun e => if decide ((who e).val = pid) then none else on e) s' := by
  refine h.left h.rings rfl rfl rfl rfl rfl (h.owners.leave rfl (fun role hh hh' => hh ?_) ?_ ?_)
  · refine ⟨hh'.1, ?_⟩
    have hl := hh'.2
    rw [Function.update_apply] at hl
    split_ifs at hl
    exact hl
  · intro role e hh hg hheld
    rw [(h.owners.taken role e hh).1, held_pid, of_decide_eq_true hg, Function.update_self] at hheld
    cases hheld
  · intro role e hh hg
    exact ⟨rfl, Function.update_of_ne (of_decide_eq_false hg) ..⟩

end Line.Backed

/-- A channel that nobody is connected to yet. -/
theorem Line.Backed.init (who : E → Pid) (live : ℕ → Bool) {r : Region} (hf : r.Fits G) (dtype : Dtype)
    (me : Pid) : Line.Backed who live (r.initialised G.payloadBytes G.entryCount dtype me.val)
      (fun _ => none) ⟨G, dtype, .empty G E, fun _ => none, me⟩ (.init G E dtype me.val) where
  rings := .init hf dtype me
  queue := Session.queue_init dtype me.val
  owners := by
    have hhdr := (Rings.init (E := E) hf dtype me).hdr
    refine ⟨hhdr _, fun role _ => ?_, fun _ _ hh => absurd hh (by simp)⟩
    have h0 : (Segment.init G dtype me.val).hdr role.cell = 0 := by cases role <;> rfl
    rw [(hhdr role.cell).trans h0]
    exact not_held_zero live
  places := ⟨fun _ => rfl, fun _ _ hh => absurd hh (by simp), fun _ _ hh => absurd hh (by simp)⟩

end ZeroChannel
