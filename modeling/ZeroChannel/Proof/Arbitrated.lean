/-
  Creation is arbitrated once.

  As long as nobody who opened the segment finds it without a header (`Clear`), only the
  endpoint that created it lays down a header, and it does so before any constructor
  accepts the segment (`creation_arbitrated`).  An opener that comes too early takes the
  segment for an abandoned one, and lays down a second header (`creation_raced`).
-/
import ZeroChannel.Proof.OpenAmong
import ZeroChannel.Proof.Exclusive
import ZeroChannel.Proof.Locate

namespace ZeroChannel

open Concur

variable {E : Type} [DecidableEq E] {who : E → Pid} {g : ℕ}

/-! ## The protocol as a use of the ring -/

section
variable {G : Geometry}

theorem publish_onRing (w : RawWriter G) (i : Slot G) : (w.publish i).All SegOp.OnRing :=
  ⟨trivial, fun _ => ⟨Or.inl rfl, fun _ => ⟨Or.inr rfl, fun _ => trivial⟩⟩⟩

theorem claimFrom_onRing (w : RawWriter G) : ∀ (k n : ℕ), (w.claimFrom n k).All SegOp.OnRing := by
  intro k
  induction k with
  | zero =>
    intro n
    trivial
  | succ k ih =>
    intro n
    refine ⟨trivial, fun raw => ?_⟩
    simp only [Prog.bind_pure]
    split_ifs
    · exact ih (n + 1)
    · exact ⟨trivial, fun _ => trivial⟩

/-- The calls of a writer. -/
theorem writer_onRing (w : RawWriter G) (data : List UInt8) (handle : WriteHandle G) :
    (w.write data).All SegOp.OnRing ∧ w.tryAcquire.All SegOp.OnRing ∧
      (w.commit handle).All SegOp.OnRing := by
  have hclaim : w.claimSlot.All SegOp.OnRing := claimFrom_onRing w _ 0
  refine ⟨?_, hclaim.bind fun r => ?_, publish_onRing w _⟩
  · unfold RawWriter.write
    split_ifs
    · trivial
    · refine hclaim.bind fun r => ?_
      rcases r with er | i
      · trivial
      · have hstore : ∀ j, (storeByte i j (blockOf data j)).All SegOp.OnRing := fun j =>
          ⟨trivial, fun _ => trivial⟩
        have hcopy : (RawWriter.copyIn i (blockOf data)).All SegOp.OnRing :=
          Prog.All.foldlM (fun _ j => hstore j) _ _
        exact hcopy.bind fun _ => (publish_onRing w i).bind fun _ => trivial
  · rcases r <;> trivial

theorem SegOp.IsLoad.onRing {o : SegOp G} (h : o.IsLoad) : o.OnRing := by
  cases o <;> trivial

theorem acquireAttempts_onRing (r : RawReader G) (watermark : ℕ) :
    ∀ k, (r.acquireAttempts watermark k).All SegOp.OnRing := by
  intro k
  induction k with
  | zero => trivial
  | succ k ih =>
    refine ((locate_loads r watermark).mono fun _ => SegOp.IsLoad.onRing).bind fun found => ?_
    rcases found with _ | ⟨i, seq⟩
    · trivial
    · have hcas : (casSeq i (asI64 seq) (-asI64 seq)).All SegOp.OnRing := ⟨trivial, fun _ => trivial⟩
      refine hcas.bind fun swapped => ?_
      cases swapped
      · exact ih
      · trivial

/-- The calls of a reader. -/
theorem reader_onRing (r : RawReader G) (dst : List UInt8) (fromEntrySeq : Option ℕ)
    (handle : ReadHandle G) : (r.readInto dst fromEntrySeq).All SegOp.OnRing ∧
      (r.tryAcquire fromEntrySeq).All SegOp.OnRing ∧ (RawReader.release handle).All SegOp.OnRing := by
  have hmark := (watermark_loads r fromEntrySeq).mono fun _ => SegOp.IsLoad.onRing
  refine ⟨(readInto_loads r dst fromEntrySeq).mono fun _ => SegOp.IsLoad.onRing,
    hmark.bind fun m => ?_, trivial, fun _ => trivial⟩
  rcases m with _ | watermark
  · trivial
  · exact acquireAttempts_onRing r watermark _

end

/-- One call of a writer or a reader. -/
def RingUse.call {α : Geometry → Type} (p : ∀ G, SegProg G (α G))
    (h : ∀ G, (p G).All SegOp.OnRing) : RingUse :=
  ⟨fun G => do
    let _ ← p G
    pure (), fun G => (h G).bind fun _ => trivial⟩

/-! ## The calls -/

/-- A geometry is supplied, and its slots fit the address space. -/
def OpenArgs.sized (args : OpenArgs) : Bool := match args.payloadBytes, args.entryCount with
  | some pb, some n => decide (exactBytes pb n < 2 ^ 64)
  | _, _ => false

/-- Constructors that supply such a geometry, and all that an endpoint does with the ring it is
    bound to. -/
def EndCall.sized : EndCall → Bool
  | construct args _ => args.sized
  | unlink _ => false
  | _ => true

theorem sized_iff {args : OpenArgs} : args.sized = true ↔ ∃ pb n, args.payloadBytes = some pb ∧
    args.entryCount = some n ∧ exactBytes pb n < 2 ^ 64 := by
  unfold OpenArgs.sized
  rcases args.payloadBytes with _ | pb <;> rcases args.entryCount with _ | n <;> simp

theorem sized_tame : Tame EndCall.sized :=
  ⟨fun _ => rfl, fun _ _ _ _ h => sized_iff.1 h⟩

section
variable {may : EndCall → Bool}

/-- Endpoint `e` is in the middle of `init_header` on segment `g`. -/
def Inits (g : ℕ) (s : (system who may).Conf) (e : E) : Prop :=
  ∃ o, (s.ctl (.endpoint e)).next? = some o ∧ o.Lays g

/-- A constructor of endpoint `e` has returned `Ok`. -/
def Constructed (s : (system who may).Conf) (e : E) (ep : Endpoint) : Prop :=
  ∃ c, (c, .constructed (some (.ok (some ep)))) ∈ (s.hist (.endpoint e) : List (EndCall × EndOut))

/-! ## Runs -/

variable (ht : Tame may) {s s' : (system who may).Conf}

/-- What was there stays there. -/
theorem run_keeps (hL : (deedOutline g ht).Holds s)
    (h : Reach Pool.step (fun _ a s' => Clear g s' a) s s') : Keeps g s.mem.world s'.mem.world := by
  refine (deedOutline g ht).changes (R := fun m m' => Keeps g m.world m'.world)
    (fun m => .refl _) (fun _ _ _ h h' => h.trans h') (fun t o m m' hg => ?_) hL h
  cases t with
  | endpoint e => exact hg.2.1
  | kernel => exact hg.2.1

/-- Whoever lays down the header has created the segment, and the header is not yet there. -/
theorem inits_deed {e : E} (hL : (deedOutline g ht).Holds s) (hi : Inits g s e)
    (hs : Pool.step s (.move (.endpoint e)) = some s') (hc : Clear g s' (.move (.endpoint e))) :
    s.mem.world.deed g = some e ∧ ¬ s.mem.world.Ready g := by
  obtain ⟨o, ho, hlays⟩ := hi
  have hg := (deedOutline g ht).guar hL hs hc ho
  exact hg.2.2.2 hlays

end

/-! ## What has been constructed -/

/-- The segment carries the header that an endpoint was bound to, and supplied. -/
structure Kept (g : ℕ) (ep : Endpoint) (w : World E) : Prop where
  shows : w.Shows g ep.header
  payload : ep.args.payloadBytes = some ep.header.payloadBytes
  count : ep.args.entryCount = some ep.header.entryCount

omit [DecidableEq E] in
theorem kept_standing {w : World E} {e : E} {ep : Endpoint} (hep : ep.shmem.seg = g)
    (h : Standing who g EndCall.sized e w (.bound ep)) : Kept g ep w := by
  obtain ⟨⟨b, hacc, hsuit⟩, -, fuel, hmay⟩ := h
  obtain ⟨pb, n, hpb, hn, -⟩ := sized_iff.1 hmay
  refine ⟨hacc.shows hep, ?_, ?_⟩
  · rw [hpb, hsuit.payload hep pb hpb]
  · rw [hn, hsuit.count hep n hn]

/-- What the answers of an endpoint's constructors say of the segment. -/
def Remembers (g : ℕ) : ∀ t : Agent E, List ((system who EndCall.sized).Call t ×
    (system who EndCall.sized).Out t) → Scene E → Prop
  | .endpoint _, h, s => ∀ c ep,
    (c, .constructed (some (.ok (some ep)))) ∈ (h : List (EndCall × EndOut)) →
      ep.shmem.seg = g → Kept g ep s.world
  | .kernel, _, _ => True

theorem constructed_kept {w : World E} (hw : w.Before g) {s : (system who EndCall.sized).Conf}
    (hs : Reach Pool.step (fun _ a s' => Clear g s' a) (systemInit who EndCall.sized w) s)
    {e : E} {ep : Endpoint} (h : Constructed s e ep) (hep : ep.shmem.seg = g) :
    Kept g ep s.mem.world := by
  have hall := (deedOutline g sized_tame).hist_reach (F := fun t h s => Remembers g t h s)
    (deed_init sized_tame hw) (fun t => ?_) (fun t h c r m hpost hF => ?_)
    (fun t u h o m m' hguar hF => ?_) hs
  · obtain ⟨c, hmem⟩ := h
    exact hall (.endpoint e) c ep hmem hep
  · cases t with
    | endpoint e => exact fun c ep h => nomatch h
    | kernel => trivial
  · cases t with
    | endpoint e =>
      intro c' ep hmem hep
      obtain ⟨hstand, hbound⟩ : Left who g EndCall.sized e r m.world := hpost
      rcases List.mem_append.1 hmem with hmem | hmem
      · exact hF c' ep hmem hep
      · have hr := (Prod.mk.inj (List.mem_singleton.1 hmem)).2.symm
        rw [hbound ep hr] at hstand
        exact kept_standing hep hstand
    | kernel => trivial
  · have hkeep : Keeps g m.world m'.world := by
      cases u with
      | endpoint e => exact hguar.2.1
      | kernel => exact hguar.2.1
    cases t with
    | endpoint e =>
      intro c' ep hmem hep
      obtain ⟨hshow, hpb, hn⟩ := hF c' ep hmem hep
      exact ⟨hshow.later hkeep, hpb, hn⟩
    | kernel => trivial

/-- **Creation is arbitrated once.**  While nobody who opened segment `g` finds it without a
    header, `init_header` is executed on it by one endpoint, and not once a constructor has
    accepted the segment, whose header is the one that the constructor asked for.  The words of
    a header that is there stay, so that `read_header`, which goes on only when it has seen the
    magic, returns the header as it was then.  One endpoint has the owner flag. -/
theorem creation_arbitrated {w : World E} (hw : w.Before g) {s : (system who EndCall.sized).Conf}
    (hs : Reach Pool.step (fun _ a s' => Clear g s' a) (systemInit who EndCall.sized w) s) :
    (∀ e s₁ s₂ e' s₃, Inits g s e → Pool.step s (.move (.endpoint e)) = some s₁ →
      Clear g s₁ (.move (.endpoint e)) → Reach Pool.step (fun _ a s' => Clear g s' a) s₁ s₂ →
      Inits g s₂ e' → Pool.step s₂ (.move (.endpoint e')) = some s₃ →
      Clear g s₃ (.move (.endpoint e')) → e' = e) ∧
    (∀ e ep, Constructed s e ep → ep.shmem.seg = g → Kept g ep s.mem.world ∧
      ∀ e' s', Pool.step s (.move (.endpoint e')) = some s' → Clear g s' (.move (.endpoint e')) →
        ¬ Inits g s e') ∧
    (s.mem.world.Ready g → ∀ s', Reach Pool.step (fun _ a s' => Clear g s' a) s s' →
      ∀ h : HeaderWord, h.Fixed →
        (s'.mem.world.regions g).hdr h = (s.mem.world.regions g).hdr h) ∧
    ∀ e e' m m', s.mem.world.Flagged e m → s.mem.world.Flagged e' m' → m.seg = g → m'.seg = g →
      e = e' := by
  have hL := (deedOutline g sized_tame).reach (deed_init sized_tame hw) hs
  have hsound : Sound who g s.mem.world := hL.1
  refine ⟨fun e s₁ s₂ e' s₃ hi hstep hc hrun hi' hstep' hc' => ?_, fun e ep h hep => ?_,
    fun hr s' hrun => ?_, fun e e' m m' hf hf' hm hm' => ?_⟩
  · have hL₁ := (deedOutline g sized_tame).step hL hstep hc
    obtain ⟨hd, -⟩ := inits_deed sized_tame hL hi hstep hc
    obtain ⟨hd', hn⟩ := inits_deed sized_tame ((deedOutline g sized_tame).reach hL₁ hrun) hi' hstep' hc'
    have hrun' : Reach Pool.step (fun _ a s' => Clear g s' a) s s₂ := (Reach.refl.tail hstep hc).trans hrun
    -- the deed of a segment that is being created stays where it is
    have hsame := (run_keeps sized_tame hL hrun').early (by rw [hd]; exact nofun) hn
    rw [hd', hd] at hsame
    exact Option.some.inj hsame
  · have hk := constructed_kept hw hs h hep
    exact ⟨hk, fun e' s' hstep hc hi => (inits_deed sized_tame hL hi hstep hc).2 hk.shows.ready⟩
  · exact (run_keeps sized_tame hL hrun).fixed hr
  · have hd := hsound.flag e m hf hm
    rw [hsound.flag e' m' hf' hm'] at hd
    exact (Option.some.inj hd).symm

/-! ## Two runs -/

/-- The endpoint that a call has answered with. -/
def EndOut.endpoint? : EndOut → Option Endpoint
  | constructed (some (.ok (some ep))) => some ep
  | _ => none

theorem EndOut.endpoint?_some {o : EndOut} {ep : Endpoint} (h : o.endpoint? = some ep) :
    o = constructed (some (.ok (some ep))) := by
  unfold endpoint? at h
  split at h
  · cases h
    rfl
  · cases h

section
variable {may : EndCall → Bool} {s s' : (system who may).Conf} {e : E}

/-- The endpoints that an endpoint's constructors have returned, oldest first. -/
def endpoints (s : (system who may).Conf) (e : E) : List Endpoint :=
  (s.hist (.endpoint e) : List (EndCall × EndOut)).filterMap fun x => x.2.endpoint?

theorem constructed_of_mem {ep : Endpoint} (h : ep ∈ endpoints s e) : Constructed s e ep := by
  obtain ⟨⟨c, o⟩, hmem, ho⟩ := List.mem_filterMap.1 h
  obtain rfl := EndOut.endpoint?_some ho
  exact ⟨c, hmem⟩

theorem constructed_later {P : (system who may).Conf → (system who may).Act →
    (system who may).Conf → Prop} {ep : Endpoint} (h : Constructed s e ep)
    (hr : Reach Pool.step P s s') : Constructed s' e ep := by
  refine hr.inv (I := fun s => Constructed s e ep) h ?_
  rintro s a s' ⟨c, hmem⟩ hstep -
  exact ⟨c, (Pool.hist_grows hstep (.endpoint e)).subset hmem⟩

end

instance (g : ℕ) (s' : (system who EndCall.sized).Conf) (a : (system who EndCall.sized).Act) :
    Decidable (Clear g s' a) := inferInstanceAs (Decidable (Alive s' a ∧ s'.mem.blank g = false))

/-- A writer publishes an entry by bytes `1`. -/
def RingUse.writeOnes : RingUse :=
  .call (fun G => (⟨G.slot 0, 0⟩ : RawWriter G).write (List.replicate 8 1))
    fun G => (writer_onRing _ _ ⟨G.slot 0⟩).1

/-- A reader reads into a buffer. -/
def RingUse.readEight : RingUse :=
  .call (fun G => (.attach : RawReader G).readInto (List.replicate 8 0) none)
    fun G => (reader_onRing _ _ _ ⟨G.slot 0, 0⟩).1

/-- A reader opens the segment once its header is there, the writer writes and the reader
    reads: the header is that of both. -/
theorem creation_arbitrated_reader : ∃ s : (system duo EndCall.sized).Conf, ∃ ep ep' : Endpoint,
    Constructed s false ep ∧ Constructed s true ep' ∧ (s.hist (.endpoint true)).length = 2 ∧
      (s.mem.world.regions 0).hdr .lastEntrySeq = 1 ∧ Kept 0 ep s.mem.world ∧
      Kept 0 ep' s.mem.world := by
  have hrun : (steps (tested Pool.step fun _ a s' => decide (Clear 0 s' a)) (fun _ _ => true)
      (systemInit duo EndCall.sized (.boot fun _ => true))
      (List.flatten [Pool.burst (.endpoint false) (.construct (.tiny 1 (by decide)) 1) 104,
        Pool.burst (.endpoint true)
          (.construct { OpenArgs.tiny 1 (by decide) with kind := .reader false } 1) 12,
        Pool.burst (.endpoint false) (.use .writeOnes) 14,
        Pool.burst (.endpoint true) (.use .readEight) 12])).map (fun s =>
          ((endpoints s false).map (·.shmem), (endpoints s true).map (·.shmem),
            (s.hist (.endpoint true)).length, (s.mem.world.regions 0).hdr .lastEntrySeq)) =
      some ([⟨"ch", 0⟩], [⟨"ch", 0⟩], 2, 1) := by decide +kernel
  obtain ⟨s, hs, he⟩ := reach_eval hrun
  obtain ⟨hfirst, he⟩ := Prod.mk.inj he
  obtain ⟨hsecond, he⟩ := Prod.mk.inj he
  obtain ⟨hcalls, hseq⟩ := Prod.mk.inj he
  obtain ⟨ep, hep, hseg⟩ := List.map_eq_singleton_iff.1 hfirst
  obtain ⟨ep', hep', hseg'⟩ := List.map_eq_singleton_iff.1 hsecond
  have hcon : Constructed s false ep :=
    constructed_of_mem (by rw [hep]; exact List.mem_singleton_self _)
  have hcon' : Constructed s true ep' :=
    constructed_of_mem (by rw [hep']; exact List.mem_singleton_self _)
  have hr : Reach Pool.step (fun _ a s' => Clear 0 s' a) _ s :=
    hs.of_tested.mono fun _ _ _ h => of_decide_eq_true h
  have hmain := (creation_arbitrated (before_boot _) hr).2.1
  refine ⟨s, ep, ep', hcon, hcon', hcalls, hseq, (hmain false ep hcon ?_).1, (hmain true ep' hcon' ?_).1⟩
  · rw [hseg]
  · rw [hseg']

/-- What is seen of a race for segment `0`. -/
structure RaceView where
  /-- the segments of the endpoints constructed -/
  first : List Shmem
  second : List Shmem
  /-- the first endpoint is in the middle of `init_header` -/
  inits : Option Bool
  writer : ℕ
  maps : List (Option Mapped)
  deriving DecidableEq

def raceView (s : (system duo EndCall.sized).Conf) : RaceView :=
  ⟨(endpoints s false).map (·.shmem), (endpoints s true).map (·.shmem),
    (s.ctl (.endpoint false)).next?.map fun o => decide (o.Lays 0),
    (s.mem.world.regions 0).hdr .writerOwner, [s.mem.world.maps false, s.mem.world.maps true]⟩

/-- The creator has zeroed nothing yet when another process opens the segment, takes it for
    abandoned, initialises it and binds a writer; then the creator goes on. -/
theorem creation_raced : ∃ s s' : (system duo EndCall.sized).Conf, ∃ ep ep' : Endpoint,
    Reach Pool.step (fun _ a _ => OfEndpoint a) (systemInit duo EndCall.sized (.boot fun _ => true)) s ∧
    Constructed s true ep ∧ ep.shmem.seg = 0 ∧ (s.mem.world.regions 0).hdr .writerOwner = 2 ∧
    Inits 0 s false ∧ Reach Pool.step (fun _ a _ => OfEndpoint a) s s' ∧
    Constructed s' true ep ∧ Constructed s' false ep' ∧ ep'.shmem.seg = 0 ∧
    (s'.mem.world.regions 0).hdr .writerOwner = 1 ∧
    s'.mem.world.Flagged false ⟨"ch", 0⟩ ∧ s'.mem.world.Flagged true ⟨"ch", 0⟩ := by
  have hrun : ((steps Pool.step (fun _ a => OfEndpoint a)
      (systemInit duo EndCall.sized (.boot fun _ => true))
      (List.flatten [Pool.burst (.endpoint false) (.construct (.tiny 1 (by decide)) 1) 1,
        Pool.burst (.endpoint true) (.construct (.tiny 1 (by decide)) 1) 108])).bind fun s =>
      (steps Pool.step (fun _ a => OfEndpoint a) s (List.replicate 103 (.move (.endpoint false)))).map
        fun s' => (raceView s, raceView s')) =
      some (⟨[], [⟨"ch", 0⟩], some true, 2, [some ⟨⟨"ch", 0⟩, true⟩, some ⟨⟨"ch", 0⟩, true⟩]⟩,
        ⟨[⟨"ch", 0⟩], [⟨"ch", 0⟩], none, 1, [some ⟨⟨"ch", 0⟩, true⟩, some ⟨⟨"ch", 0⟩, true⟩]⟩) := by
    decide +kernel
  obtain ⟨s, hs, hrest⟩ := Option.bind_eq_some_iff.1 hrun
  obtain ⟨s', hs', hview⟩ := Option.map_eq_some_iff.1 hrest
  obtain ⟨hv, hv'⟩ := Prod.mk.inj hview
  obtain ⟨-, hsecond, hinits, hwriter, -⟩ := RaceView.mk.inj hv
  obtain ⟨hfirst', -, -, hwriter', hmaps⟩ := RaceView.mk.inj hv'
  obtain ⟨ep, hep, hseg⟩ := List.map_eq_singleton_iff.1 hsecond
  obtain ⟨ep', hep', hseg'⟩ := List.map_eq_singleton_iff.1 hfirst'
  obtain ⟨o, ho, hlays⟩ := Option.map_eq_some_iff.1 hinits
  have hcon : Constructed s true ep := constructed_of_mem (by rw [hep]; exact List.mem_singleton_self _)
  have hcon' : Constructed s' false ep' :=
    constructed_of_mem (by rw [hep']; exact List.mem_singleton_self _)
  have hreach' := reach_of_steps .refl hs'
  refine ⟨s, s', ep, ep', reach_of_steps .refl hs, hcon, by rw [hseg], hwriter,
    ⟨o, ho, of_decide_eq_true hlays⟩, hreach', constructed_later hcon hreach', hcon', by rw [hseg'],
    hwriter', ?_, ?_⟩
  · exact (List.cons.inj hmaps).1
  · exact (List.cons.inj (List.cons.inj hmaps).2).1

end ZeroChannel
