/-
  Opening a channel among others.

  Every call keeps the contract of its endpoint: what it creates it lays down before
  anybody accepts it, what it finds it leaves alone, and it takes the owner flag with the
  deed.
-/
import ZeroChannel.Proof.Deed

namespace ZeroChannel

open Concur

variable {E : Type} [DecidableEq E] {who : E → Pid} {g : ℕ} {e : E}

/-! ## Creating a segment -/

theorem zeroed_hdr (size : ℕ) (h : HeaderWord) : (Region.zeroed size).hdr h = 0 := by
  have hz : (Region.zeroed 0).hdr h = 0 := by cases h <;> decide
  exact (Region.word_congr fun _ _ => rfl).trans hz

/-- A new segment. -/
theorem created_sound {w : World E} (hs : Sound who g w) (hl : w.live (who e).val = true)
    (name : String) (size : ℕ) :
    Sound who g (w.created e name size) ∧ Keeps g w (w.created e name size) ∧
      ∀ e', e' ≠ e → Passes who g e' w (w.created e name size) := by
  set w' := w.created e name size with hw'
  have hmaps : ∀ e', e' ≠ e → w'.maps e' = w.maps e' := fun e' he => Function.update_of_ne he ..
  have hself : w'.maps e = some ⟨⟨name, w.segs⟩, true⟩ := Function.update_self ..
  have hnamed : ∀ n h, w'.names n = some h → h < w'.segs := by
    intro n h hn
    have hn' : Function.update w.names name (some w.segs) n = some h := hn
    by_cases hne : n = name
    · rw [hne, Function.update_self] at hn'
      cases hn'
      exact Nat.lt_succ_self _
    · rw [Function.update_of_ne hne] at hn'
      exact Nat.lt_succ_of_lt (hs.named n h hn')
  have hmapped : ∀ e' md, w'.maps e' = some md → md.shmem.seg < w'.segs ∧
      w'.live (who e').val = true := by
    intro e' md hm
    by_cases he : e' = e
    · rw [he, hself] at hm
      cases hm
      rw [he]
      exact ⟨Nat.lt_succ_self _, hl⟩
    · rw [hmaps e' he] at hm
      exact ⟨Nat.lt_succ_of_lt (hs.mapped e' md hm).1, (hs.mapped e' md hm).2⟩
  by_cases hg : g = w.segs
  · -- the segment we speak of
    obtain ⟨hnone, hnot⟩ := hs.unborn hg.ge
    have hdeed : w'.deed g = some e := by
      rw [hg]
      exact Function.update_self ..
    have hregion : w'.regions g = .zeroed size := by
      rw [hg]
      exact Function.update_self ..
    have hkeep : Keeps g w w' := ⟨fun h => absurd h hnot, fun h => absurd hnone h⟩
    refine ⟨⟨hnamed, hmapped, fun hu => ?_, fun hr => ?_, fun e' m hf hm => ?_⟩, hkeep,
      fun e' he => ?_⟩
    · have hu' : w.segs + 1 ≤ g := hu
      omega
    · rw [World.Ready, hregion, zeroed_hdr] at hr
      exact absurd hr (by decide)
    · by_cases he : e' = e
      · rw [he, hdeed]
      · rw [hmaps e' he] at hf
        have := (hs.mapped e' _ hf).1
        dsimp only at this
        omega
    · have hne : w'.deed g ≠ some e' := by
        rw [hdeed]
        exact fun h => he (Option.some.inj h).symm
      have hne' : w.deed g ≠ some e' := by
        intro h
        rw [hnone] at h
        cases h
      exact ⟨hkeep, fun _ => id, fun _ => hmaps e' he, fun _ => iff_of_false hne hne',
        fun _ h => absurd h hne', fun _ h => absurd h hne'⟩
  · have hdeed : w'.deed g = w.deed g := Function.update_of_ne hg ..
    have hregion : w'.regions g = w.regions g := Function.update_of_ne hg ..
    have hready : w'.Ready g ↔ w.Ready g := by rw [World.Ready, World.Ready, hregion]
    have hkeep : Keeps g w w' := .of_eq hdeed hregion
    refine ⟨⟨hnamed, hmapped, fun hu => ?_, ?_, fun e' m hf hm => ?_⟩, hkeep, fun e' he => ?_⟩
    · rw [hdeed, hready]
      exact hs.unborn (Nat.le_of_succ_le hu)
    · rw [hdeed, hready, hregion]
      exact hs.owner
    · rw [hdeed]
      by_cases he : e' = e
      · rw [he, hself] at hf
        cases hf
        exact absurd hm.symm hg
      · exact hs.flag e' m (hmaps e' he ▸ hf) hm
    · exact ⟨hkeep, fun _ => id, fun _ => hmaps e' he, fun _ => by rw [hdeed],
        fun _ _ => by rw [hregion], fun _ _ _ => hregion⟩

section
variable {s : Scene E} {m : Shmem} {b : Bool} {header : Header}

/-- What `create` leaves to the endpoint. -/
def Started (who : E → Pid) (g : ℕ) (e : E) (w : World E) : Except CreateError Shmem → Prop
  | .error _ => Unmapped who g e w
  | .ok m => (m.seg = g → Creating who g e m (Laid []) w) ∧ (m.seg ≠ g → Opened who g e m true w)

theorem osCreate_valid {name : String} {size : ℕ} (h₀ : Unmapped who g e s.world) :
    Valid (Scene.exec who e) (deedCon who g (.endpoint e)) (fun r s => Started who g e s.world r)
      (osCreate name size) s := by
  refine valid_deed unmapped_stable h₀ fun s' hs hA hl _ => ?_
  simp only [Scene.exec, World.exec] at hl ⊢
  split_ifs at hl ⊢
  · exact ⟨hs, .refl _, fun e' _ => .refl _, fun h => h.elim, hA⟩
  rcases hname : s'.world.names name with _ | k <;> rw [hname] at hl
  · rcases href : s'.world.refuses name size with _ | msg <;> rw [href] at hl
    · obtain ⟨hs', hk, hp⟩ := created_sound hs hl name size
      refine ⟨hs', hk, hp, fun h => h.elim, fun hm => ⟨hs', fun _ => ?_,
        fun _ => Function.update_self .., fun _ => ?_⟩,
        fun hm => ⟨⟨hs', fun hl' hd => ?_⟩, fun _ => Function.update_self ..⟩⟩
      · rw [← hm]
        exact Function.update_self ..
      · have hz : (s'.world.created e name size).regions g = .zeroed size := by
          rw [← hm]
          exact Function.update_self ..
        rw [hz]
        refine ⟨zeroed_hdr size _, fun p hp => ?_⟩
        cases hp
      · have hd' : s'.world.deed g = some e := by
          rw [← hd]
          exact (Function.update_of_ne (Ne.symm hm) ..).symm
        have hreg : (s'.world.created e name size).regions g = s'.world.regions g :=
          Function.update_of_ne (Ne.symm hm) ..
        rw [World.Ready, hreg]
        exact hA.ready hl hd'
    · exact ⟨hs, .refl _, fun e' _ => .refl _, fun h => h.elim, hA⟩
  · exact ⟨hs, .refl _, fun e' _ => .refl _, fun h => h.elim, hA⟩

/-- **`create_segment`.** -/
theorem createSegment_valid {name : String} {payloadBytes entryCount : ℕ} {dtype : Dtype}
    (hpb : payloadBytes < 2 ^ 64) (hn : entryCount < 2 ^ 64) (h₀ : Unmapped who g e s.world) :
    Valid (Scene.exec who e) (deedCon who g (.endpoint e)) (fun r s => match r with
      | .ok (some m) => Opened who g e m true s.world ∧
          Word g m .payloadBytes payloadBytes s.world ∧ Word g m .entryCount entryCount s.world
      | _ => Unmapped who g e s.world)
      (createSegment (who e) name payloadBytes entryCount dtype) s := by
  unfold createSegment
  refine ((osCreate_valid h₀).mono fun r s₁ h₁ => ?_).bind
  rcases r with er | m
  · cases er <;> exact h₁
  · refine Valid.bind ?_
    by_cases hm : m.seg = g
    · exact (initSegment_valid hm hpb hn dtype (h₁.1 hm)).mono fun _ s₂ h₂ => h₂
    · refine (valid_quiet opened_stable (fun _ _ h => absurd h hm)
        (initSegment_quiet hm payloadBytes entryCount dtype (who e)) (h₁.2 hm)).mono fun _ s₂ h₂ => ?_
      exact ⟨h₂, fun h => absurd h hm, fun h => absurd h hm⟩

/-! ## Accepting a segment -/

theorem reject_valid {α : Type} {er : ZeroChannelError}
    {Q : Option (Except ZeroChannelError α) → Scene E → Prop} (h₀ : Opened who g e m b s.world)
    (hQ : ∀ s, Unmapped who g e s.world → Q (some (.error er)) s) :
    Valid (Scene.exec who e) (deedCon who g (.endpoint e)) Q (reject er) s :=
  ((dropShmem_valid h₀).mono fun _ s' hs => hQ s' hs).bind

/-- What the checks of a header find, some of which a header `h` passes only if `P h`. -/
def Checked (who : E → Pid) (g : ℕ) (e : E) (m : Shmem) (P : Header → Prop) (w : World E) :
    Except ZeroChannelError (Option Header) → Prop
  | .error _ => Opened who g e m false w
  | .ok none => Opened who g e m false w
  | .ok (some header) => Accepted who g e m false header w ∧ P header

omit [DecidableEq E] in
theorem stable_true : Stable who g e fun _ => True := fun _ _ _ _ _ => trivial

theorem acceptHeader_valid {payloadBytes entryCount : ℕ} {dtype : Dtype}
    (h₀ : Opened who g e m false s.world) :
    Valid (Scene.exec who e) (deedCon who g (.endpoint e)) (fun r s =>
        Checked who g e m (fun h => h.payloadBytes = payloadBytes ∧ h.entryCount = entryCount)
          s.world r ∧ (r = .ok none → m.seg ≠ g))
      (acceptHeader (osMapping m) payloadBytes entryCount dtype) s := by
  unfold acceptHeader
  refine ((readHeader_valid stable_true h₀ nofun trivial).mono fun r s₁ h₁ => ?_).bind
  rcases r with er | _ | header
  · exact ⟨h₁.1, nofun⟩
  · exact ⟨h₁.1.1, fun _ => h₁.1.2⟩
  · have hchecks : ∀ x, (do
        validateHeader header payloadBytes entryCount
        checkDtype header dtype
        return some header : Except ZeroChannelError (Option Header)) = x →
        Checked who g e m (fun h => h.payloadBytes = payloadBytes ∧ h.entryCount = entryCount)
          s₁.world x ∧ (x = .ok none → m.seg ≠ g) := by
      rintro (er | _ | h) hx
      · exact ⟨h₁.1.toOpened, nofun⟩
      · cases (checks_ok.1 hx).2.2
      · obtain ⟨hv, -, he⟩ := checks_ok.1 hx
        cases he
        exact ⟨⟨h₁.1, validateHeader_ok.1 hv⟩, nofun⟩
    exact hchecks _ rfl

theorem attachHeader_valid {dtype : Dtype} (h₀ : Opened who g e m false s.world) :
    Valid (Scene.exec who e) (deedCon who g (.endpoint e))
      (fun r s => Checked who g e m (fun _ => True) s.world r)
      (attachHeader (osMapping m) dtype) s := by
  unfold attachHeader
  refine ((readHeader_valid stable_true h₀ nofun trivial).mono fun r s₁ h₁ => ?_).bind
  rcases r with er | _ | header
  · exact h₁.1
  · exact h₁.1.1
  · have hchecks : ∀ x, (do
        if header.payloadBytes = 0 ∨ header.entryCount = 0 then return none
        checkDtype header dtype
        return some header : Except ZeroChannelError (Option Header)) = x →
        Checked who g e m (fun _ => True) s₁.world x := by
      rintro (er | _ | h) hx
      · exact h₁.1.toOpened
      · exact h₁.1.toOpened
      · split_ifs at hx
        · cases hx
        · rcases hd : checkDtype header dtype with er | ⟨⟩ <;> rw [hd] at hx <;> cases hx
          exact ⟨h₁.1, trivial⟩
    exact hchecks _ rfl

/-! ## Opening or creating -/

/-- The mapping and the header suit the arguments they are opened with. -/
structure Suits (g : ℕ) (payloadBytes entryCount : Option ℕ) (m : Shmem) (b : Bool)
    (header : Header) : Prop where
  supplied : b = true → payloadBytes.isSome ∧ entryCount.isSome
  payload : m.seg = g → ∀ pb ∈ payloadBytes, header.payloadBytes = pb
  count : m.seg = g → ∀ n ∈ entryCount, header.entryCount = n

/-- What `open_or_create` leaves to the endpoint. -/
def Mapping? (who : E → Pid) (g : ℕ) (e : E) (payloadBytes entryCount : Option ℕ) (w : World E) :
    Option (Except ZeroChannelError (Option (Shmem × Header))) → Prop
  | none => Sound who g w
  | some (.ok (some (m, header))) => ∃ b, Accepted who g e m b header w ∧
      Suits g payloadBytes entryCount m b header
  | _ => Unmapped who g e w

theorem tryAttach_valid {name : String} {dtype : Dtype} (h₀ : Unmapped who g e s.world) :
    Valid (Scene.exec who e) (deedCon who g (.endpoint e))
      (fun r s => Mapping? who g e none none s.world r) (tryAttach name dtype) s := by
  unfold tryAttach
  refine ((tryOpen_valid h₀).mono fun r s₁ h₁ => ?_).bind
  rcases r with _ | m
  · exact h₁
  · refine ((attachHeader_valid h₁).mono fun r s₂ h₂ => ?_).bind
    rcases r with er | _ | header
    · exact reject_valid h₂ fun _ h => h
    · exact ((dropShmem_valid h₂).mono fun _ s₃ h₃ => h₃).bind
    · exact ⟨false, h₂.1, nofun, nofun, nofun⟩

theorem openExisting_valid {name : String} {pb n : ℕ} {dtype : Dtype} (fuel : ℕ)
    (h₀ : Unmapped who g e s.world) :
    Valid (Scene.exec who e) (deedCon who g (.endpoint e))
      (fun r s => Mapping? who g e (some pb) (some n) s.world r)
      (openExisting (who e) name pb n dtype fuel) s := by
  unfold openExisting
  refine ((tryOpen_valid h₀).mono fun r s₁ h₁ => ?_).bind
  rcases r with _ | m
  · exact h₁
  refine ((acceptHeader_valid h₁).mono fun r s₂ ⟨h₂, hseg⟩ => ?_).bind
  rcases r with er | _ | header
  · exact reject_valid h₂ fun _ h => h
  · -- no header: a segment that others need not know of
    have hm := hseg rfl
    have hquiet : ∀ {α : Type} {p : OsProg α} {b : Bool} {s : Scene E}, p.All (OsOp.Quiet g m) →
        Opened who g e m b s.world → Valid (Scene.exec who e) (deedCon who g (.endpoint e))
          (fun _ s => Opened who g e m b s.world) p s := fun hp h =>
      valid_quiet opened_stable (fun _ _ h => absurd h hm) hp h
    have hlen : (shmemLen m).All (OsOp.Quiet g m) := ⟨trivial, fun _ => trivial⟩
    refine ((hquiet hlen h₂).mono fun len s₃ h₃ => ?_).bind
    split_ifs
    · exact reject_valid h₃ fun _ h => h
    · refine ((hquiet (initSegment_quiet hm pb n dtype (who e)) h₃).mono fun _ s₄ h₄ => ?_).bind
      refine ((readHeader_valid stable_true h₄ nofun trivial).mono fun r s₅ h₅ => ?_).bind
      rcases r with er | _ | header
      · exact reject_valid h₅.1 fun _ h => h
      · exact reject_valid h₅.1.1 fun _ h => h
      · refine ((setOwner_valid h₅.1 fun _ _ h => absurd h hm).mono fun _ s₆ h₆ => ?_).bind
        exact ⟨true, h₆, fun _ => ⟨rfl, rfl⟩, fun h => absurd h hm, fun h => absurd h hm⟩
  · -- the bid for the deed
    obtain ⟨hacc, hpb, hn⟩ := h₂
    refine ((claimSegment_valid fuel s₂ hacc).mono fun r s₃ ⟨h₃, hwon⟩ => ?_).bind
    rcases r with _ | won
    · exact h₃.sound
    · refine ((setOwner_valid h₃ fun ho => hwon (by rw [ho])).mono fun _ s₄ h₄ => ?_).bind
      refine ⟨won, h₄, fun _ => ⟨rfl, rfl⟩, ?_, ?_⟩
      · rintro - _ ⟨⟩
        exact hpb
      · rintro - _ ⟨⟩
        exact hn

/-- **`open_or_create`**, while others move. -/
theorem openOrCreate_valid {args : OpenArgs} (fuel : ℕ) (h₀ : Unmapped who g e s.world) :
    Valid (Scene.exec who e) (deedCon who g (.endpoint e))
      (fun r s => Mapping? who g e args.payloadBytes args.entryCount s.world r)
      (openOrCreate (who e) args.name args.payloadBytes args.entryCount args.dtype
        args.delayedConnect fuel) s := by
  obtain ⟨hupb, hun⟩ := args.usize
  unfold openOrCreate
  rcases hpb : args.payloadBytes with _ | pb <;> rcases hn : args.entryCount with _ | n
  · refine ((tryAttach_valid h₀).mono fun r s₁ h₁ => ?_).bind
    rcases r with _ | er | _ | pair
    · exact h₁
    · exact h₁
    · dsimp only
      split_ifs <;> exact h₁
    · exact h₁
  · exact h₀
  · exact h₀
  · dsimp only
    rcases checkGeometry pb n with er | ⟨⟩
    · exact h₀
    · refine ((createSegment_valid (hupb pb hpb) (hun n hn) h₀).mono fun r s₁ h₁ => ?_).bind
      rcases r with er | _ | m
      · exact h₁
      · exact openExisting_valid fuel h₁
      · -- the segment is new
        obtain ⟨h₁, hwords⟩ := h₁
        have hst : Stable who g e fun w => Word g m .payloadBytes pb w ∧ Word g m .entryCount n w :=
          (word_stable (Or.inr (Or.inl rfl)) pb).and (word_stable (Or.inr (Or.inr (Or.inl rfl))) n)
        refine ((readHeader_valid hst h₁ (fun hm _ => (hwords.1 hm).1) hwords).mono
          fun r s₂ ⟨h₂, hw₂⟩ => ?_).bind
        rcases r with er | _ | header
        · exact reject_valid h₂ fun _ h => h
        · exact reject_valid h₂.1 fun _ h => h
        · refine ⟨true, h₂, fun _ => ⟨rfl, rfl⟩, ?_, ?_⟩
          · rintro hm _ ⟨⟩
            exact (h₂.shows hm).payload.symm.trans (hw₂.1 hm).2
          · rintro hm _ ⟨⟩
            exact (h₂.shows hm).count.symm.trans (hw₂.2 hm).2

/-! ## Binding, using and leaving -/

omit [DecidableEq E] in
theorem Geometry.of?_some {pb n : ℕ} {G : Geometry} (h : Geometry.of? pb n = some G) :
    G.payloadBytes = pb ∧ G.entryCount = n := by
  unfold Geometry.of? at h
  split_ifs at h
  cases h
  exact ⟨rfl, rfl⟩

/-- The operations of the ring are operations on the mapping. -/
theorem onRing_all {G : Geometry} {α : Type} {P : SegOp G → Prop} {P' : OsOp → Prop}
    (h : ∀ o, P o → P' (.ring m G o)) {p : SegProg G α} (hp : p.All P) : (onRing m p).All P' :=
  Prog.All.lift (fun o ho => show (Prog.op (.ring m G o) .pure : OsProg _).All P' from
    ⟨h o ho, fun _ => trivial⟩) hp

/-- Lifecycle code on a mapping of segment `g` only touches the roles. -/
theorem osMapping_quiet (m : Shmem) : (osMapping m).Uses (OsOp.Quiet g m) fun w => m.seg = g → w.IsRole :=
  ⟨fun _ => ⟨trivial, fun _ => trivial⟩, fun _ _ _ hw => ⟨⟨rfl, hw⟩, fun _ => trivial⟩,
    fun _ => ⟨trivial, fun _ => trivial⟩⟩

theorem Role.cell_isRole (role : Role) : role.cell.IsRole := by
  cases role
  · exact Or.inl rfl
  · exact Or.inr rfl

/-- What `bind` leaves to the endpoint. -/
def Binding (who : E → Pid) (g : ℕ) (e : E) (m : Shmem) (b : Bool) (header : Header) (w : World E) :
    Option (Except ZeroChannelError Inner) → Prop
  | some (.ok inner) => Accepted who g e m b header w ∧ ∀ G ∈ inner.geometry,
      G.payloadBytes = header.payloadBytes ∧ G.entryCount = header.entryCount
  | _ => Accepted who g e m b header w

theorem quiet_accepted {α : Type} {p : OsProg α} (hp : p.All (OsOp.Quiet g m))
    (h₀ : Accepted who g e m b header s.world) :
    Valid (Scene.exec who e) (deedCon who g (.endpoint e))
      (fun _ s => Accepted who g e m b header s.world) p s :=
  valid_quiet accepted_stable (fun _ h hm => (h.shows hm).ready) hp h₀

theorem attachWriter_valid (h₀ : Accepted who g e m b header s.world) :
    Valid (Scene.exec who e) (deedCon who g (.endpoint e))
      (fun inner s => Binding who g e m b header s.world (some (.ok inner)))
      (attachWriter m header) s := by
  unfold attachWriter
  rcases hG : Geometry.of? header.payloadBytes header.entryCount with _ | G
  · exact ⟨h₀, nofun⟩
  · have hread : (onRing m (RawWriter.attach header : SegProg G (RawWriter G))).All (OsOp.Quiet g m) :=
      onRing_all (fun o ho => ⟨rfl, fun _ => Or.inl ho⟩) (attach_readOnly header)
    refine ((quiet_accepted hread h₀).mono fun w s₁ h₁ => ?_).bind
    refine ⟨h₁, ?_⟩
    rintro _ ⟨⟩
    exact Geometry.of?_some hG

theorem attachReader_valid (h₀ : Accepted who g e m b header s.world) :
    Valid (Scene.exec who e) (deedCon who g (.endpoint e))
      (fun inner s => Binding who g e m b header s.world (some (.ok inner)))
      (attachReader header) s := by
  unfold attachReader
  rcases hG : Geometry.of? header.payloadBytes header.entryCount with _ | G
  · exact ⟨h₀, nofun⟩
  · refine ⟨h₀, ?_⟩
    rintro _ ⟨⟩
    exact Geometry.of?_some hG

/-- **`bind`**, while others move. -/
theorem bindEndpoint_valid (kind : Kind) (name : String) (fuel : ℕ)
    (h₀ : Accepted who g e m b header s.world) :
    Valid (Scene.exec who e) (deedCon who g (.endpoint e))
      (fun r s => Binding who g e m b header s.world r)
      (bindEndpoint kind m header (who e) name fuel) s := by
  have hclaim : ∀ (role : Role) (text : String), Valid (Scene.exec who e)
      (deedCon who g (.endpoint e)) (fun _ s => Accepted who g e m b header s.world)
      (claimRole (osMapping m) (who e) role.cell text name fuel) s := fun role text =>
    quiet_accepted (claimRole_all (osMapping_quiet m) (fun _ => role.cell_isRole) (who e) text name
      fuel) h₀
  cases kind with
  | writer =>
    refine ((hclaim .writer "writer").mono fun r s₁ h₁ => ?_).bind
    rcases r with _ | _ | ⟨⟩
    · exact h₁
    · exact h₁
    · exact ((attachWriter_valid h₁).mono fun inner s₂ h₂ => h₂).bind
  | reader zc =>
    cases zc with
    | false =>
      have hattach : Valid (Scene.exec who e) (deedCon who g (.endpoint e))
          (fun r s => Binding who g e m b header s.world r) (do
            let inner ← attachReader header
            pure (some (.ok inner)) : OsProg (Option (Except ZeroChannelError Inner))) s :=
        ((attachReader_valid h₀).mono fun inner s₂ h₂ => h₂).bind
      exact hattach
    | true =>
      refine ((hclaim .zcReader "zero-copy reader").mono fun r s₁ h₁ => ?_).bind
      rcases r with _ | _ | ⟨⟩
      · exact h₁
      · exact h₁
      · exact ((attachReader_valid h₁).mono fun inner s₂ h₂ => h₂).bind

/-- What holds of an endpoint between two of its calls, only some of which are made. -/
def Standing (who : E → Pid) (g : ℕ) (may : EndCall → Bool) (e : E) (w : World E) : EndLoc → Prop
  | .closed => Unmapped who g e w
  | .spinning => Sound who g w
  | .bound ep => (∃ b, Accepted who g e ep.shmem b ep.header w ∧
      Suits g ep.args.payloadBytes ep.args.entryCount ep.shmem b ep.header) ∧
      (∀ G ∈ ep.inner.geometry, G.payloadBytes = ep.header.payloadBytes ∧
        G.entryCount = ep.header.entryCount) ∧ ∃ fuel, may (.construct ep.args fuel) = true

omit [DecidableEq E] in
theorem standing_stable {may : EndCall → Bool} (l : EndLoc) :
    Stable who g e fun w => Standing who g may e w l := by
  intro w w' h hs hp
  cases l with
  | closed => exact unmapped_stable w w' h hs hp
  | spinning => exact hs
  | bound ep =>
    obtain ⟨⟨b, hacc, hsuit⟩, hrest⟩ := h
    exact ⟨⟨b, accepted_stable w w' hacc hs hp, hsuit⟩, hrest⟩

variable {may : EndCall → Bool}

/-- **A constructor**, while others move. -/
theorem construct_valid {args : OpenArgs} {fuel : ℕ} (hmay : may (.construct args fuel) = true)
    (h₀ : Unmapped who g e s.world) :
    Valid (Scene.exec who e) (deedCon who g (.endpoint e))
      (fun r s => Standing who g may e s.world (.ofAnswer r)) (construct (who e) args fuel) s := by
  unfold construct
  refine ((openOrCreate_valid fuel h₀).mono fun r s₁ h₁ => ?_).bind
  rcases r with _ | er | _ | ⟨m, header⟩
  · exact h₁
  · exact h₁
  · exact h₁
  · obtain ⟨b, hacc, hsuit⟩ := h₁
    refine ((bindEndpoint_valid args.kind args.name fuel hacc).mono fun r s₂ h₂ => ?_).bind
    rcases r with _ | er | inner
    · exact h₂.sound
    · exact reject_valid h₂.toOpened fun _ h => h
    · exact ⟨⟨b, h₂.1, hsuit⟩, h₂.2, fuel, hmay⟩

/-- **A drop**, while others move. -/
theorem dropEndpoint_valid {ep : Endpoint} (h₀ : Standing who g may e s.world (.bound ep)) :
    Valid (Scene.exec who e) (deedCon who g (.endpoint e))
      (fun _ s => Unmapped who g e s.world) (dropEndpoint (who e) ep) s := by
  obtain ⟨⟨b, hacc, -⟩, -⟩ := h₀
  unfold dropEndpoint
  rcases ep.args.kind.role with _ | role
  · exact dropShmem_valid hacc.toOpened
  · have hrel : (releaseRole (osMapping ep.shmem) (who e) role.cell).All (OsOp.Quiet g ep.shmem) :=
      ((osMapping_quiet ep.shmem).cas _ _ _ fun _ => role.cell_isRole).bind fun _ => trivial
    exact ((quiet_accepted hrel hacc).mono fun _ s₁ h₁ => dropShmem_valid h₁.toOpened).bind

/-- **A use of the ring**, while others move. -/
theorem use_valid {ep : Endpoint} {u : RingUse} {p : OsProg Unit}
    (hfit : ∀ args fuel, may (.construct args fuel) = true → ∃ pb n, args.payloadBytes = some pb ∧
      args.entryCount = some n ∧ exactBytes pb n < 2 ^ 64)
    (hp : ep.use u = some p) (h₀ : Standing who g may e s.world (.bound ep)) :
    Valid (Scene.exec who e) (deedCon who g (.endpoint e))
      (fun _ s => Standing who g may e s.world (.bound ep)) p s := by
  obtain ⟨⟨b, hacc, hsuit⟩, hG, fuel, hmay⟩ := h₀
  obtain ⟨G, hGe, rfl⟩ := Option.map_eq_some_iff.1 hp
  have hring : (onRing ep.shmem (u.prog G)).All (OsOp.Quiet g ep.shmem) := by
    refine onRing_all (fun o ho => ⟨rfl, fun hm => Or.inr ⟨ho, ?_⟩⟩) (u.onRing G)
    obtain ⟨pb, n, hpb, hn, hx⟩ := hfit _ _ hmay
    obtain ⟨h₁, h₂⟩ := hG G hGe
    rw [h₁, h₂, hsuit.payload hm pb hpb, hsuit.count hm n hn]
    exact hx
  exact (quiet_accepted hring hacc).mono fun _ s₁ h₁ => ⟨⟨b, h₁, hsuit⟩, hG, fuel, hmay⟩

end

/-! ## The outline -/

section
variable {may : EndCall → Bool}

/-- What is assumed of the calls: nobody unlinks, and a ring that is used does not wrap around
    the address space. -/
structure Tame (may : EndCall → Bool) : Prop where
  unlink : ∀ name, may (.unlink name) = false
  fits : ∀ u args fuel, may (.use u) = true → may (.construct args fuel) = true →
    ∃ pb n, args.payloadBytes = some pb ∧ args.entryCount = some n ∧ exactBytes pb n < 2 ^ 64

/-- What a call leaves: the endpoint stands, and is bound if that is the answer. -/
def Left (who : E → Pid) (g : ℕ) (may : EndCall → Bool) (e : E) (r : EndOut × EndLoc) (w : World E) :
    Prop :=
  Standing who g may e w r.2 ∧ ∀ ep, r.1 = .constructed (some (.ok (some ep))) → r.2 = .bound ep

omit [DecidableEq E] in
theorem left_stable (r : EndOut × EndLoc) : Stable who g e (Left who g may e r) :=
  fun w w' h hs hp => ⟨standing_stable r.2 w w' h.1 hs hp, h.2⟩

theorem enter_valid (ht : Tame may) {c : EndCall} {l : EndLoc} {p : OsProg (EndOut × EndLoc)}
    {s : Scene E} (hmay : may c = true) (h₀ : Standing who g may e s.world l)
    (hp : l.enter (who e) c = some p) :
    Valid (Scene.exec who e) (deedCon who g (.endpoint e))
      (fun r s => Left who g may e r s.world) p s := by
  cases c with
  | construct args fuel =>
    cases l with
    | closed =>
      cases hp
      refine ((construct_valid hmay h₀).mono fun r s₁ h₁ => ?_).bind
      refine ⟨h₁, fun ep hep => ?_⟩
      cases hep
      rfl
    | bound | spinning => cases hp
  | use u =>
    cases l with
    | bound ep =>
      obtain ⟨q, hq, rfl⟩ := Option.map_eq_some_iff.1 hp
      refine ((use_valid (fun args fuel => ht.fits u args fuel hmay) hq h₀).mono
        fun _ s₁ h₁ => ?_).bind
      refine ⟨h₁, fun ep hep => ?_⟩
      cases hep
    | closed | spinning => cases hp
  | drop =>
    cases l with
    | bound ep =>
      cases hp
      refine ((dropEndpoint_valid h₀).mono fun _ s₁ h₁ => ?_).bind
      refine ⟨h₁, fun ep hep => ?_⟩
      cases hep
    | closed | spinning => cases hp
  | unlink name =>
    rw [ht.unlink name] at hmay
    cases hmay

omit [DecidableEq E] in
/-- A process crashes. -/
theorem crashed_sound {w : World E} (hs : Sound who g w) (pid : ℕ) :
    Sound who g (w.crashed who pid) ∧ Keeps g w (w.crashed who pid) ∧
      ∀ e, Passes who g e w (w.crashed who pid) := by
  have hlive : ∀ p, (w.crashed who pid).live p = true → p ≠ pid ∧ w.live p = true := by
    intro p hp
    have hp' : Function.update w.live pid false p = true := hp
    by_cases h : p = pid
    · rw [h, Function.update_self] at hp'
      cases hp'
    · rw [Function.update_of_ne h] at hp'
      exact ⟨h, hp'⟩
  have hmaps : ∀ e md, (w.crashed who pid).maps e = some md → (who e).val ≠ pid ∧ w.maps e = some md := by
    intro e md hm
    have hm' : (if (who e).val = pid then none else w.maps e) = some md := hm
    split_ifs at hm' with h
    exact ⟨h, hm'⟩
  refine ⟨⟨hs.named, fun e md hm => ?_, hs.unborn, hs.owner, fun e m hf => hs.flag e m (hmaps e _ hf).2⟩,
    .of_eq rfl rfl, fun e => ⟨.of_eq rfl rfl, fun p hp => (hlive p hp).2,
      fun hl => if_neg (hlive _ hl).1, fun _ => Iff.rfl, fun _ _ => rfl, fun _ _ _ => rfl⟩⟩
  obtain ⟨hne, hm⟩ := hmaps e md hm
  exact ⟨(hs.mapped e md hm).1, (Function.update_of_ne hne ..).trans (hs.mapped e md hm).2⟩

/-- The process that moves is alive, and nobody finds segment `g` without its header who has
    not created it. -/
def Clear (g : ℕ) (s' : (system who may).Conf) (a : (system who may).Act) : Prop :=
  Alive s' a ∧ s'.mem.blank g = false

/-- The proof outline. -/
def deedOutline (g : ℕ) (ht : Tame may) :
    (system who may).Outline fun _ a s' => Clear g s' a where
  glob s := Sound who g s.world
  con := deedCon who g
  idle
    | .endpoint e, _, l, s => Standing who g may e s.world l
    | .kernel, _, _, _ => True
  post
    | .endpoint e, _, _, r, s => Left who g may e r s.world
    | .kernel, _, _, _, _ => True
  refl t o s hg := by
    cases t with
    | endpoint e => exact ⟨hg, .refl _⟩
    | kernel => exact hg
  trans t o s₁ s₂ s₃ h h' := by
    cases t with
    | endpoint e => exact ⟨h'.1, h.2.trans h'.2⟩
    | kernel => exact h'
  keep t o s s' h _ := by
    cases t with
    | endpoint e => exact h.1
    | kernel => exact h.1
  enter t h c l p s hg hi he := by
    cases t with
    | endpoint e =>
      have he' : (if may c then EndLoc.enter (who e) c l else none) = some p := he
      split_ifs at he' with hmay
      exact enter_valid ht hmay hi he'
    | kernel =>
      cases he
      intro s' hs' _
      exact ⟨crashed_sound hs' (who c).val, trivial⟩
  ret t h c r s hp := by
    cases t with
    | endpoint e => exact hp.1
    | kernel => trivial
  idle_env t h l s s' hi hr := by
    cases t with
    | endpoint e => exact standing_stable l _ _ hi hr.1 hr.2
    | kernel => trivial
  post_env t h c r s s' hp hr := by
    cases t with
    | endpoint e => exact left_stable r _ _ hp hr.1 hr.2
    | kernel => trivial
  ok s t s' _ hP := by
    cases t with
    | endpoint e => exact ⟨hP.1, hP.2⟩
    | kernel => trivial
  compat s t s' u o hs hP hu hn hg hg' hguar := by
    cases u with
    | kernel => exact hg'
    | endpoint e =>
      cases t with
      | kernel => exact ⟨hg', hguar.2.2 e⟩
      | endpoint e' => exact ⟨hg', hguar.2.2.1 e fun h => hu (by rw [h])⟩

/-- The system before the segment exists. -/
structure World.Before (w : World E) (g : ℕ) : Prop where
  maps : ∀ e, w.maps e = none
  names : ∀ n h, w.names n = some h → h < w.segs
  unborn : w.segs ≤ g
  deed : w.deed g = none
  ready : ¬ w.Ready g

omit [DecidableEq E] in
theorem before_boot (live : ℕ → Bool) : (World.boot live : World E).Before 0 :=
  ⟨fun _ => rfl, nofun, le_rfl, rfl, show ¬ (Region.zeroed 0).hdr .magic = MAGIC_VERSION by decide⟩

theorem deed_init (ht : Tame may) {w : World E} (hw : w.Before g) :
    (deedOutline g ht : (system who may).Outline _).Holds (systemInit who may w) := by
  have hnone : ∀ e md, w.maps e ≠ some md := by
    intro e md h
    rw [hw.maps e] at h
    cases h
  have hs : Sound who g w := ⟨hw.names, fun e md h => absurd h (hnone e md),
    fun _ => ⟨hw.deed, hw.ready⟩, fun h => absurd h hw.ready, fun e m h => absurd h (hnone e _)⟩
  refine ⟨hs, fun t => ?_⟩
  cases t with
  | endpoint e =>
    refine ⟨⟨hs, fun _ hd => ?_⟩, fun _ => hw.maps e⟩
    rw [show (systemInit who may w).mem.world = w from rfl, hw.deed] at hd
    cases hd
  | kernel => trivial

end

end ZeroChannel
