/-
  The deed of a segment, contended for.

  Fix a segment `g`.  `Sound` is what holds of it at any moment: whoever has the owner
  flag has won its deed last, and once it carries its header the header names the process
  of that endpoint.  `Passes` is what an endpoint relies on while others move: its
  mapping and its deed stay while its process lives, and the fixed words of a header that
  is there stay for good.

  An operation that is `Quiet` is one of those that others need not know about.
-/
import ZeroChannel.System
import ZeroChannel.Proof.OpenAlone
import ZeroChannel.Proof.Decode
import ZeroChannel.Proof.Roles

namespace ZeroChannel

open Concur

variable {E : Type} {who : E → Pid} {g : ℕ}

/-! ## One segment among others -/

/-- The words that `init_header` lays down for good. -/
def HeaderWord.Fixed (h : HeaderWord) : Prop :=
  h = .magic ∨ h = .payloadBytes ∨ h = .entryCount ∨ h = .dtype

/-- What holds of segment `g` at any moment. -/
structure Sound (who : E → Pid) (g : ℕ) (w : World E) : Prop where
  named : ∀ n h, w.names n = some h → h < w.segs
  mapped : ∀ e md, w.maps e = some md → md.shmem.seg < w.segs ∧ w.live (who e).val = true
  unborn : w.segs ≤ g → w.deed g = none ∧ ¬ w.Ready g
  owner : w.Ready g → ∀ e, w.deed g = some e →
    (w.regions g).hdr .segmentOwner = (who e).val
  flag : ∀ e m, w.maps e = some ⟨m, true⟩ → m.seg = g → w.deed g = some e

/-- What nobody undoes. -/
structure Keeps (g : ℕ) (w w' : World E) : Prop where
  fixed : w.Ready g → ∀ h : HeaderWord, h.Fixed → (w'.regions g).hdr h = (w.regions g).hdr h
  /-- nobody takes the deed before the header is there -/
  early : w.deed g ≠ none → ¬ w'.Ready g → w'.deed g = w.deed g

/-- What endpoint `e` relies on. -/
structure Passes (who : E → Pid) (g : ℕ) (e : E) (w w' : World E) : Prop
    extends Keeps g w w' where
  live : ∀ pid, w'.live pid = true → w.live pid = true
  maps : w'.live (who e).val = true → w'.maps e = w.maps e
  deed : w'.live (who e).val = true → (w'.deed g = some e ↔ w.deed g = some e)
  owner : w'.live (who e).val = true → w.deed g = some e →
    (w'.regions g).hdr .segmentOwner = (w.regions g).hdr .segmentOwner
  building : w'.live (who e).val = true → w.deed g = some e → ¬ w.Ready g →
    w'.regions g = w.regions g

namespace Keeps
variable {w w' w'' : World E}

theorem refl (w : World E) : Keeps g w w := ⟨fun _ _ _ => rfl, fun _ _ => rfl⟩

theorem ready (h : Keeps g w w') (hr : w.Ready g) : w'.Ready g :=
  (h.fixed hr .magic (Or.inl rfl)).trans hr

theorem trans (h : Keeps g w w') (h' : Keeps g w' w'') : Keeps g w w'' := by
  refine ⟨fun hr x hx => ?_, fun hd hr => ?_⟩
  · exact (h'.fixed (h.ready hr) x hx).trans (h.fixed hr x hx)
  · have hdeed := h.early hd fun hr' => hr (h'.ready hr')
    exact (h'.early (hdeed ▸ hd) hr).trans hdeed

theorem of_eq (hd : w'.deed g = w.deed g) (hr : w'.regions g = w.regions g) : Keeps g w w' :=
  ⟨fun _ _ _ => by rw [hr], fun _ _ => hd⟩

end Keeps

namespace Passes
variable {e : E} {w w' w'' : World E}

theorem refl (w : World E) : Passes who g e w w :=
  ⟨.refl w, fun _ => id, fun _ => rfl, fun _ => Iff.rfl, fun _ _ => rfl, fun _ _ _ => rfl⟩

theorem trans (h : Passes who g e w w') (h' : Passes who g e w' w'') : Passes who g e w w'' := by
  refine ⟨h.toKeeps.trans h'.toKeeps, fun pid hl => h.live pid (h'.live pid hl), fun hl => ?_,
    fun hl => ?_, fun hl hd => ?_, fun hl hd hr => ?_⟩
  · exact (h'.maps hl).trans (h.maps (h'.live _ hl))
  · exact (h'.deed hl).trans (h.deed (h'.live _ hl))
  · have hl' := h'.live _ hl
    exact (h'.owner hl ((h.deed hl').2 hd)).trans (h.owner hl' hd)
  · have hl' := h'.live _ hl
    have hreg := h.building hl' hd hr
    have hr' : ¬ w'.Ready g := by rwa [World.Ready, hreg]
    exact (h'.building hl ((h.deed hl').2 hd) hr').trans hreg

end Passes

/-- Nothing happens but to the roles and the ring of the segment, and to other segments. -/
structure Calm (g : ℕ) (w w' : World E) : Prop where
  names : w'.names = w.names
  maps : w'.maps = w.maps
  segs : w'.segs = w.segs
  live : w'.live = w.live
  deed : w'.deed g = w.deed g
  owner : (w'.regions g).hdr .segmentOwner = (w.regions g).hdr .segmentOwner
  fixed : ∀ h : HeaderWord, h.Fixed → (w'.regions g).hdr h = (w.regions g).hdr h
  building : ¬ w.Ready g → w'.regions g = w.regions g

namespace Calm
variable {w w' : World E}

theorem refl (w : World E) : Calm g w w := ⟨rfl, rfl, rfl, rfl, rfl, rfl, fun _ _ => rfl, fun _ => rfl⟩

theorem ready (h : Calm g w w') : w'.Ready g ↔ w.Ready g := by
  unfold World.Ready
  rw [h.fixed .magic (Or.inl rfl)]

theorem sound (h : Calm g w w') (hs : Sound who g w) : Sound who g w' := by
  refine ⟨?_, ?_, ?_, ?_, ?_⟩
  · rw [h.names, h.segs]
    exact hs.named
  · rw [h.maps, h.segs, h.live]
    exact hs.mapped
  · rw [h.segs, h.deed, h.ready]
    exact hs.unborn
  · rw [h.deed, h.ready, h.owner]
    exact hs.owner
  · rw [h.maps, h.deed]
    exact hs.flag

theorem keeps (h : Calm g w w') : Keeps g w w' := ⟨fun _ => h.fixed, fun _ _ => h.deed⟩

theorem passes (h : Calm g w w') (e : E) : Passes who g e w w' := by
  refine ⟨h.keeps, fun pid hl => ?_, fun _ => ?_, fun _ => ?_, fun _ _ => h.owner,
    fun _ _ => h.building⟩
  · rwa [← h.live]
  · rw [h.maps]
  · rw [h.deed]

end Calm

/-! ## Quiet operations -/

/-- The role words. -/
def HeaderWord.IsRole (h : HeaderWord) : Prop := h = .writerOwner ∨ h = .zcReaderOwner

/-- Operations on the mapping `m` that leave the deed and the header of segment `g` alone. -/
def OsOp.Quiet (g : ℕ) (m : Shmem) : OsOp → Prop
  | load _ _ | len _ | probe _ => True
  | zero m' _ | store m' _ _ => m'.seg ≠ g
  | cas m' h _ _ => m' = m ∧ (m.seg = g → h.IsRole)
  | ring m' G o => m' = m ∧ (m.seg = g → o.ReadOnly ∨
      o.OnRing ∧ exactBytes G.payloadBytes G.entryCount < 2 ^ 64)
  | _ => False

/-- The ring stays clear of the header, its counters apart. -/
theorem ringExec_hdr {G : Geometry} (hx : exactBytes G.payloadBytes G.entryCount < 2 ^ 64)
    {o : SegOp G} (ho : o.OnRing) (r : Region) {h : HeaderWord}
    (hh : h ≠ .writeIndex ∧ h ≠ .lastEntrySeq) : (Region.ringExec G o r).2.hdr h = r.hdr h := by
  have hlt := Region.off_lt h
  have hword : ∀ (i : Slot G) (v : ℕ),
      (r.setWord (Region.seqOffset G.payloadBytes i.val) v).hdr h = r.hdr h := by
    intro i v
    refine Region.word_setWord_ne (Or.inr ?_)
    rw [seqOffset_exact i.isLt hx]
    exact hlt.trans (Nat.le_add_right _ _)
  cases o with
  | loadSeq | loadByte | load => rfl
  | clearSeq i => exact hword i _
  | storeSeq i v => exact hword i _
  | casSeq i old new =>
    simp only [Region.ringExec]
    split_ifs
    · exact hword i _
    · rfl
  | storeByte i j b =>
    refine Region.word_setByte_ne (Or.inr ?_)
    have hhdr : HEADER_BYTES ≤ exactOffset G.payloadBytes i.val := Nat.le_add_right _ _
    rw [payloadOffset_exact i.isLt hx]
    omega
  | store w v =>
    refine Region.hdr_setWord_ne ?_ v
    rcases ho with rfl | rfl
    · exact hh.1
    · exact hh.2
  | cas => exact ho.elim

section
variable {w : World E} {e : E}

theorem calm_other {k : ℕ} (hk : k ≠ g) (r : Region) : Calm g w (w.setRegion k r) :=
  have hreg : (w.setRegion k r).regions g = w.regions g := World.setRegion_ne w hk.symm r
  ⟨rfl, rfl, rfl, rfl, rfl, by rw [hreg], fun _ _ => by rw [hreg], fun _ => hreg⟩

theorem calm_ring {r : Region} (hr : w.Ready g)
    (h : ∀ x : HeaderWord, x ≠ .writeIndex ∧ x ≠ .lastEntrySeq → r.hdr x = (w.regions g).hdr x) :
    Calm g w (w.setRegion g r) := by
  refine ⟨rfl, rfl, rfl, rfl, rfl, ?_, fun x hx => ?_, fun hn => absurd hr hn⟩
  · rw [World.setRegion_self]
    exact h _ (by decide)
  · rw [World.setRegion_self]
    refine h x ?_
    rcases hx with rfl | rfl | rfl | rfl <;> decide

theorem calm_put_other {k : ℕ} (hk : k ≠ g) (h : HeaderWord) (v : ℕ) : Calm g w (w.put k e h v) := by
  have hreg : (w.put k e h v).regions g = w.regions g := by
    rw [World.put_regions]
    exact Function.update_of_ne hk.symm ..
  refine ⟨World.put_names .., World.put_maps .., World.put_segs .., World.put_live .., ?_,
    by rw [hreg], fun _ _ => by rw [hreg], fun _ => hreg⟩
  unfold World.put
  split_ifs
  · exact Function.update_of_ne hk.symm ..
  · rfl

theorem calm_put_role {h : HeaderWord} (hr : w.Ready g) (hh : h.IsRole) (v : ℕ) :
    Calm g w (w.put g e h v) := by
  have hword : ∀ x, x ≠ h → ((w.put g e h v).regions g).hdr x = (w.regions g).hdr x := by
    intro x hx
    rw [World.put_regions, Function.update_self]
    exact Region.hdr_setWord_ne hx v
  refine ⟨World.put_names .., World.put_maps .., World.put_segs .., World.put_live .., ?_,
    hword _ ?_, fun x hx => hword x ?_, fun hn => absurd hr hn⟩
  · unfold World.put
    rw [if_neg (by rcases hh with rfl | rfl <;> decide)]
    rfl
  · rcases hh with rfl | rfl <;> decide
  · rcases hh with rfl | rfl <;> rcases hx with rfl | rfl | rfl | rfl <;> decide

/-- **A quiet operation** is calm. -/
theorem calm_exec [DecidableEq E] {m : Shmem} {o : OsOp} (ho : o.Quiet g m)
    (hr : m.seg = g → w.Ready g) : Calm g w (World.exec who e o w).2 := by
  cases o with
  | load | len | probe => exact .refl w
  | zero m' off => exact calm_other ho _
  | store m' h v => exact calm_put_other ho h v
  | cas m' h old new =>
    obtain ⟨rfl, hh⟩ := ho
    simp only [World.exec]
    split_ifs
    · by_cases hm : m'.seg = g
      · rw [hm]
        exact calm_put_role (hr hm) (hh hm) new
      · exact calm_put_other hm h new
    · exact .refl w
  | ring m' G o =>
    obtain ⟨rfl, hh⟩ := ho
    simp only [World.exec]
    by_cases hm : m'.seg = g
    · rw [hm]
      refine calm_ring (hr hm) fun x hx => ?_
      rcases hh hm with hro | ⟨hon, hfit⟩
      · rw [readOnly_exec hro]
      · exact ringExec_hdr hfit hon _ hx
    · exact calm_other hm _
  | create | «open» | setOwner | close | crash => exact ho.elim

end

/-! ## Contracts -/

/-- The operations of `init_header` on segment `g`. -/
def OsOp.Lays (g : ℕ) : OsOp → Prop
  | zero m _ | store m _ _ => m.seg = g
  | _ => False

instance (g : ℕ) : DecidablePred (OsOp.Lays g)
  | .zero m _ => inferInstanceAs (Decidable (m.seg = g))
  | .store m _ _ => inferInstanceAs (Decidable (m.seg = g))
  | .create .. | .open _ | .setOwner _ | .close | .len _ | .load .. | .cas .. | .ring .. | .probe _
  | .crash _ => .isFalse id

/-- The contract of a thread.  Only the endpoint that created the segment lays down its
    header, and only once. -/
def deedCon [DecidableEq E] (who : E → Pid) (g : ℕ) : Agent E → Contract osSig (Scene E)
  | .endpoint e => {
      ok := fun s => s.world.live (who e).val = true ∧ s.blank g = false
      rely := fun _ s s' => Sound who g s'.world ∧ Passes who g e s.world s'.world
      guar := fun o s s' => Sound who g s'.world ∧ Keeps g s.world s'.world ∧
        (∀ e', e' ≠ e → Passes who g e' s.world s'.world) ∧
        (o.Lays g → s.world.deed g = some e ∧ ¬ s.world.Ready g) }
  | .kernel => {
      ok := fun _ => True
      rely := fun _ _ s' => Sound who g s'.world
      guar := fun _ s s' => Sound who g s'.world ∧ Keeps g s.world s'.world ∧
        ∀ e, Passes who g e s.world s'.world }

/-! ## What an endpoint knows -/

/-- The header describes segment `g`. -/
structure World.Shows (w : World E) (g : ℕ) (header : Header) : Prop where
  ready : w.Ready g
  payload : (w.regions g).hdr .payloadBytes = header.payloadBytes
  count : (w.regions g).hdr .entryCount = header.entryCount
  dtype : (w.regions g).hdr .dtype = header.dtype

/-- Endpoint `e` is not in the middle of creating the segment. -/
structure Settled (who : E → Pid) (g : ℕ) (e : E) (w : World E) : Prop where
  sound : Sound who g w
  ready : w.live (who e).val = true → w.deed g = some e → w.Ready g

/-- Endpoint `e` has no mapping. -/
structure Unmapped (who : E → Pid) (g : ℕ) (e : E) (w : World E) : Prop
    extends Settled who g e w where
  maps : w.live (who e).val = true → w.maps e = none

/-- Endpoint `e` has mapped a segment. -/
structure Opened (who : E → Pid) (g : ℕ) (e : E) (m : Shmem) (b : Bool) (w : World E) : Prop
    extends Settled who g e w where
  maps : w.live (who e).val = true → w.maps e = some ⟨m, b⟩

/-- Endpoint `e` has mapped a segment, and accepted its header. -/
structure Accepted (who : E → Pid) (g : ℕ) (e : E) (m : Shmem) (b : Bool) (header : Header)
    (w : World E) : Prop extends Opened who g e m b w where
  shows : m.seg = g → w.Shows g header

section
variable {e : E} {m : Shmem} {b : Bool} {header : Header} {w w' : World E}

theorem World.Shows.later (h : w.Shows g header) (hp : Keeps g w w') : w'.Shows g header :=
  ⟨hp.ready h.ready, (hp.fixed h.ready _ (Or.inr (Or.inl rfl))).trans h.payload,
    (hp.fixed h.ready _ (Or.inr (Or.inr (Or.inl rfl)))).trans h.count,
    (hp.fixed h.ready _ (Or.inr (Or.inr (Or.inr rfl)))).trans h.dtype⟩

theorem World.Shows.of_regions (h : w.Shows g header) (hr : w'.regions = w.regions) :
    w'.Shows g header := by
  obtain ⟨h₁, h₂, h₃, h₄⟩ := h
  exact ⟨by rw [World.Ready, hr]; exact h₁, by rw [hr]; exact h₂, by rw [hr]; exact h₃,
    by rw [hr]; exact h₄⟩

/-- The claim still holds after others have moved. -/
def Stable (who : E → Pid) (g : ℕ) (e : E) (A : World E → Prop) : Prop :=
  ∀ w w', A w → Sound who g w' → Passes who g e w w' → A w'

theorem settled_stable : Stable who g e (Settled who g e) := fun _ _ h hs hp =>
  ⟨hs, fun hl hd => hp.ready (h.ready (hp.live _ hl) ((hp.deed hl).1 hd))⟩

theorem unmapped_stable : Stable who g e (Unmapped who g e) := fun _ _ h hs hp =>
  ⟨settled_stable _ _ h.toSettled hs hp, fun hl => (hp.maps hl).trans (h.maps (hp.live _ hl))⟩

theorem opened_stable : Stable who g e (Opened who g e m b) := fun _ _ h hs hp =>
  ⟨settled_stable _ _ h.toSettled hs hp, fun hl => (hp.maps hl).trans (h.maps (hp.live _ hl))⟩

theorem accepted_stable : Stable who g e (Accepted who g e m b header) := fun _ _ h hs hp =>
  ⟨opened_stable _ _ h.toOpened hs hp, fun hm => (h.shows hm).later hp.toKeeps⟩

end

/-! ## Rules -/

section
variable [DecidableEq E] {α : Type} {e : E} {A : World E → Prop} {Q : α → Scene E → Prop}

/-- The rule for one operation. -/
theorem valid_deed {o : OsOp} {k : o.Res → OsProg α} {s : Scene E} (hA : Stable who g e A)
    (h₀ : A s.world)
    (h : ∀ s' : Scene E, Sound who g s'.world → A s'.world →
      (World.exec who e o s'.world).2.live (who e).val = true →
      (Scene.exec who e o s').2.blank g = false →
      Sound who g (World.exec who e o s'.world).2 ∧ Keeps g s'.world (World.exec who e o s'.world).2 ∧
      (∀ e', e' ≠ e → Passes who g e' s'.world (World.exec who e o s'.world).2) ∧
      (o.Lays g → s'.world.deed g = some e ∧ ¬ s'.world.Ready g) ∧
      Valid (Scene.exec who e) (deedCon who g (.endpoint e)) Q
        (k (World.exec who e o s'.world).1) (Scene.exec who e o s').2) :
    Valid (Scene.exec who e) (deedCon who g (.endpoint e)) Q (.op o k) s := by
  rw [valid_op]
  rintro s' ⟨hs, hp⟩ ⟨hl, hb⟩
  obtain ⟨h₁, h₂, h₃, h₄, h₅⟩ := h s' hs (hA _ _ h₀ hs hp) hl hb
  exact ⟨⟨h₁, h₂, h₃, h₄⟩, h₅⟩

/-- The rule for a quiet operation. -/
theorem valid_calm {m : Shmem} {o : OsOp} {k : o.Res → OsProg α} {s : Scene E}
    (hA : Stable who g e A) (hr : ∀ w, A w → m.seg = g → w.Ready g) (ho : o.Quiet g m)
    (h₀ : A s.world)
    (h : ∀ (s' : Scene E), A s'.world → A (World.exec who e o s'.world).2 →
      Valid (Scene.exec who e) (deedCon who g (.endpoint e)) Q
        (k (World.exec who e o s'.world).1) (Scene.exec who e o s').2) :
    Valid (Scene.exec who e) (deedCon who g (.endpoint e)) Q (.op o k) s := by
  refine valid_deed hA h₀ fun s' hs hA' hl hb => ?_
  have hc : Calm g s'.world (World.exec who e o s'.world).2 := calm_exec ho (hr _ hA')
  have hs' := hc.sound hs
  refine ⟨hs', hc.keeps, fun e' _ => hc.passes e', fun hlay => ?_, h s' hA' (hA _ _ hA' hs' (hc.passes e))⟩
  cases o with
  | zero m' off => exact absurd hlay ho
  | store m' x v => exact absurd hlay ho
  | _ => exact hlay.elim

/-- The rule for a program of quiet operations. -/
theorem valid_quiet {m : Shmem} {p : OsProg α} {s : Scene E} (hA : Stable who g e A)
    (hr : ∀ w, A w → m.seg = g → w.Ready g) (hp : p.All (OsOp.Quiet g m)) (h₀ : A s.world) :
    Valid (Scene.exec who e) (deedCon who g (.endpoint e)) (fun _ s => A s.world) p s := by
  induction p generalizing s with
  | pure a => exact h₀
  | op o k ih => exact valid_calm hA hr hp.1 h₀ fun s' _ hA' => ih _ (hp.2 _) hA'

end

/-! ## Mappings -/

/-- Endpoint `e` changes its mapping. -/
theorem rebind {e : E} {w v : World E} (hs : Sound who g w) (hsegs : v.segs = w.segs)
    (hlive : v.live = w.live) (hdeed : v.deed = w.deed) (hregs : v.regions = w.regions)
    (hnames : ∀ n h, v.names n = some h → w.names n = some h)
    (hother : ∀ e', e' ≠ e → v.maps e' = w.maps e')
    (hmine : ∀ md, v.maps e = some md → md.shmem.seg < w.segs ∧ w.live (who e).val = true ∧
      (md.owner = true → md.shmem.seg = g → w.deed g = some e)) :
    Sound who g v ∧ Keeps g w v ∧ ∀ e', e' ≠ e → Passes who g e' w v := by
  have hready : v.Ready g ↔ w.Ready g := by rw [World.Ready, World.Ready, hregs]
  have hkeep : Keeps g w v := .of_eq (by rw [hdeed]) (by rw [hregs])
  refine ⟨⟨fun n h hn => ?_, fun e' md hm => ?_, ?_, ?_, fun e' m hm hg => ?_⟩, hkeep,
    fun e' he => ?_⟩
  · rw [hsegs]
    exact hs.named n h (hnames n h hn)
  · rw [hsegs, hlive]
    by_cases he : e' = e
    · subst he
      exact ⟨(hmine md hm).1, (hmine md hm).2.1⟩
    · exact hs.mapped e' md (hother e' he ▸ hm)
  · rw [hsegs, hdeed, hready]
    exact hs.unborn
  · rw [hdeed, hready, hregs]
    exact hs.owner
  · rw [hdeed]
    by_cases he : e' = e
    · subst he
      exact (hmine _ hm).2.2 rfl hg
    · exact hs.flag e' m (hother e' he ▸ hm) hg
  · refine ⟨hkeep, fun pid hl => by rwa [← hlive], fun _ => hother e' he, fun _ => by rw [hdeed],
      fun _ _ => by rw [hregs], fun _ _ _ => by rw [hregs]⟩

/-- Endpoint `e`, having set out from `w`, knows its mapping. -/
theorem opened_of_rebind {e : E} {m : Shmem} {b : Bool} {w w' : World E}
    (h : Settled who g e w) (hs' : Sound who g w')
    (hlive : w'.live = w.live) (hdeed : w'.deed = w.deed) (hregs : w'.regions = w.regions)
    (hm : w'.maps e = some ⟨m, b⟩) : Opened who g e m b w' := by
  refine ⟨⟨hs', fun hl hd => ?_⟩, fun _ => hm⟩
  rw [World.Ready, hregs]
  exact h.ready (hlive ▸ hl) (hdeed ▸ hd)

section
variable [DecidableEq E] {e : E} {m : Shmem} {b : Bool} {header : Header} {s : Scene E}

theorem tryOpen_valid {name : String} (h₀ : Unmapped who g e s.world) :
    Valid (Scene.exec who e) (deedCon who g (.endpoint e)) (fun r s => match r with
      | none => Unmapped who g e s.world
      | some m => Opened who g e m false s.world) (tryOpen name) s := by
  refine valid_deed unmapped_stable h₀ fun s' hs hA hl _ => ?_
  simp only [Scene.exec, World.exec] at hl ⊢
  rcases hname : s'.world.names name with _ | k <;> rw [hname] at hl
  · exact ⟨hs, .refl _, fun e' _ => .refl _, fun h => h.elim, hA⟩
  dsimp only at hl ⊢
  split_ifs at hl ⊢
  · exact ⟨hs, .refl _, fun e' _ => .refl _, fun h => h.elim, hA⟩
  · obtain ⟨hs', hkeep, hpass⟩ := rebind (v := s'.world.mapped e ⟨⟨name, k⟩, false⟩) hs rfl rfl rfl rfl
      (fun _ _ => id) (fun e' he => World.mapped_ne _ _ he _) fun md hm => by
        rw [World.mapped_self] at hm
        cases hm
        refine ⟨hs.named name k hname, hl, fun ho => ?_⟩
        cases ho
    exact ⟨hs', hkeep, hpass, fun h => h.elim,
      opened_of_rebind hA.toSettled hs' rfl rfl rfl (World.mapped_self ..)⟩

theorem dropShmem_valid (h₀ : Opened who g e m b s.world) :
    Valid (Scene.exec who e) (deedCon who g (.endpoint e)) (fun _ s => Unmapped who g e s.world)
      dropShmem s := by
  refine valid_deed opened_stable h₀ fun s' hs hA hl _ => ?_
  have hl' : s'.world.live (who e).val = true := by
    rwa [← World.closed_live]
  obtain ⟨hs', hkeep, hpass⟩ := rebind (v := s'.world.closed e) hs (World.closed_segs ..)
    (World.closed_live ..) (World.closed_deed ..) (World.closed_regions ..)
    (fun n h => World.closed_names _ _) (fun e' he => World.closed_ne _ _ he) fun md hm => by
      rw [World.closed_self] at hm
      cases hm
  refine ⟨hs', hkeep, hpass, nofun, ⟨hs', fun hl hd => ?_⟩, fun _ => World.closed_self ..⟩
  have hd' : s'.world.deed g = some e := by rwa [← World.closed_deed]
  have hready : (s'.world.closed e).Ready g ↔ s'.world.Ready g := by
    rw [World.Ready, World.Ready, World.closed_regions]
  exact hready.2 (hA.ready hl' hd')

/-- The mapping may take the owner flag of the segment. -/
def MayOwn (who : E → Pid) (g : ℕ) (e : E) (m : Shmem) (w : World E) : Prop :=
  w.live (who e).val = true → m.seg = g → w.deed g = some e

omit [DecidableEq E] in
theorem mayOwn_stable : Stable who g e (MayOwn who g e m) :=
  fun _ _ h _ hp hl hm => (hp.deed hl).2 (h (hp.live _ hl) hm)

omit [DecidableEq E] in
theorem Stable.and {A B : World E → Prop} (hA : Stable who g e A) (hB : Stable who g e B) :
    Stable who g e fun w => A w ∧ B w := fun w w' h hs hp => ⟨hA w w' h.1 hs hp, hB w w' h.2 hs hp⟩

theorem setOwner_valid {owner : Bool} (h₀ : Accepted who g e m b header s.world)
    (hown : owner = true → MayOwn who g e m s.world) :
    Valid (Scene.exec who e) (deedCon who g (.endpoint e))
      (fun _ s => Accepted who g e m owner header s.world) (setOwner owner) s := by
  refine valid_deed (A := fun w => Accepted who g e m b header w ∧ (owner = true → MayOwn who g e m w))
    (accepted_stable.and fun w w' h hs hp ho => mayOwn_stable w w' (h ho) hs hp) ⟨h₀, hown⟩
    fun s' hs ⟨hA, hO⟩ hl _ => ?_
  have hl' : s'.world.live (who e).val = true := hl
  have hmaps := hA.maps hl'
  obtain ⟨hs', hkeep, hpass⟩ := rebind (v := (World.exec who e (.setOwner owner) s'.world).2) hs rfl rfl rfl
    rfl (fun _ _ => id) (fun e' he => Function.update_of_ne he ..) fun md hm => by
      have hm' : Function.update s'.world.maps e ((s'.world.maps e).map fun md => { md with owner }) e
        = some md := hm
      rw [Function.update_self, hmaps] at hm'
      cases hm'
      exact ⟨(hs.mapped e _ hmaps).1, hl', fun ho hg => hO ho hl' hg⟩
  refine ⟨hs', hkeep, hpass, nofun, opened_of_rebind hA.toSettled hs' rfl rfl rfl ?_,
    fun hm => (hA.shows hm).of_regions rfl⟩
  have hself : Function.update s'.world.maps e ((s'.world.maps e).map fun md => { md with owner }) e =
      some ⟨m, owner⟩ := by
    rw [Function.update_self, hmaps]
    rfl
  exact hself

/-! ## Reading the header -/

/-- A load of a mapped header sees the words as they are then. -/
theorem load_deed {α : Type} {x : HeaderWord} {f : ℕ → OsProg α} {Q : α → Scene E → Prop}
    {A : World E → Prop} (hA : Stable who g e A) (h₀ : A s.world)
    (hk : ∀ s' v, A s'.world → s'.world.live (who e).val = true →
      (Scene.exec who e (.load m x) s').2.blank g = false → (s'.world.regions m.seg).hdr x = v →
      Valid (Scene.exec who e) (deedCon who g (.endpoint e)) Q (f v)
        (Scene.exec who e (.load m x) s').2) :
    Valid (Scene.exec who e) (deedCon who g (.endpoint e)) Q ((osMapping m).load x >>= f) s := by
  have hop : (osMapping m).load x >>= f = .op (.load m x) fun v => f v := rfl
  rw [hop]
  exact valid_deed hA h₀ fun s' hs hA' hl hb =>
    ⟨hs, .refl _, fun e' _ => .refl _, nofun, hk s' _ hA' hl hb rfl⟩

/-- What `read_header` finds: the header of the segment, if it carries one. -/
def Found (who : E → Pid) (g : ℕ) (e : E) (m : Shmem) (b : Bool) (w : World E) :
    Except ZeroChannelError (Option Header) → Prop
  | .error _ => Opened who g e m b w
  | .ok none => Opened who g e m b w ∧ m.seg ≠ g
  | .ok (some header) => Accepted who g e m b header w

/-- A fixed word of the header, if the mapping is one of segment `g`. -/
def Word (g : ℕ) (m : Shmem) (x : HeaderWord) (v : ℕ) (w : World E) : Prop :=
  m.seg = g → w.Ready g ∧ (w.regions g).hdr x = v

omit [DecidableEq E] in
theorem word_stable {x : HeaderWord} (hx : x.Fixed) (v : ℕ) : Stable who g e (Word g m x v) :=
  fun _ _ h _ hp hm => ⟨hp.ready (h hm).1, (hp.fixed (h hm).1 x hx).trans (h hm).2⟩

/-- An endpoint that opened the segment and is not to blame for a blank finds a header. -/
theorem not_blank {s' : Scene E} (hmaps : s'.world.maps e = some ⟨m, false⟩)
    (hb : (Scene.exec who e (.load m .magic) s').2.blank g = false)
    (hz : (s'.world.regions m.seg).hdr .magic = 0) : m.seg ≠ g := by
  rintro rfl
  have hfind : s'.world.findsBlank e (.load m .magic) m.seg = false :=
    (Bool.or_eq_false_iff.1 hb).2
  exact absurd (And.intro rfl ⟨hz, hmaps⟩) (of_decide_eq_false hfind)

/-- **Reading the header** of a segment that carries it, or that the endpoint has not
    created. -/
theorem readHeader_valid {F : World E → Prop} (hF : Stable who g e F)
    (h₀ : Opened who g e m b s.world) (hr : m.seg = g → b = true → s.world.Ready g)
    (hf : F s.world) :
    Valid (Scene.exec who e) (deedCon who g (.endpoint e))
      (fun r s => Found who g e m b s.world r ∧ F s.world) (readHeader (osMapping m).load) s := by
  have hst : Stable who g e fun w => (Opened who g e m b w ∧ F w) ∧
      (m.seg = g → b = true → w.Ready g) :=
    (opened_stable.and hF).and fun w w' h _ hp hm hb => hp.ready (h hm hb)
  unfold readHeader
  refine load_deed hst ⟨⟨h₀, hf⟩, hr⟩ fun s₁ v ⟨⟨hA, hf⟩, hR⟩ hl hb hv => ?_
  by_cases hz : v = 0
  · rw [if_pos hz]
    refine ⟨⟨hA, fun hm => ?_⟩, hf⟩
    rw [hz] at hv
    cases b with
    | true =>
      have hready := hR hm rfl
      rw [World.Ready, ← hm, hv] at hready
      exact absurd hready (by decide)
    | false => exact not_blank (hA.maps hl) hb hv hm
  rw [if_neg hz]
  by_cases hne : v ≠ MAGIC_VERSION
  · rw [if_pos hne]
    split_ifs <;> exact ⟨hA, hf⟩
  rw [if_neg hne]
  have hw₁ : Word g m .magic MAGIC_VERSION s₁.world := by
    rintro rfl
    exact ⟨hv.trans (not_not.1 hne), hv.trans (not_not.1 hne)⟩
  have hword : ∀ x v, x.Fixed → Stable who g e (Word g m x v) := fun x v hx => word_stable hx v
  have hst₁ := ((opened_stable : Stable who g e (Opened who g e m b)).and hF).and
    (hword .magic MAGIC_VERSION (Or.inl rfl))
  refine load_deed hst₁ ⟨⟨hA, hf⟩, hw₁⟩ fun s₂ payloadBytes h₂ _ _ hv₂ => ?_
  have hw₂ : Word g m .payloadBytes payloadBytes s₂.world := by
    rintro rfl
    exact ⟨(h₂.2 rfl).1, hv₂⟩
  have hst₂ := hst₁.and (hword .payloadBytes payloadBytes (Or.inr (Or.inl rfl)))
  refine load_deed hst₂ ⟨h₂, hw₂⟩ fun s₃ entryCount h₃ _ _ hv₃ => ?_
  have hw₃ : Word g m .entryCount entryCount s₃.world := by
    rintro rfl
    exact ⟨(h₃.2 rfl).1, hv₃⟩
  have hst₃ := hst₂.and (hword .entryCount entryCount (Or.inr (Or.inr (Or.inl rfl))))
  refine load_deed hst₃ ⟨h₃, hw₃⟩ fun s₄ writeIndex h₄ _ _ _ => ?_
  refine load_deed hst₃ h₄ fun s₅ dtype h₅ _ _ hv₅ => ?_
  have hw₅ : Word g m .dtype dtype s₅.world := by
    rintro rfl
    exact ⟨(h₅.1.2 rfl).1, hv₅⟩
  have hst₅ := hst₃.and (hword .dtype dtype (Or.inr (Or.inr (Or.inr rfl))))
  refine load_deed hst₅ ⟨h₅, hw₅⟩ fun s₆ lastEntrySeq ⟨⟨⟨⟨h₆, hw⟩, hp⟩, hc⟩, hd⟩ _ _ _ => ?_
  exact ⟨⟨h₆.1, fun hm => ⟨(hw hm).1, (hp hm).2, (hc hm).2, (hd hm).2⟩⟩, h₆.2⟩

/-! ## Bidding -/

omit [DecidableEq E] in
/-- **A bid that finds nobody alive** takes the deed. -/
theorem won_bid {w : World E} (h : Accepted who g e m b header w) (hm : m.seg = g)
    (hl : w.live (who e).val = true) (hv : Vacant w.live ((w.regions g).hdr .segmentOwner)) :
    let w' := w.put g e .segmentOwner (who e).val
    Sound who g w' ∧ Keeps g w w' ∧ (∀ e', e' ≠ e → Passes who g e' w w') ∧
      Accepted who g e m b header w' ∧ w'.deed g = some e := by
  intro w'
  have hs := h.sound
  have hready := (h.shows hm).ready
  -- the deed was nobody's who is alive
  have hnone : ∀ e', w.deed g = some e' → w.live (who e').val = false := by
    intro e' hd
    rw [hs.owner hready e' hd] at hv
    exact hv (who e') rfl
  have hdeed : w'.deed g = some e := Function.update_self ..
  have hword : ∀ x, x ≠ .segmentOwner → (w'.regions g).hdr x = (w.regions g).hdr x := by
    intro x hx
    rw [World.put_regions, Function.update_self]
    exact Region.hdr_setWord_ne hx _
  have howner : (w'.regions g).hdr .segmentOwner = (who e).val := by
    rw [World.put_regions, Function.update_self]
    exact Region.hdr_setWord (lt_trans (who e).lt (by decide))
  have hfixed : ∀ x : HeaderWord, x.Fixed → (w'.regions g).hdr x = (w.regions g).hdr x := by
    intro x hx
    refine hword x ?_
    rcases hx with rfl | rfl | rfl | rfl <;> decide
  have hlive : w'.live = w.live := World.put_live ..
  have hmaps : w'.maps = w.maps := World.put_maps ..
  have hsegs : w'.segs = w.segs := World.put_segs ..
  have hready' : w'.Ready g := (hfixed _ (Or.inl rfl)).trans hready
  have hs' : Sound who g w' := by
    refine ⟨?_, ?_, fun hu => ?_, fun _ e' hd => ?_, fun e' m' hf hg => ?_⟩
    · rw [World.put_names, hsegs]
      exact hs.named
    · rw [hmaps, hsegs, hlive]
      exact hs.mapped
    · exact absurd hready (hs.unborn (hsegs ▸ hu)).2
    · rw [hdeed] at hd
      cases hd
      exact howner
    · rw [hmaps] at hf
      have hd := hnone e' (hs.flag e' m' hf hg)
      rw [(hs.mapped e' _ hf).2] at hd
      cases hd
  have hkeep : Keeps g w w' := ⟨fun _ => hfixed, fun _ hn => absurd hready' hn⟩
  refine ⟨hs', hkeep, fun e' he => ⟨hkeep, fun pid hp => ?_, fun _ => ?_, fun hl' => ?_,
    fun hl' hd => ?_, fun _ _ hn => absurd hready hn⟩, ⟨⟨⟨hs', fun _ _ => hready'⟩, fun hl' => ?_⟩,
    fun hg => ?_⟩, hdeed⟩
  · rwa [← hlive]
  · rw [hmaps]
  · constructor
    · intro hd
      rw [hdeed] at hd
      cases hd
      exact absurd rfl he
    · intro hd
      rw [hlive, hnone e' hd] at hl'
      cases hl'
  · rw [hlive, hnone e' hd] at hl'
    cases hl'
  · rw [hmaps]
    exact h.maps hl
  · obtain ⟨-, h₂, h₃, h₄⟩ := h.shows hg
    exact ⟨hready', (hfixed _ (Or.inr (Or.inl rfl))).trans h₂,
      (hfixed _ (Or.inr (Or.inr (Or.inl rfl)))).trans h₃,
      (hfixed _ (Or.inr (Or.inr (Or.inr rfl)))).trans h₄⟩

omit [DecidableEq E] in
theorem vacant_stable (v : ℕ) : Stable who g e fun w => Vacant w.live v :=
  fun _ _ h _ hp => h.mono hp.live

/-- A compare-exchange of the deed from a claim that no live process holds. -/
theorem casOwner_valid {old : ℕ} (h₀ : Accepted who g e m b header s.world)
    (hv : Vacant s.world.live old) :
    Valid (Scene.exec who e) (deedCon who g (.endpoint e)) (fun r s =>
        Accepted who g e m b header s.world ∧ (r = .ok () → MayOwn who g e m s.world))
      ((osMapping m).cas .segmentOwner old (who e).val) s := by
  refine valid_deed (accepted_stable.and (vacant_stable old)) ⟨h₀, hv⟩ fun s' hs ⟨hA, hV⟩ hl _ => ?_
  have hex : World.exec who e (.cas m .segmentOwner old (who e).val) s'.world =
      if (s'.world.regions m.seg).hdr .segmentOwner = old then
        (.ok (), s'.world.put m.seg e .segmentOwner (who e).val)
      else (.error ((s'.world.regions m.seg).hdr .segmentOwner), s'.world) := rfl
  simp only [Scene.exec]
  rw [hex] at hl ⊢
  split_ifs at hl ⊢ with hold
  · by_cases hm : m.seg = g
    · rw [hm] at hold ⊢
      have hl' : s'.world.live (who e).val = true := by
        rw [hm] at hl
        rwa [World.put_live] at hl
      obtain ⟨hs', hk, hp, hA', hd⟩ := won_bid hA hm hl' (hold ▸ hV)
      exact ⟨hs', hk, hp, nofun, hA', fun _ _ _ => hd⟩
    · have hc : Calm g s'.world (s'.world.put m.seg e .segmentOwner (who e).val) :=
        calm_put_other hm _ _
      have hs' := hc.sound hs
      exact ⟨hs', hc.keeps, fun e' _ => hc.passes e', nofun, accepted_stable _ _ hA hs' (hc.passes e),
        fun _ _ h => absurd h hm⟩
  · exact ⟨hs, .refl _, fun e' _ => .refl _, nofun, hA, nofun⟩

/-- A probe that answers "dead" shows that the claim is vacant. -/
theorem processAlive_valid (owner : ℕ) (h₀ : Accepted who g e m b header s.world) :
    Valid (Scene.exec who e) (deedCon who g (.endpoint e)) (fun r s =>
        Accepted who g e m b header s.world ∧ (r = false → Vacant s.world.live owner))
      (processAlive (osMapping m) (asU32 owner)) s := by
  unfold processAlive
  split_ifs with hz
  · exact ⟨h₀, fun _ => vacant_of_dead (Or.inl hz)⟩
  · refine valid_deed accepted_stable h₀ fun s' hs hA _ _ => ⟨hs, .refl _, fun e' _ => .refl _, nofun, hA,
      fun hdead => vacant_of_dead (Or.inr hdead)⟩

/-- **A bid**, while others move. -/
theorem claimSegment_valid : ∀ (fuel : ℕ) (s : Scene E), Accepted who g e m b header s.world →
    Valid (Scene.exec who e) (deedCon who g (.endpoint e)) (fun r s =>
        Accepted who g e m b header s.world ∧ (r = some true → MayOwn who g e m s.world))
      (claimSegment (osMapping m) (who e) fuel) s
  | 0, s, h₀ => by
    refine ⟨h₀, fun h => ?_⟩
    cases h
  | fuel + 1, s, h₀ => by
    unfold claimSegment
    refine ((casOwner_valid h₀ (vacant_zero _)).mono fun r s₁ h₁ => ?_).bind
    rcases r with holder | ⟨⟩
    · dsimp only
      split_ifs
      · refine ⟨h₁.1, fun h => ?_⟩
        cases h
      · refine ((processAlive_valid holder h₁.1).mono fun kept s₂ h₂ => ?_).bind
        cases kept with
        | true =>
          refine ⟨h₂.1, fun h => ?_⟩
          cases h
        | false =>
          refine ((casOwner_valid h₂.1 (h₂.2 rfl)).mono fun r s₃ h₃ => ?_).bind
          rcases r with _ | ⟨⟩
          · exact claimSegment_valid fuel s₃ h₃.1
          · exact ⟨h₃.1, fun _ => h₃.2 rfl⟩
    · exact ⟨h₁.1, fun _ => h₁.2 rfl⟩

/-! ## Creating -/

/-- Endpoint `e` is laying down the header of the segment, whose bytes satisfy `R` so far. -/
structure Creating (who : E → Pid) (g : ℕ) (e : E) (m : Shmem) (R : Region → Prop) (w : World E) :
    Prop where
  sound : Sound who g w
  deed : w.live (who e).val = true → w.deed g = some e
  maps : w.live (who e).val = true → w.maps e = some ⟨m, true⟩
  region : w.live (who e).val = true → R (w.regions g)

/-- The words laid down so far; the magic is not one of them. -/
def Laid (l : List (HeaderWord × ℕ)) (r : Region) : Prop :=
  r.hdr .magic = 0 ∧ ∀ p ∈ l, r.hdr p.1 = p.2

omit [DecidableEq E] in
theorem creating_stable (l : List (HeaderWord × ℕ)) :
    Stable who g e (Creating who g e m (Laid l)) := by
  refine fun w w' h hs hp => ⟨hs, fun hl => (hp.deed hl).2 (h.deed (hp.live _ hl)),
    fun hl => (hp.maps hl).trans (h.maps (hp.live _ hl)), fun hl => ?_⟩
  have hl₀ := hp.live _ hl
  have hn : ¬ w.Ready g := by
    rw [World.Ready, (h.region hl₀).1]
    decide
  rw [hp.building hl (h.deed hl₀) hn]
  exact h.region hl₀

omit [DecidableEq E] in
/-- The creator of a segment changes it. -/
theorem lay {w w' : World E} (hs : Sound who g w) (hd : w.deed g = some e) (hn : ¬ w.Ready g)
    (hnames : w'.names = w.names) (hmaps : w'.maps = w.maps) (hsegs : w'.segs = w.segs)
    (hlive : w'.live = w.live) (hd' : w'.deed g = some e)
    (howner : w'.Ready g → (w'.regions g).hdr .segmentOwner = (who e).val) :
    Sound who g w' ∧ Keeps g w w' ∧ ∀ e', e' ≠ e → Passes who g e' w w' := by
  have hkeep : Keeps g w w' := ⟨fun hr => absurd hr hn, fun _ _ => hd'.trans hd.symm⟩
  have hother : ∀ e', e' ≠ e → w.deed g ≠ some e' ∧ w'.deed g ≠ some e' := by
    intro e' he
    rw [hd, hd']
    exact ⟨fun h => he (Option.some.inj h).symm, fun h => he (Option.some.inj h).symm⟩
  refine ⟨⟨?_, ?_, fun hu => ?_, fun hr e' he => ?_, ?_⟩, hkeep, fun e' he => ?_⟩
  · rw [hnames, hsegs]
    exact hs.named
  · rw [hmaps, hsegs, hlive]
    exact hs.mapped
  · rw [(hs.unborn (hsegs ▸ hu)).1] at hd
    cases hd
  · rw [hd'] at he
    cases he
    exact howner hr
  · rw [hmaps, hd', ← hd]
    exact hs.flag
  · obtain ⟨h₁, h₂⟩ := hother e' he
    refine ⟨hkeep, fun pid hl => ?_, fun _ => ?_, fun _ => iff_of_false h₂ h₁,
      fun _ h => absurd h h₁, fun _ h => absurd h h₁⟩
    · rwa [← hlive]
    · rw [hmaps]

/-- What an operation of `init_header` makes of the bytes. -/
def OsOp.laid : OsOp → Region → Region
  | zero _ k, r => r.setByte k 0
  | store _ x v, r => r.setWord x.off v
  | _, r => r

/-- An operation of `init_header`. -/
theorem lay_valid {o : OsOp} (ho : o.Lays g) {l : List (HeaderWord × ℕ)} {A : World E → Prop}
    (h₀ : Creating who g e m (Laid l) s.world)
    (howner : ∀ r, Laid l r → (o.laid r).hdr .magic = MAGIC_VERSION →
      (o.laid r).hdr .segmentOwner = (who e).val)
    (hA : ∀ w, Creating who g e m (fun r => ∃ r₀, Laid l r₀ ∧ r = o.laid r₀) w →
      w.live (who e).val = true → A w) :
    Valid (Scene.exec who e) (deedCon who g (.endpoint e)) (fun _ s => A s.world) (.op o .pure) s := by
  refine valid_deed (creating_stable l) h₀ fun s' hs hC hl _ => ?_
  have hframe : let w' := (World.exec who e o s'.world).2
      w'.names = s'.world.names ∧ w'.maps = s'.world.maps ∧ w'.segs = s'.world.segs ∧
        w'.live = s'.world.live ∧ (s'.world.deed g = some e → w'.deed g = some e) ∧
        w'.regions g = o.laid (s'.world.regions g) := by
    cases o with
    | zero m' k =>
      obtain rfl : m'.seg = g := ho
      exact ⟨rfl, rfl, rfl, rfl, id, Function.update_self ..⟩
    | store m' x v =>
      obtain rfl : m'.seg = g := ho
      refine ⟨World.put_names .., World.put_maps .., World.put_segs .., World.put_live .., fun hd => ?_,
        ?_⟩
      · simp only [World.exec, World.put]
        split_ifs
        · exact Function.update_self ..
        · exact hd
      · simp only [World.exec, World.put_regions]
        exact Function.update_self ..
    | _ => exact ho.elim
  obtain ⟨hnames, hmaps, hsegs, hlive, hdeed, hregion⟩ := hframe
  have hl₀ : s'.world.live (who e).val = true := hlive ▸ hl
  have hR := hC.region hl₀
  have hn : ¬ s'.world.Ready g := by
    rw [World.Ready, hR.1]
    decide
  obtain ⟨hs', hk, hp⟩ := lay hs (hC.deed hl₀) hn hnames hmaps hsegs hlive (hdeed (hC.deed hl₀)) (by
    rw [World.Ready, hregion]
    exact howner _ hR)
  refine ⟨hs', hk, hp, fun _ => ⟨hC.deed hl₀, hn⟩, hA _ ⟨hs', fun _ => hdeed (hC.deed hl₀), fun _ => ?_,
    fun _ => ?_⟩ hl⟩
  · exact (congrFun hmaps e).trans (hC.maps hl₀)
  · exact ⟨_, hR, hregion⟩

omit [DecidableEq E] in
theorem Creating.mono {R R' : Region → Prop} {w : World E} (h : Creating who g e m R w)
    (hR : ∀ r, R r → R' r) : Creating who g e m R' w :=
  ⟨h.sound, h.deed, h.maps, fun hl => hR _ (h.region hl)⟩

/-- Zeroing a byte of a new segment. -/
theorem zero_valid (hm : m.seg = g) (k : ℕ) (h₀ : Creating who g e m (Laid []) s.world) :
    Valid (Scene.exec who e) (deedCon who g (.endpoint e))
      (fun _ s => Creating who g e m (Laid []) s.world) (.op (.zero m k) .pure) s := by
  refine lay_valid (o := .zero m k) hm h₀ (fun r hr hmagic => ?_) fun w hw _ => hw.mono ?_
  · rw [OsOp.laid, setByte_zero hr.1] at hmagic
    exact absurd hmagic (by decide)
  · rintro _ ⟨r, hr, rfl⟩
    exact ⟨setByte_zero hr.1 k, nofun⟩

/-- Storing a word before the magic. -/
theorem store_valid (hm : m.seg = g) {x : HeaderWord} (hx : x ≠ .magic) {v : ℕ} (hv : v < 2 ^ 64)
    {l : List (HeaderWord × ℕ)} (hl : ∀ p ∈ l, p.1 ≠ x)
    (h₀ : Creating who g e m (Laid l) s.world) :
    Valid (Scene.exec who e) (deedCon who g (.endpoint e))
      (fun _ s => Creating who g e m (Laid ((x, v) :: l)) s.world) (.op (.store m x v) .pure) s := by
  refine lay_valid (o := .store m x v) hm h₀ (fun r hr hmagic => ?_) fun w hw _ => hw.mono ?_
  · rw [OsOp.laid, Region.hdr_setWord_ne hx.symm, hr.1] at hmagic
    exact absurd hmagic (by decide)
  · rintro _ ⟨r, hr, rfl⟩
    refine ⟨(Region.hdr_setWord_ne hx.symm v).trans hr.1, fun p hp => ?_⟩
    rcases List.mem_cons.1 hp with rfl | hp
    · exact Region.hdr_setWord hv
    · exact (Region.hdr_setWord_ne (hl p hp) v).trans (hr.2 p hp)

/-- The last store makes the header visible. -/
theorem magic_valid (hm : m.seg = g) {l : List (HeaderWord × ℕ)} (hl : ∀ p ∈ l, p.1 ≠ .magic)
    (howner : (.segmentOwner, (who e).val) ∈ l) (h₀ : Creating who g e m (Laid l) s.world) :
    Valid (Scene.exec who e) (deedCon who g (.endpoint e))
      (fun _ s => Opened who g e m true s.world ∧ ∀ p ∈ l, Word g m p.1 p.2 s.world)
      (.op (.store m .magic MAGIC_VERSION) .pure) s := by
  have hwords : ∀ r, Laid l r → ∀ p ∈ l,
      (r.setWord HeaderWord.magic.off MAGIC_VERSION).hdr p.1 = p.2 := fun r hr p hp =>
    (Region.hdr_setWord_ne (hl p hp) _).trans (hr.2 p hp)
  have hpid : ∀ r, Laid l r →
      (r.setWord HeaderWord.magic.off MAGIC_VERSION).hdr .segmentOwner = (who e).val :=
    fun r hr => hwords r hr (.segmentOwner, (who e).val) howner
  refine lay_valid (o := .store m .magic MAGIC_VERSION) (A := fun w => Opened who g e m true w ∧
    ∀ p ∈ l, Word g m p.1 p.2 w) hm h₀ (fun r hr _ => hpid r hr) fun w hw hlive => ?_
  obtain ⟨r, hr, hreg⟩ := hw.region hlive
  rw [OsOp.laid] at hreg
  have hready : w.Ready g := by
    rw [World.Ready, hreg]
    exact Region.hdr_setWord (by decide)
  refine ⟨⟨⟨hw.sound, fun _ _ => hready⟩, hw.maps⟩, fun p hp _ => ⟨hready, ?_⟩⟩
  rw [hreg]
  exact hwords r hr p hp

/-- `init_header` on a segment that others need not know of. -/
theorem initSegment_quiet (hm : m.seg ≠ g) (payloadBytes entryCount : ℕ) (dtype : Dtype) (me : Pid) :
    (initSegment m payloadBytes entryCount dtype me).All (OsOp.Quiet g m) := by
  have hstore : ∀ x v, (.op (.store m x v) .pure : OsProg Unit).All (OsOp.Quiet g m) :=
    fun x v => ⟨hm, fun _ => trivial⟩
  have hzero : ∀ k, (.op (.zero m k) .pure : OsProg Unit).All (OsOp.Quiet g m) :=
    fun k => ⟨hm, fun _ => trivial⟩
  refine (Prog.All.foldlM (fun _ k => hzero k) _ _).bind fun _ => ?_
  exact (hstore _ _).bind fun _ => (hstore _ _).bind fun _ => (hstore _ _).bind fun _ =>
    (hstore _ _).bind fun _ => hstore _ _

/-- **`init_header`** by the creator of the segment. -/
theorem initSegment_valid (hm : m.seg = g) {payloadBytes entryCount : ℕ} (hpb : payloadBytes < 2 ^ 64)
    (hn : entryCount < 2 ^ 64) (dtype : Dtype) (h₀ : Creating who g e m (Laid []) s.world) :
    Valid (Scene.exec who e) (deedCon who g (.endpoint e)) (fun _ s => Opened who g e m true s.world ∧
        Word g m .payloadBytes payloadBytes s.world ∧ Word g m .entryCount entryCount s.world)
      (initSegment m payloadBytes entryCount dtype (who e)) s := by
  unfold initSegment initHeader
  refine ((Valid.foldlM (I := fun _ _ (s : Scene E) => Creating who g e m (Laid []) s.world)
    (fun k _ _ s hI => zero_valid hm k hI) _ () s h₀).mono fun _ s₁ h₁ => ?_).bind
  refine ((store_valid (x := .payloadBytes) hm (by decide) hpb (by simp) h₁).mono fun _ s₂ h₂ => ?_).bind
  refine ((store_valid (x := .entryCount) hm (by decide) hn (by simp) h₂).mono fun _ s₃ h₃ => ?_).bind
  refine ((store_valid (x := .dtype) hm (by decide) dtype.code_lt (by simp) h₃).mono fun _ s₄ h₄ => ?_).bind
  refine ((store_valid (x := .segmentOwner) hm (by decide)
    (lt_trans (who e).lt (by decide)) (by simp) h₄).mono fun _ s₅ h₅ => ?_).bind
  refine (magic_valid hm (by simp) (by simp) h₅).mono fun _ s₆ ⟨hopen, hw⟩ => ?_
  exact ⟨hopen, hw (.payloadBytes, payloadBytes) (by simp), hw (.entryCount, entryCount) (by simp)⟩

end

end ZeroChannel
