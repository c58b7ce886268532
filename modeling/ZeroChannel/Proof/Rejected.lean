/-
  What an open that fails leaves behind.

  Nothing, if it fails before it bids for the deed, or bids in vain.  A constructor that
  wins the deed and is then refused its role drops the mapping with the owner flag set,
  and the name of a healthy channel is gone (`open_evicts`).
-/
import ZeroChannel.Proof.Inside

namespace ZeroChannel

open Concur

variable {E : Type} [DecidableEq E]

/-- The call is accepted with its geometry and takes the deed of the segment.  (A segment of no
    bytes is neither created nor opened.) -/
structure TakesDeed (args : OpenArgs) (me : Pid) (live : ℕ → Bool) (r : Region) : Prop where
  mapped : r.len ≠ 0
  geometry : ∃ pb n, args.payloadBytes = some pb ∧ args.entryCount = some n ∧
    checkGeometry pb n = .ok () ∧ requiredBytes pb n ≠ 0 ∧
    r.hdr .payloadBytes = pb ∧ r.hdr .entryCount = n
  dtype : args.dtype = .u8 ∨ r.hdr .dtype = args.dtype.code
  deed : Biddable live me (r.hdr .segmentOwner)

/-- The call takes the deed of the segment and is then refused its role. -/
structure Evicts (args : OpenArgs) (me : Pid) (live : ℕ → Bool) (r : Region) : Prop
    extends TakesDeed args me live r where
  role : Conflict args.kind live r.hdr

section
variable {who : E → Pid} {e : E} {w : World E} {args : OpenArgs} {g : ℕ}

/-- The bid for the deed does not touch the roles. -/
theorem conflict_put {kind : Kind} {live : ℕ → Bool} {r : Region} (v : ℕ) :
    Conflict kind live (r.setWord HeaderWord.segmentOwner.off v).hdr ↔ Conflict kind live r.hdr := by
  have hcell : ∀ role : Role, (r.setWord HeaderWord.segmentOwner.off v).hdr role.cell =
      r.hdr role.cell := by
    intro role
    exact Region.hdr_setWord_ne (by cases role <;> decide) v
  unfold Conflict
  simp only [hcell]

/-- The world in which endpoint `e` has taken the deed. -/
def World.tookDeed (w : World E) (e : E) (me : Pid) (m : Shmem) : World E :=
  (w.put m.seg e .segmentOwner me.val).mapped e ⟨m, true⟩

/-- `open_or_create` on an initialised segment, a geometry supplied. -/
theorem openOrCreate_initialised (who : E → Pid) (me : Pid) (hname : w.names args.name = some g)
    (hinit : (w.regions g).hdr .magic = MAGIC_VERSION) (hmap : w.maps e = none) {pb n : ℕ}
    (hpb : args.payloadBytes = some pb) (hn : args.entryCount = some n)
    (hok : checkGeometry pb n = .ok ()) (hsize : requiredBytes pb n ≠ 0)
    (hlen : (w.regions g).len ≠ 0) (fuel : ℕ) :
    (openOrCreate me args.name args.payloadBytes args.entryCount args.dtype
      args.delayedConnect (fuel + 1)).run (World.exec who e) w =
      match acceptOf (w.regions g).hdr pb n args.dtype with
      | .error er => (some (.error er), w)
      | .ok (some header) => (some (.ok (some (⟨args.name, g⟩, header))),
          if Biddable w.live me ((w.regions g).hdr .segmentOwner) then
            w.tookDeed e me ⟨args.name, g⟩
          else w.mapped e ⟨⟨args.name, g⟩, false⟩)
      | .ok none => (some (.ok none), w) := by
  rw [openOrCreate_taken hname hpb hn hok hsize, openExisting_alone me hname hlen hmap]
  rcases hacc : acceptOf (w.regions g).hdr pb n args.dtype with er | _ | header
  · rfl
  · have h0 := acceptOf_none.1 hacc
    rw [hinit] at h0
    exact absurd h0 (by decide)
  · rfl

/-- `open_or_create` on an initialised segment takes the deed, or changes nothing but that
    the segment is mapped. -/
theorem open_initialised (who : E → Pid) (me : Pid) (hname : w.names args.name = some g)
    (hinit : (w.regions g).hdr .magic = MAGIC_VERSION) (hmap : w.maps e = none) (fuel : ℕ) :
    let run := (openOrCreate me args.name args.payloadBytes args.entryCount args.dtype
      args.delayedConnect (fuel + 1)).run (World.exec who e) w
    (TakesDeed args me w.live (w.regions g) →
      ∃ header, run = (some (.ok (some (⟨args.name, g⟩, header))), w.tookDeed e me ⟨args.name, g⟩)) ∧
    (¬ TakesDeed args me w.live (w.regions g) →
      (∃ er, run = (some (.error er), w)) ∨ run = (some (.ok none), w) ∨
      ∃ header, run = (some (.ok (some (⟨args.name, g⟩, header))),
        w.mapped e ⟨⟨args.name, g⟩, false⟩)) := by
  intro run
  constructor
  · rintro ⟨hlen, ⟨pb, n, hpb, hn, hok, hsize, h₁, h₂⟩, hd, hv⟩
    have hrun : run = _ :=
      openOrCreate_initialised who me hname hinit hmap hpb hn hok hsize hlen fuel
    rw [acceptOf_some.2 ⟨hinit, rfl, ⟨h₁, h₂⟩, hd⟩] at hrun
    dsimp only at hrun
    rw [if_pos hv] at hrun
    exact ⟨_, hrun⟩
  · intro hno
    rcases hpb : args.payloadBytes with _ | pb <;> rcases hn : args.entryCount with _ | n
    · exact open_tenant who hname hmap hpb hn fuel
    · have hrun : run = (openOrCreate me args.name none (some n) args.dtype args.delayedConnect
          (fuel + 1)).run (World.exec who e) w := by simp only [run, hpb, hn]
      exact Or.inl ⟨_, hrun.trans rfl⟩
    · have hrun : run = (openOrCreate me args.name (some pb) none args.dtype args.delayedConnect
          (fuel + 1)).run (World.exec who e) w := by simp only [run, hpb, hn]
      exact Or.inl ⟨_, hrun.trans rfl⟩
    · rcases hok : checkGeometry pb n with er | ⟨⟩
      · refine Or.inl ⟨er, ?_⟩
        simp only [run, openOrCreate, hpb, hn, hok]
        rfl
      · by_cases hsize : requiredBytes pb n = 0
        · exact Or.inl ⟨_, openOrCreate_zero hpb hn hok hsize⟩
        by_cases hlen : (w.regions g).len = 0
        · exact Or.inl ⟨_, (openOrCreate_taken hname hpb hn hok hsize).trans
            (openExisting_empty me hname hlen pb n args.dtype _)⟩
        have hrun : run = _ :=
          openOrCreate_initialised who me hname hinit hmap hpb hn hok hsize hlen fuel
        rw [hrun]
        rcases hacc : acceptOf (w.regions g).hdr pb n args.dtype with er | _ | header
        · exact Or.inl ⟨er, rfl⟩
        · exact Or.inr (Or.inl rfl)
        · obtain ⟨-, -, hg, hd⟩ := acceptOf_some.1 hacc
          dsimp only
          rw [if_neg fun hv => hno ⟨hlen, ⟨pb, n, hpb, hn, hok, hsize, hg⟩, hd, hv⟩]
          exact Or.inr (Or.inr ⟨header, rfl⟩)

/-- **A rejected open.**  On an initialised segment, a constructor that fails leaves the name
    and every byte as they were, exactly when it does not take the deed before it is refused
    its role. -/
theorem open_rejected (hname : w.names args.name = some g)
    (hinit : (w.regions g).hdr .magic = MAGIC_VERSION) (hmap : w.maps e = none) (fuel : ℕ) :
    (∀ er, ((construct (who e) args (fuel + 1)).run (World.exec who e) w).1 = some (.error er) →
      ((construct (who e) args (fuel + 1)).run (World.exec who e) w).2.names = w.names ∧
      ((construct (who e) args (fuel + 1)).run (World.exec who e) w).2.regions = w.regions) ↔
    ¬ Evicts args (who e) w.live (w.regions g) := by
  obtain ⟨htakes, htenant⟩ := open_initialised who (who e) hname hinit hmap fuel
  by_cases ht : TakesDeed args (who e) w.live (w.regions g)
  · obtain ⟨header, hrun⟩ := htakes ht
    obtain ⟨hconf, hfree⟩ := construct_bound hrun
    have hregion : ((w.tookDeed e (who e) ⟨args.name, g⟩).regions g) =
        (w.regions g).setWord HeaderWord.segmentOwner.off (who e).val := Function.update_self ..
    rw [show (⟨args.name, g⟩ : Shmem).seg = g from rfl, hregion, conflict_put] at hconf hfree
    by_cases hc : Conflict args.kind w.live (w.regions g).hdr
    · -- refused, with the deed in hand: the name goes with the mapping
      obtain ⟨msg, hm⟩ := hconf hc
      rw [hm]
      refine ⟨fun h => absurd (h _ rfl).1 fun heq => ?_, fun hev => absurd ⟨ht, hc⟩ hev⟩
      have hgone : ((w.tookDeed e (who e) ⟨args.name, g⟩).closed e).names args.name = none := by
        simp [World.tookDeed, World.closed, World.mapped]
      rw [heq, hname] at hgone
      cases hgone
    · obtain ⟨inner, hi⟩ := hfree hc
      rw [hi]
      refine ⟨fun _ hev => hc hev.role, fun _ er he => ?_⟩
      cases he
  · refine ⟨fun _ hev => ht hev.toTakesDeed, fun _ er he => ?_⟩
    rcases htenant ht with ⟨er', hrun⟩ | hrun | ⟨header, hrun⟩
    · rw [construct_error hrun]
      exact ⟨rfl, rfl⟩
    · rw [construct_absent hrun]
      exact ⟨rfl, rfl⟩
    · obtain ⟨hconf, hfree⟩ := construct_bound hrun
      by_cases hc : Conflict args.kind w.live (w.regions g).hdr
      · obtain ⟨msg, hm⟩ := hconf hc
        rw [hm, World.mapped_closed hmap]
        exact ⟨rfl, rfl⟩
      · obtain ⟨inner, hi⟩ := hfree hc
        rw [hi] at he
        cases he

end

/-- The error of a call that failed. -/
def refusal {α : Type} : Option (Except ZeroChannelError α) → Option ZeroChannelError
  | some (.error er) => some er
  | _ => none

theorem refusal_some {α : Type} {a : Option (Except ZeroChannelError α)} {er : ZeroChannelError}
    (h : refusal a = some er) : a = some (.error er) := by
  rcases a with _ | er' | v
  · cases h
  · cases h
    rfl
  · cases h

/-- A wrong geometry is refused before the bid. -/
theorem open_rejected_geometry :
    ((construct .seven (.tiny 2 (by decide)) 1).run (World.exec (fun _ => .seven) ())
      (.single (.claiming 88 1) fun _ => true)).2.names "ch" = some 0 := by
  have herr : ((construct .seven (.tiny 2 (by decide)) 1).run (World.exec (fun _ => .seven) ())
      (.single (.claiming 88 1) fun _ => true)).1 = some (.error (.invalidArgument
        "header mismatch: expected (8 payload bytes, 2 entries), found (8 payload bytes, 1 entries)")) :=
    refusal_some (by decide +kernel)
  have hno : ¬ Evicts (.tiny 2 (by decide)) .seven (fun _ => true) (Region.claiming 88 1) := by
    intro hev
    obtain ⟨pb, n, -, hn, -, -, -, hcount⟩ := hev.geometry
    cases hn
    exact absurd hcount (by decide)
  have h := (@open_rejected Unit _ (fun _ => .seven) () (.single (.claiming 88 1) fun _ => true)
    (.tiny 2 (by decide)) 0 rfl rfl rfl 0).2 hno _ herr
  rw [h.1]
  rfl

/-- A segment of one slot whose owner, process 3, is gone; process 9 writes to it. -/
def Region.deserted : Region :=
  ((Region.claiming 88 1).setWord HeaderWord.segmentOwner.off 3).setWord HeaderWord.writerOwner.off 9

/-- A second writer adopts the deed of the dead owner, is refused the writer role, and takes
    the name of the first writer's channel with it. -/
theorem open_evicts :
    let w := World.single .deserted fun pid => pid != 3
    let run := (construct .seven (.tiny 1 (by decide)) 1).run (World.exec (fun _ => .seven) ()) w
    w.names "ch" = some 0 ∧ (w.regions 0).hdr .magic = MAGIC_VERSION ∧
      (∃ msg, run.1 = some (.error (.roleConflict msg))) ∧ run.2.names "ch" = none := by
  refine ⟨rfl, by decide, ⟨"the writer role on channel 'ch' is held by process 9", ?_⟩, ?_⟩
  · exact refusal_some (by decide +kernel)
  · decide +kernel

end ZeroChannel
