/-
  Endpoints and the length of their mapping.

  `open_or_create` compares the length of a segment with the geometry only when the
  segment carries no magic; a header that is there is believed.  So an endpoint stays
  inside its mapping exactly when that header is honest (`open_inside`).
-/
import ZeroChannel.Proof.OpenAlone
import ZeroChannel.Proof.Layout

namespace ZeroChannel

open Concur

variable {E : Type} [DecidableEq E]

/-- The ring that the header describes lies inside a mapping of `len` bytes, and its slot
    words are aligned. -/
structure Header.Inside (h : Header) (len : ℕ) : Prop where
  payload : h.payloadBytes ≠ 0 ∧ h.payloadBytes % SLOT_ALIGN = 0
  count : h.entryCount ≠ 0
  exact : exactBytes h.payloadBytes h.entryCount ≤ len

/-- What the checks of `try_attach` leave to the header. -/
def HonestHeader (r : Region) : Prop :=
  r.hdr .payloadBytes % SLOT_ALIGN = 0 ∧
    exactBytes (r.hdr .payloadBytes) (r.hdr .entryCount) ≤ r.len

/-- What `open_or_create` leaves to a segment that it opens with a geometry. -/
def HonestSize (pb n : ℕ) (r : Region) : Prop :=
  if r.hdr .magic = 0 then exactBytes pb n < 2 ^ 64 else exactBytes pb n ≤ r.len

/-- What the checks of `open_or_create` leave to the segment and the arguments. -/
def Honest (payloadBytes entryCount : Option ℕ) (r : Region) : Prop :=
  match payloadBytes, entryCount with
  | some pb, some n => HonestSize pb n r
  | _, _ => HonestHeader r

/-- Every access to the ring is inside the mapping, and every word is aligned. -/
theorem Header.Inside.access {h : Header} {len : ℕ} (hi : h.Inside len) (hlen : len < 2 ^ 64)
    {i : ℕ} (hin : i < h.entryCount) :
    Region.seqOffset h.payloadBytes i + SLOT_ALIGN ≤ len ∧
      Region.payloadOffset h.payloadBytes i + h.payloadBytes ≤ len ∧
      Region.seqOffset h.payloadBytes i % SLOT_ALIGN = 0 := by
  have hexact := lt_of_le_of_lt hi.exact hlen
  have hslot := exactOffset_add_le h.payloadBytes hin
  have hle := hi.exact
  rw [seqOffset_exact hin hexact, payloadOffset_exact hin hexact]
  refine ⟨by omega, by omega, ?_⟩
  obtain ⟨k, hk⟩ := Nat.dvd_of_mod_eq_zero hi.payload.2
  refine Nat.mod_eq_zero_of_dvd (Nat.dvd_add ⟨9, rfl⟩ (Dvd.dvd.mul_left ?_ _))
  exact Nat.dvd_add (dvd_refl _) ⟨k, hk⟩

section
variable {who : E → Pid} {e : E} {w : World E} {name : String} {g : ℕ} {m : Shmem} {header : Header}

theorem tryAttach_inside (hname : w.names name = some g) (hmap : w.maps e = none) {dtype : Dtype}
    (hrun : ((tryAttach name dtype).run (World.exec who e) w).1 = some (.ok (some (m, header)))) :
    m = ⟨name, g⟩ ∧ (header.Inside (w.regions g).len ↔ HonestHeader (w.regions g)) := by
  rw [tryAttach_alone hmap, hname] at hrun
  dsimp only at hrun
  by_cases hzero : (w.regions g).len = 0
  · rw [if_pos hzero] at hrun
    cases hrun
  rw [if_neg hzero] at hrun
  rcases hatt : attachOf (w.regions g).hdr dtype with er | _ | h <;> rw [hatt] at hrun
  · cases hrun
  · cases hrun
  · cases hrun
    obtain ⟨-, rfl, hnz, -⟩ := attachOf_some.1 hatt
    refine ⟨rfl, fun hi => ⟨hi.payload.2, hi.exact⟩, fun hh => ⟨⟨hnz.1, hh.1⟩, hnz.2, hh.2⟩⟩

/-- The header that an initialisation lays down has the geometry asked for. -/
theorem initialised_describes (r : Region) {pb n : ℕ} (hok : checkGeometry pb n = .ok ())
    (hpb : pb < 2 ^ 64) (hn : n < 2 ^ 64) (dtype : Dtype) (me : Pid) :
    (r.initialised pb n dtype me.val).hdr .payloadBytes = pb ∧
      (r.initialised pb n dtype me.val).hdr .entryCount = n := by
  obtain ⟨h₁, h₂, h₃⟩ := checkGeometry_ok.1 hok
  have hs := InitArgs.stored ⟨⟨pb, n, h₁, h₂, h₃⟩, ⟨hpb, hn⟩, dtype, me⟩
    ((List.range (requiredBytes pb n)).foldl (fun r k => r.setByte k 0) r)
  exact ⟨hs.payload, hs.count⟩

theorem openExisting_inside (hname : w.names name = some g) (hmap : w.maps e = none)
    (hlen : (w.regions g).len < 2 ^ 64) {pb n : ℕ} (hok : checkGeometry pb n = .ok ())
    (hpb : pb < 2 ^ 64) (hn : n < 2 ^ 64) {dtype : Dtype} {me : Pid} {fuel : ℕ}
    (hrun : ((openExisting me name pb n dtype (fuel + 1)).run (World.exec who e) w).1 =
      some (.ok (some (m, header)))) :
    m = ⟨name, g⟩ ∧ (header.Inside (w.regions g).len ↔ HonestSize pb n (w.regions g)) := by
  obtain ⟨hpos, hcount, halign⟩ := checkGeometry_ok.1 hok
  by_cases hzero : (w.regions g).len = 0
  · rw [openExisting_empty me hname hzero] at hrun
    cases hrun
  rw [openExisting_alone me hname hzero hmap] at hrun
  unfold HonestSize
  rcases hacc : acceptOf (w.regions g).hdr pb n dtype with er | _ | h <;> rw [hacc] at hrun
  · cases hrun
  · rw [if_pos (acceptOf_none.1 hacc)]
    dsimp only at hrun
    by_cases hsmall : (w.regions g).len < requiredBytes pb n
    · rw [if_pos hsmall] at hrun
      cases hrun
    rw [if_neg hsmall] at hrun
    cases hrun
    obtain ⟨h₁, h₂⟩ := initialised_describes (w.regions g) hok hpb hn dtype me
    refine ⟨rfl, fun hi => ?_, fun hx => ⟨⟨?_, ?_⟩, ?_, ?_⟩⟩
    · have := hi.exact
      simp only [Header.ofWords, h₁, h₂] at this
      omega
    · exact h₁.trans_ne hpos.ne'
    · simpa only [Header.ofWords, h₁] using halign
    · exact h₂.trans_ne hcount.ne'
    · rw [requiredBytes_exact hx] at hsmall
      simpa only [Header.ofWords, h₁, h₂] using not_lt.1 hsmall
  · cases hrun
    obtain ⟨hm, rfl, ⟨h₁, h₂⟩, -⟩ := acceptOf_some.1 hacc
    rw [if_neg (by rw [hm]; decide)]
    refine ⟨rfl, fun hi => ?_, fun hx => ⟨⟨?_, ?_⟩, ?_, ?_⟩⟩
    · simpa only [Header.ofWords, h₁, h₂] using hi.exact
    · exact h₁.trans_ne hpos.ne'
    · simpa only [Header.ofWords, h₁] using halign
    · exact h₂.trans_ne hcount.ne'
    · simpa only [Header.ofWords, h₁, h₂] using hx

/-- **Endpoints and their mapping.**  When an existing segment is opened, the endpoint stays
    inside its mapping exactly when what the checks leave to the header, or to the size asked
    for, is honest. -/
theorem open_inside {args : OpenArgs} (hname : w.names args.name = some g) (hmap : w.maps e = none)
    (hlen : (w.regions g).len < 2 ^ 64) (fuel : ℕ) :
    (∀ m header, ((openOrCreate (who e) args.name args.payloadBytes args.entryCount args.dtype
        args.delayedConnect (fuel + 1)).run (World.exec who e) w).1 =
          some (.ok (some (m, header))) →
      m = ⟨args.name, g⟩ ∧ (header.Inside (w.regions g).len ↔
        Honest args.payloadBytes args.entryCount (w.regions g))) ∧
    (∀ m header, ((tryAttach args.name args.dtype).run (World.exec who e) w).1 =
          some (.ok (some (m, header))) →
      m = ⟨args.name, g⟩ ∧ (header.Inside (w.regions g).len ↔ HonestHeader (w.regions g))) ∧
    ∀ header : Header, header.Inside (w.regions g).len → ∀ i < header.entryCount,
      Region.seqOffset header.payloadBytes i + SLOT_ALIGN ≤ (w.regions g).len ∧
      Region.payloadOffset header.payloadBytes i + header.payloadBytes ≤ (w.regions g).len ∧
      Region.seqOffset header.payloadBytes i % SLOT_ALIGN = 0 := by
  refine ⟨fun m header hrun => ?_, fun m header => tryAttach_inside hname hmap,
    fun header hi i hin => hi.access hlen hin⟩
  obtain ⟨hupb, hun⟩ := args.usize
  unfold openOrCreate at hrun
  rcases hpb : args.payloadBytes with _ | pb <;> rcases hn : args.entryCount with _ | n <;>
    rw [hpb, hn] at hrun
  · dsimp only at hrun
    rw [Prog.run_bind] at hrun
    have hsnd : ((tryAttach args.name args.dtype).run (World.exec who e) w).1 =
        some (.ok (some (m, header))) := by
      rcases hatt : ((tryAttach args.name args.dtype).run (World.exec who e) w).1 with
        _ | _ | _ | pair <;> rw [hatt] at hrun
      · cases hrun
      · cases hrun
      · dsimp only at hrun
        split_ifs at hrun <;> cases hrun
      · exact hrun
    exact tryAttach_inside hname hmap hsnd
  · cases hrun
  · cases hrun
  · dsimp only at hrun
    rcases hok : checkGeometry pb n with _ | ⟨⟩ <;> rw [hok] at hrun
    · cases hrun
    · dsimp only at hrun
      by_cases hsize : requiredBytes pb n = 0
      · rw [Prog.run_bind, createSegment_alone, if_pos hsize] at hrun
        cases hrun
      rw [Prog.run_bind, createSegment_alone, if_neg hsize, hname] at hrun
      exact openExisting_inside hname hmap hlen hok (hupb pb hpb) (hun n hn) hrun

end

/-- A world with one segment, under the name `ch`, where the processes `live` are alive. -/
def World.single (r : Region) (live : ℕ → Bool) : World Unit where
  names n := if n = "ch" then some 0 else none
  regions _ := r
  segs := 1
  maps _ := none
  live := live
  mapSizeZero := "MapSizeZero"
  refuses _ _ := none
  deed _ := none

/-- A region of `len` bytes whose header describes `n` slots of eight bytes. -/
def Region.claiming (len n : ℕ) : Region :=
  (((Region.zeroed len).setWord HeaderWord.payloadBytes.off 8).setWord HeaderWord.entryCount.off
    n).setWord HeaderWord.magic.off MAGIC_VERSION

/-- A writer for `n` slots of eight bytes under the name `ch`. -/
def OpenArgs.tiny (n : ℕ) (h : n < 2 ^ 64) : OpenArgs where
  kind := .writer
  name := "ch"
  payloadBytes := some 8
  entryCount := some n
  dtype := .u8
  delayedConnect := false
  usize := ⟨fun _ hx => by cases hx; decide, fun _ hx => by cases hx; exact h⟩

/-- Process 7. -/
def Pid.seven : Pid := ⟨6 + 1, Nat.succ_pos 6, by decide⟩

/-- One slot of eight bytes, in a segment just long enough. -/
theorem open_inside_exact : (⟨8, 1, 0, 0, 0⟩ : Header).Inside 88 := by
  have hrun : ((openOrCreate .seven "ch" (some 8) (some 1) .u8 false 1).run
      (World.exec (fun _ => .seven) ()) (.single (.claiming 88 1) fun _ => true)).1 =
        some (.ok (some (⟨"ch", 0⟩, ⟨8, 1, 0, 0, 0⟩))) := by decide +kernel
  have h := @open_inside Unit _ (fun _ => .seven) () (.single (.claiming 88 1) fun _ => true) 0
    (.tiny 1 (by decide)) rfl rfl (by decide) 0
  have hmagic : (Region.claiming 88 1).hdr .magic ≠ 0 := by decide
  have hsize : HonestSize 8 1 (Region.claiming 88 1) := by
    unfold HonestSize
    rw [if_neg hmagic]
    decide
  exact ((h.1 _ _ hrun).2).2 hsize

/-- A bare header that promises four slots is believed, with and without a geometry. -/
theorem open_outside :
    ((openOrCreate .seven "ch" (some 8) (some 4) .u8 false 1).run
      (World.exec (fun _ => .seven) ()) (.single (.claiming 72 4) fun _ => true)).1 =
        some (.ok (some (⟨"ch", 0⟩, ⟨8, 4, 0, 0, 0⟩))) ∧
    ((tryAttach "ch" .u8).run (World.exec (fun _ => .seven) ()) (.single (.claiming 72 4) fun _ =>
      true)).1 = some (.ok (some (⟨"ch", 0⟩, ⟨8, 4, 0, 0, 0⟩))) ∧
    ((World.single (.claiming 72 4) fun _ => true).regions 0).len = 72 ∧
    ¬ (⟨8, 4, 0, 0, 0⟩ : Header).Inside 72 := by
  refine ⟨by decide +kernel, by decide +kernel, rfl, fun h => ?_⟩
  have := h.exact
  exact absurd this (by decide)

end ZeroChannel
