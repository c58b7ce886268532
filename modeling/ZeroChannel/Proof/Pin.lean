/-
  Pinned slots.

  `claim_slot` loads the word of a slot and stores `0` into it in two steps.  A
  compare-exchange that lands in between pins a slot the writer then erases
  (`pin_lost`).  In runs where no compare-exchange does so, a slot is untouched
  from the moment it is pinned until it is released (`pin_safety`).

  `PinInv` ties slot words, payloads and pins to the histories; the writer keeps
  negative slots as they are, and the readers never touch a slot whose word is
  `0` or, while the writer is about to clear it, make its word negative.
-/
import ZeroChannel.Proof.Ops
import Mathlib.Data.List.Nodup

namespace ZeroChannel

open Concur

variable {G : Geometry}

/-! ## The invariant -/

/-- Entry `s` was published with the payload `bytes`. -/
def Published (log : List (List UInt8)) (s : ℕ) (bytes : List UInt8) : Prop :=
  ∃ k, log[k]? = some bytes ∧ asI64 (u64 (k + 1)) = s

theorem Published.append {log : List (List UInt8)} {s : ℕ} {bytes : List UInt8}
    (h : Published log s bytes) (data : List UInt8) : Published (log ++ [data]) s bytes := by
  obtain ⟨k, hk, hs⟩ := h
  obtain ⟨hlt, rfl⟩ := List.getElem?_eq_some_iff.1 hk
  exact ⟨k, by rw [List.getElem?_append_left hlt]; exact hk, hs⟩

/-- Below `2 ^ 63` publishes, entry `s` is the `s`-th one. -/
theorem Published.get {log : List (List UInt8)} {s : ℕ} {bytes : List UInt8}
    (h : Published log s bytes) (hl : log.length < 2 ^ 63) :
    0 < s ∧ log[s - 1]? = some bytes := by
  obtain ⟨k, hk, hs⟩ := h
  obtain ⟨hlt, rfl⟩ := List.getElem?_eq_some_iff.1 hk
  have hks : s = k + 1 := by
    rcases Nat.lt_or_ge (k + 1) (2 ^ 63) with hk' | hk'
    · rw [u64_of_lt (by omega), asI64_of_lt hk'] at hs; exact_mod_cast hs.symm
    · have : k + 1 = 2 ^ 63 := by omega
      rw [this] at hs; simp [u64, asI64] at hs
  subst hks
  exact ⟨Nat.succ_pos k, by simp [hk]⟩

/-- Slot words, payloads and pins agree with the histories. -/
structure PinInv (h : Hist G) : Prop where
  lt : ∀ i, h.seg.words i < 2 ^ 63
  pub : ∀ i, 0 < h.seg.words i →
    Published h.log (h.seg.words i).toNat (bytesOf (h.seg.payload i))
  pin : ∀ x ∈ h.held, 0 < x.entrySeq ∧ h.seg.words x.index = -(x.entrySeq : ℤ) ∧
    Published h.log x.entrySeq (x.asBytes h.seg)
  nodup : h.held.Nodup

namespace PinInv
variable {h : Hist G} (hI : PinInv h)
include hI

theorem held_ne {x : ReadHandle G} (hx : x ∈ h.held) {i : Slot G} (hi : 0 ≤ h.seg.words i) :
    x.index ≠ i := by
  rintro rfl
  have := hI.pin x hx; omega

theorem setHdr (w : HeaderWord) (v : ℕ) : PinInv { h with seg := h.seg.setHdr w v } :=
  ⟨hI.lt, hI.pub, hI.pin, hI.nodup⟩

theorem clear {i : Slot G} (hi : 0 ≤ h.seg.words i) :
    PinInv { h with seg := h.seg.setWord i 0 } where
  lt j := by simp only [Segment.setWord_words]; split_ifs; exacts [by norm_num, hI.lt j]
  pub j hj := by
    simp only [Segment.setWord_words] at hj ⊢
    split_ifs at hj ⊢ with hji
    · omega
    · exact hI.pub j hj
  pin x hx := by
    rw [Segment.setWord_ne _ (hI.held_ne hx hi)]; exact hI.pin x hx
  nodup := hI.nodup

theorem byte {i : Slot G} (hi : h.seg.words i = 0) (j : Fin G.payloadBytes) (b : UInt8) :
    PinInv { h with seg := h.seg.setByte i j b } where
  lt := hI.lt
  pub k hk := by
    have hki : k ≠ i := by rintro rfl; exact absurd hi (ne_of_gt hk)
    simpa only [Segment.setByte_ne _ hki, Segment.setByte_words] using hI.pub k hk
  pin x hx := by
    have hxi := hI.held_ne hx hi.ge
    simpa only [ReadHandle.asBytes, Segment.setByte_ne _ hxi, Segment.setByte_words] using
      hI.pin x hx
  nodup := hI.nodup

theorem publish {i : Slot G} (hi : h.seg.words i = 0) {data : List UInt8}
    (hd : bytesOf (h.seg.payload i) = data) {n : ℕ} (hn : n = u64 (h.log.length + 1)) :
    PinInv (h.put i (asI64 n) data) where
  lt j := by
    simp only [Hist.put_seg, Segment.setWord_words]
    split_ifs
    · exact hn ▸ asI64_u64_lt _
    · exact hI.lt j
  pub j hj := by
    simp only [Hist.put_seg, Segment.setWord_words, Segment.setWord_payload] at hj ⊢
    split_ifs at hj ⊢ with hji
    · subst hji hd hn
      exact ⟨h.log.length, by simp, by omega⟩
    · exact (hI.pub j hj).append data
  pin x hx := by
    obtain ⟨h₁, h₂, h₃⟩ := hI.pin x hx
    refine ⟨h₁, ?_, h₃.append data⟩
    rw [Hist.put_seg, Segment.setWord_ne _ (hI.held_ne hx hi.ge)]
    exact h₂
  nodup := hI.nodup

theorem acquire {i : Slot G} {n : ℕ} (hn : 0 < n) (hi : h.seg.words i = n) :
    PinInv { h with seg := h.seg.setWord i (-n), held := h.held ++ [⟨i, n⟩] } where
  lt j := by
    simp only [Segment.setWord_words]
    split_ifs
    · omega
    · exact hI.lt j
  pub j hj := by
    simp only [Segment.setWord_words] at hj ⊢
    split_ifs at hj ⊢ with hji
    · omega
    · exact hI.pub j hj
  pin x hx := by
    rcases List.mem_append.1 hx with hx | hx
    · rw [Segment.setWord_ne _ (hI.held_ne hx (by omega))]; exact hI.pin x hx
    · obtain rfl := List.mem_singleton.1 hx
      have := hI.pub i (by omega)
      rw [hi, Int.toNat_natCast] at this
      exact ⟨hn, Segment.setWord_self .., this⟩
  nodup := by
    rw [List.nodup_append]
    refine ⟨hI.nodup, List.nodup_singleton _, fun x hx y hy e => ?_⟩
    obtain rfl := List.mem_singleton.1 hy
    exact hI.held_ne hx (i := i) (by omega) (e ▸ rfl)

theorem index_inj {x y : ReadHandle G} (hx : x ∈ h.held) (hy : y ∈ h.held)
    (hxy : x.index = y.index) : x = y := by
  have h₁ := (hI.pin x hx).2.1
  have h₂ := (hI.pin y hy).2.1
  obtain ⟨i, m⟩ := x
  obtain ⟨j, n⟩ := y
  simp only at hxy h₁ h₂
  subst hxy
  congr 1; omega

theorem entry_lt {x : ReadHandle G} (hx : x ∈ h.held) : x.entrySeq < 2 ^ 63 := by
  obtain ⟨-, -, k, -, hk⟩ := hI.pin x hx
  have := asI64_u64_lt (k + 1)
  omega

theorem release {x : ReadHandle G} (hx : x ∈ h.held) :
    PinInv { h with seg := h.seg.setWord x.index x.entrySeq, held := h.held.erase x } := by
  obtain ⟨h₁, h₂, h₃⟩ := hI.pin x hx
  refine ⟨fun j => ?_, fun j hj => ?_, fun y hy => ?_, hI.nodup.erase x⟩
  · simp only [Segment.setWord_words]
    split_ifs
    · exact_mod_cast hI.entry_lt hx
    · exact hI.lt j
  · simp only [Segment.setWord_words, Segment.setWord_payload] at hj ⊢
    split_ifs at hj ⊢ with hji
    · subst hji; simpa [ReadHandle.asBytes] using h₃
    · exact hI.pub j hj
  · obtain ⟨hyx, hy⟩ := hI.nodup.mem_erase_iff.1 hy
    have hne : y.index ≠ x.index := fun e => hyx (hI.index_inj hy hx e)
    rw [Segment.setWord_ne _ hne]; exact hI.pin y hy

end PinInv

/-! ## The writer -/

/-- What the writer relies on: slots in progress stay so, payloads and the log
    are its own, and no reader pins the slot it is about to clear. -/
def pinWriter (G : Geometry) : Contract (segSig G) (Hist G) where
  ok _ := True
  rely o h h' := PinInv h' ∧ h'.seg.payload = h.seg.payload ∧ h'.log = h.log ∧
    (∀ i, h.seg.words i = 0 → h'.seg.words i = 0) ∧
    ∀ i, o = some (.clearSeq i) → 0 ≤ h.seg.words i → 0 ≤ h'.seg.words i
  guar _ h h' := PinInv h' ∧ h'.held = h.held ∧
    ∀ i, h.seg.words i < 0 → h'.seg.words i = h.seg.words i ∧ h'.seg.payload i = h.seg.payload i

/-- The writer's counter is the number of entries published. -/
def Counts (w : RawWriter G) (h : Hist G) : Prop := w.lastEntrySeq = u64 h.log.length

theorem Counts.next {w : RawWriter G} {h : Hist G} (hw : Counts w h) :
    u64 (w.lastEntrySeq + 1) = u64 (h.log.length + 1) := by
  unfold Counts at hw
  unfold u64 at hw ⊢
  omega

theorem Counts.log {w : RawWriter G} {h h' : Hist G} (hw : Counts w h) (hl : h'.log = h.log) :
    Counts w h' := by
  unfold Counts; rw [hl]; exact hw

section
variable (data : List UInt8)

theorem claimFrom_pin (w : RawWriter G) : ∀ (k n : ℕ) (h : Hist G), Counts w h →
    Valid (Hist.writerExec data) (pinWriter G)
      (fun a h => Counts w h ∧ ∀ i, a = .ok i → h.seg.words i = 0) (w.claimFrom n k) h := by
  intro k
  induction k with
  | zero =>
    intro n h hw
    exact ⟨hw, fun _ h => by cases h⟩
  | succ k ih =>
    intro n h hw
    refine (writer_loadSeq fun h₁ hr _ => ?_).bind
    refine ⟨⟨hr.1, rfl, fun _ _ => ⟨rfl, rfl⟩⟩, ?_⟩
    have hw₁ := hw.log hr.2.2.1
    split_ifs with hneg
    · exact ih (n + 1) h₁ hw₁
    · refine (writer_clearSeq fun h₂ hr₂ _ => ?_).bind
      -- no reader has pinned the slot since its word was loaded
      have hpos := hr₂.2.2.2.2 _ rfl (not_lt.1 hneg)
      refine ⟨⟨hr₂.1.clear hpos, rfl, fun j hj => ?_⟩, hw₁.log hr₂.2.2.1, fun i hi => ?_⟩
      · exact ⟨Segment.setWord_ne _ (fun e => by subst e; omega) _, rfl⟩
      · cases hi; exact Segment.setWord_self ..

theorem copyIn_pin {w : RawWriter G} {i : Slot G} (b : Block G) {h : Hist G}
    (hw : Counts w h) (hi : h.seg.words i = 0) :
    Valid (Hist.writerExec data) (pinWriter G)
      (fun _ h => Counts w h ∧ h.seg.words i = 0 ∧ h.seg.payload i = b)
      (RawWriter.copyIn i b) h := by
  refine (Valid.foldlM (I := fun js _ h => Counts w h ∧ h.seg.words i = 0 ∧
    ∀ j, j ∉ js → h.seg.payload i j = b j) (fun j js _ h hI => ?_) _ _ _
      ⟨hw, hi, fun j hj => absurd (List.mem_finRange j) hj⟩).mono
    fun _ h hI => ⟨hI.1, hI.2.1, funext fun j => hI.2.2 j (List.not_mem_nil)⟩
  obtain ⟨hw, hi, hb⟩ := hI
  refine writer_storeByte fun h₁ hr _ => ?_
  have hi₁ := hr.2.2.2.1 i hi
  refine ⟨⟨hr.1.byte hi₁ j _, rfl, fun k hk => ⟨rfl, ?_⟩⟩, hw.log hr.2.2.1, hi₁, fun j' hj' => ?_⟩
  · exact Segment.setByte_ne _ (fun e => by subst e; omega) _ _
  · rw [Segment.setByte_self]
    split_ifs with hjj
    · rw [hjj]
    · rw [hr.2.1]; exact hb j' fun hm => (List.mem_cons.1 hm).elim hjj hj'

theorem publish_pin {w : RawWriter G} {i : Slot G} {h : Hist G} (hw : Counts w h)
    (hi : h.seg.words i = 0) (hd : bytesOf (h.seg.payload i) = data) :
    Valid (Hist.writerExec data) (pinWriter G) (fun a h => Counts a.2 h) (w.publish i) h := by
  refine (writer_storeSeq fun h₁ hr _ => ?_).bind
  have hi₁ := hr.2.2.2.1 i hi
  have hn := (hw.log hr.2.2.1).next
  refine ⟨⟨hr.1.publish hi₁ (by rw [hr.2.1]; exact hd) hn, rfl, fun k hk => ⟨?_, rfl⟩⟩, ?_⟩
  · exact Segment.setWord_ne _ (fun e => by subst e; omega) _
  refine (writer_storeHdr fun h₂ hr₂ _ => ?_).bind
  refine ⟨⟨hr₂.1.setHdr _ _, rfl, fun _ _ => ⟨rfl, rfl⟩⟩, ?_⟩
  refine (writer_storeHdr fun h₃ hr₃ _ => ?_).bind
  refine ⟨⟨hr₃.1.setHdr _ _, rfl, fun _ _ => ⟨rfl, rfl⟩⟩, ?_⟩
  simp only [Prog.pure_eq, valid_pure, Counts, hr₃.2.2.1, hr₂.2.2.1, Hist.put_log,
    List.length_append, hn, List.length_singleton]

theorem write_pin {w : RawWriter G} {h : Hist G} (hw : Counts w h) :
    Valid (Hist.writerExec data) (pinWriter G) (fun a h => Counts a.2 h) (w.write data) h := by
  unfold RawWriter.write
  split_ifs with hlen
  · exact hw
  · refine ((claimFrom_pin data w _ 0 h hw).mono fun a h ⟨hw, ha⟩ => ?_).bind
    cases a with
    | error e => exact hw
    | ok i =>
      refine ((copyIn_pin data (blockOf data) hw (ha i rfl)).mono fun _ h ⟨hw, hi, hb⟩ => ?_).bind
      refine ((publish_pin data hw hi ?_).mono fun a h hw => hw).bind
      rw [hb]; exact bytesOf_blockOf (not_not.1 hlen)

end

/-! ## The readers -/

/-- What a reader relies on and guarantees; `mine` if it is the zero-copy
    reader, whose pins no other party touches. -/
def pinReader (G : Geometry) (mine : Prop) : Contract (segSig G) (Hist G) where
  ok _ := True
  rely _ h h' := PinInv h' ∧ (mine → h'.held = h.held)
  guar o h h' := PinInv h' ∧ (¬ mine → h'.held = h.held) ∧ h'.seg.payload = h.seg.payload ∧
    h'.log = h.log ∧ (∀ i, h.seg.words i = 0 → h'.seg.words i = 0) ∧
    (∀ i, 0 ≤ h.seg.words i → h'.seg.words i < 0 →
      ∃ old new, o = .casSeq i old new ∧ h.seg.words i = old) ∧
    ∀ x ∈ h.held, x ∈ h'.held ∨ h'.seg.words x.index = x.entrySeq

theorem pinReader_loads (mine : Prop) :
    Loads Hist.seg Hist.readerExec (pinReader G mine) :=
  reader_loads fun _ _ _ _ hr => ⟨hr.1, fun _ => rfl, rfl, rfl, fun _ h => h,
    fun _ h h' => absurd h (not_le.2 h'), fun _ h => Or.inl h⟩

/-- What a reader knows between its operations. -/
def PinAt (mine : Prop) (hs : List (ReadHandle G)) (h : Hist G) : Prop :=
  PinInv h ∧ (mine → h.held = hs)

theorem PinAt.rely {mine : Prop} {hs : List (ReadHandle G)} {o : Option (SegOp G)}
    {h h' : Hist G} (hr : (pinReader G mine).rely o h h') (ha : PinAt mine hs h) :
    PinAt mine hs h' := ⟨hr.1, fun hm => (hr.2 hm).trans (ha.2 hm)⟩

section
variable {hs : List (ReadHandle G)}

theorem acquireAttempts_pin (r : RawReader G) (w : ℕ) : ∀ (k : ℕ) (h : Hist G),
    PinAt True hs h → Valid Hist.readerExec (pinReader G True)
      (fun a h => PinAt True (hs ++ a.1.toList) h) (r.acquireAttempts w k) h
  | 0, _, ha => by simpa [RawReader.acquireAttempts] using ha
  | k + 1, h, ha => by
    refine ((valid_locate (K := fun _ n _ => 0 < n ∧ n < 2 ^ 63) (pinReader_loads True)
      (fun _ _ _ => PinAt.rely) (fun _ _ _ _ _ _ h => h) (fun s i ha => ha.1.lt i)
      (fun s i ha h₁ _ => ⟨by omega, by have := ha.1.lt i; omega⟩) r ha).mono
      fun a h₁ ⟨ha₁, hb⟩ => ?_).bind
    match a with
    | none => simpa using ha₁
    | some (i, n) =>
      obtain ⟨-, hn, hlt⟩ := hb i n rfl
      refine (reader_casSeq fun h₂ hr => ⟨fun hw => ?_, fun hw => ?_⟩).bind
      · exact ⟨⟨hr.1, fun _ => rfl, rfl, rfl, fun _ h => h, fun _ h h' => absurd h (not_le.2 h'),
          fun _ h => Or.inl h⟩, acquireAttempts_pin r w k h₂ (ha₁.rely hr)⟩
      · have ha₂ := ha₁.rely hr
        rw [asI64_of_lt hlt] at hw ⊢
        have hI := ha₂.1.acquire hn hw
        refine ⟨⟨hI, fun h => absurd trivial h, rfl, rfl, fun j hj => ?_, fun j hj hj' => ?_,
          fun x hx => Or.inl (List.mem_append_left _ hx)⟩, hI, fun _ => ?_⟩
        · exact (Segment.setWord_ne _ (fun e => by subst e; omega) _).trans hj
        · by_cases hji : j = i
          · subst hji; exact ⟨_, _, rfl, hw⟩
          · exact absurd hj' (by rw [Segment.setWord_ne _ hji]; omega)
        · simp [ha₂.2 trivial]

theorem tryAcquire_pin (r : RawReader G) (fromEntrySeq : Option ℕ) {h : Hist G}
    (ha : PinAt True hs h) : Valid Hist.readerExec (pinReader G True)
      (fun a h => PinAt True (hs ++ a.1.toList) h) (r.tryAcquire fromEntrySeq) h := by
  refine ((valid_watermark (pinReader_loads True) (fun _ _ _ => PinAt.rely) r fromEntrySeq
    ha).mono fun a h₁ ⟨ha₁, _⟩ => ?_).bind
  match a with
  | none => simpa using ha₁
  | some w => exact acquireAttempts_pin r w _ h₁ ha₁

theorem release_pin {x : ReadHandle G} (hx : x ∈ hs) {h : Hist G} (ha : PinAt True hs h) :
    Valid Hist.readerExec (pinReader G True) (fun _ h => PinAt True (hs.erase x) h)
      (RawReader.release x) h := by
  refine reader_storeSeq fun h₁ hr => ?_
  have ha₁ := ha.rely hr
  obtain rfl := ha₁.2 trivial
  have hx' := hr.1.pin x hx
  rw [asI64_of_lt (hr.1.entry_lt hx), Int.toNat_natCast]
  have hI := hr.1.release hx
  refine ⟨⟨hI, fun h => absurd trivial h, rfl, rfl, fun j hj => ?_, fun j hj hj' => ?_,
    fun y hy => ?_⟩, hI, fun _ => rfl⟩
  · exact (Segment.setWord_ne _ (fun e => by subst e; omega) _).trans hj
  · exact absurd hj' (by rw [Segment.setWord_ne _ fun e => by subst e; omega]; omega)
  · by_cases hyx : y = x
    · subst hyx; exact Or.inr (Segment.setWord_self ..)
    · exact Or.inl ((List.mem_erase_of_ne hyx).2 hy)

theorem readInto_pin {mine : Prop} (r : RawReader G) (dst : List UInt8) (fromEntrySeq : Option ℕ)
    {h : Hist G} (ha : PinAt mine hs h) :
    Valid Hist.readerExec (pinReader G mine) (fun _ h => PinAt mine hs h)
      (r.readInto dst fromEntrySeq) h :=
  (valid_readInto (K := fun _ _ _ => True) (C := fun _ _ _ _ _ => True) (pinReader_loads mine)
    (fun _ _ _ => PinAt.rely) (fun _ _ _ _ _ _ h => h) (fun _ i ha => ha.1.lt i)
    (fun _ _ _ _ => trivial) (fun _ _ _ _ _ _ _ _ h => h) (fun _ _ _ _ _ _ => trivial)
    r dst fromEntrySeq ha).mono fun _ _ h => h.1

end

/-! ## Runs -/

section
variable {ι : Type} [DecidableEq ι] {zc : Option ι}

/-- The reader is about to pin a slot whose word the writer has loaded and is
    about to clear. -/
def pinsClaimed (s : (channel G ι zc).Conf) : (channel G ι zc).Act → Bool
  | .move (.reader r) => match (s.ctl (.reader r)).next?, (s.ctl .writer).next? with
    | some (.casSeq i old _), some (.clearSeq j) => i = j ∧ s.mem.seg.words i = old
    | _, _ => false
  | _ => false

theorem pinsClaimed_of {s : (channel G ι zc).Conf} {r : ι} {i : Slot G} {old new : ℤ}
    (h₁ : (s.ctl (.reader r)).next? = some (.casSeq i old new)) (h : s.mem.seg.words i = old)
    (h₂ : (s.ctl .writer).next? = some (.clearSeq i)) : pinsClaimed s (.move (.reader r)) := by
  simp [pinsClaimed, h₁, h₂, h]

/-- What holds of the private state of a party between its calls. -/
def pinIdle (zc : Option ι) : ∀ t, (channel G ι zc).Loc t → Hist G → Prop
  | .writer, w, h => Counts w h
  | .reader r, l, h => (zc = some r → h.held = l.handles) ∧ (zc ≠ some r → l.handles = [])

/-- **The proof outline**, for runs that pin no slot about to be cleared. -/
def pinOutline (G : Geometry) (zc : Option ι) :
    (channel G ι zc).Outline fun s a _ => !pinsClaimed s a where
  glob := PinInv
  con
    | .writer => pinWriter G
    | .reader r => pinReader G (zc = some r)
  idle t _ l h := pinIdle zc t l h
  post t _ _ r h := pinIdle zc t r.2 h
  refl
    | .writer, _, _, h => ⟨h, rfl, rfl, fun _ h => h, fun _ _ h => h⟩
    | .reader _, _, _, h => ⟨h, fun _ => rfl⟩
  trans
    | .writer, _, _, _, _, h, h' => ⟨h'.1, h'.2.1.trans h.2.1, h'.2.2.1.trans h.2.2.1,
      fun i hi => h'.2.2.2.1 i (h.2.2.2.1 i hi),
      fun i ho hi => h'.2.2.2.2 i ho (h.2.2.2.2 i ho hi)⟩
    | .reader _, _, _, _, _, h, h' => ⟨h'.1, fun hm => (h'.2 hm).trans (h.2 hm)⟩
  keep
    | .writer, _, _, _, h, _ => h.1
    | .reader _, _, _, _, h, _ => h.1
  enter
    | .writer, _, data, w, p, h, _, hi, hp => by cases hp; exact write_pin data hi
    | .reader r, _, c, l, p, h, hI, hi, hp => by
      cases c with
      | readInto dst fromEntrySeq =>
        cases hp
        have ha : PinAt (zc = some r) h.held h := ⟨hI, fun _ => rfl⟩
        exact ((readInto_pin l.raw dst fromEntrySeq ha).mono
          fun a h' ha => ⟨fun hm => (ha.2 hm).trans (hi.1 hm), hi.2⟩).bind
      | tryAcquire fromEntrySeq =>
        simp only [channel, ReaderLoc.enter] at hp
        split_ifs at hp with hz
        cases hp
        have hz' : zc = some r := by simpa using hz
        refine ((show Valid Hist.readerExec (pinReader G (zc = some r)) _ _ h from ?_)).bind
        rw [eq_true hz']
        exact (tryAcquire_pin l.raw fromEntrySeq ⟨hI, fun _ => hi.1 hz'⟩).mono
          fun a h' ha => ⟨fun _ => ha.2 trivial, fun hn => absurd hz' hn⟩
      | release x =>
        simp only [channel, ReaderLoc.enter] at hp
        split_ifs at hp with hx
        cases hp
        have hz' : zc = some r := by
          by_contra hn; rw [hi.2 hn] at hx; cases hx
        refine ((show Valid Hist.readerExec (pinReader G (zc = some r)) _ _ h from ?_)).bind
        rw [eq_true hz']
        exact (release_pin hx ⟨hI, fun _ => hi.1 hz'⟩).mono
          fun a h' ha => ⟨fun _ => ha.2 trivial, fun hn => absurd hz' hn⟩
  ret _ _ _ _ _ h := h
  idle_env
    | .writer, _, _, _, _, hi, hr => hi.log hr.2.2.1
    | .reader _, _, _, _, _, hi, hr => ⟨fun hm => (hr.2 hm).trans (hi.1 hm), hi.2⟩
  post_env
    | .writer, _, _, _, _, _, hi, hr => hi.log hr.2.2.1
    | .reader _, _, _, _, _, _, hi, hr => ⟨fun hm => (hr.2 hm).trans (hi.1 hm), hi.2⟩
  ok
    | _, .writer, _, _, _ => trivial
    | _, .reader _, _, _, _ => trivial
  compat
    | _, .writer, _, .writer, _, _, _, hu, _, _, _, _ => absurd rfl hu
    | _, .writer, _, .reader _, _, _, _, _, _, _, hg', hr => ⟨hg', fun _ => hr.2.1⟩
    | s, .reader r, s', .writer, o, hs, hp, _, ho, _, hg', hr => by
      obtain ⟨-, -, h₁, h₂, h₃, h₄, -⟩ := hr
      refine ⟨hg', h₁, h₂, h₃, fun i hi hpos => not_lt.1 fun hneg => ?_⟩
      obtain ⟨old, new, rfl, hw⟩ := h₄ i hpos hneg
      simp [pinsClaimed_of ho hw hi] at hp
    | _, .reader r, _, .reader r', _, _, _, hu, _, _, hg', hr =>
      ⟨hg', fun hz => hr.2.1 fun hz' => hu (by rw [hz] at hz'; rw [Option.some.inj hz'])⟩

theorem pinOutline_init (zc : Option ι) (dtype : Dtype) (owner : ℕ) :
    (pinOutline G zc).Holds (channelInit G ι zc dtype owner) := by
  refine ⟨⟨fun _ => by norm_num [channelInit, Segment.init], fun _ h => ?_, fun _ h => ?_,
    List.nodup_nil⟩, fun t => ?_⟩
  · simp [channelInit, Segment.init] at h
  · cases h
  · cases t with
    | writer => rfl
    | reader r => exact ⟨fun _ => rfl, fun _ => rfl⟩

/-- **Pin safety.**  In a run that pins no slot about to be cleared, every pinned
    slot holds the negated number of an entry and the payload published as that
    entry; every handle in a reader's hands is pinned; and a step leaves the word
    and the payload of a pinned slot alone, unless it is the release of the pin,
    after which the slot is that entry again with the same payload. -/
theorem pin_safety {dtype : Dtype} {owner : ℕ} {s : (channel G ι zc).Conf}
    (h : Reach Pool.step (fun s a _ => !pinsClaimed s a) (channelInit G ι zc dtype owner) s) :
    (∀ x ∈ s.mem.held, s.mem.seg.words x.index = -(x.entrySeq : ℤ) ∧
      Published s.mem.log x.entrySeq (x.asBytes s.mem.seg)) ∧
    (∀ r l, s.ctl (.reader r) = .idle l → ∀ x ∈ l.handles, x ∈ s.mem.held) ∧
    ∀ a s', Pool.step s a = some s' → !pinsClaimed s a → ∀ x ∈ s.mem.held,
      s'.mem.seg.payload x.index = s.mem.seg.payload x.index ∧
      (x ∈ s'.mem.held ∧ s'.mem.seg.words x.index = s.mem.seg.words x.index ∨
        x ∉ s'.mem.held ∧ s'.mem.seg.words x.index = x.entrySeq) := by
  have hL := (pinOutline G zc).reach (pinOutline_init zc dtype owner) h
  have hI : PinInv s.mem := hL.1
  refine ⟨fun x hx => (hI.pin x hx).2, fun r l hl x hx => ?_, fun a s' hs hp x hx => ?_⟩
  · have hi := (pinOutline G zc).at_idle (hL.2 (.reader r)) hl
    by_cases hz : zc = some r
    · rw [hi.1 hz]; exact hx
    · rw [hi.2 hz] at hx; cases hx
  · have hI' : PinInv s'.mem := ((pinOutline G zc).step hL hs hp).1
    obtain ⟨hpos, hw, -⟩ := hI.pin x hx
    -- a pin that stays keeps its word
    have hkeep : x ∈ s'.mem.held → s'.mem.seg.words x.index = s.mem.seg.words x.index :=
      fun hx' => (hI'.pin x hx').2.1.trans hw.symm
    rcases Pool.step_cases hs with ⟨_, _, _, _, -, -, -, rfl⟩ | ⟨_, _, _, _, -, -, rfl⟩ |
      ⟨t, c, o, k, rfl, hl, -⟩
    · exact ⟨rfl, Or.inl ⟨hx, rfl⟩⟩
    · exact ⟨rfl, Or.inl ⟨hx, rfl⟩⟩
    · have hg := (pinOutline G zc).guar hL hs hp (by rw [hl]; rfl)
      cases t with
      | writer =>
        obtain ⟨-, hheld, hneg⟩ := hg
        obtain ⟨hw', hp'⟩ := hneg x.index (by omega)
        exact ⟨hp', Or.inl ⟨hheld ▸ hx, hw'⟩⟩
      | reader r =>
        obtain ⟨-, -, hpay, -, -, -, hrel⟩ := hg
        refine ⟨congrFun hpay _, ?_⟩
        rcases hrel x hx with hx' | hw'
        · exact Or.inl ⟨hx', hkeep hx'⟩
        · refine Or.inr ⟨fun hx' => ?_, hw'⟩
          have := hkeep hx'
          omega

end

/-! ## The race -/

/-- A write of eight bytes `b`, run alone: its fourteen steps after the call. -/
def writeAlone (G : Geometry) (b : UInt8) : List (channel G Unit (some ())).Act :=
  .call .writer (List.replicate 8 b) :: List.replicate 14 (.move .writer)

/-- Up to the moment the reader is about to pin entry 1. -/
def acquireFirst (G : Geometry) : List (channel G Unit (some ())).Act :=
  writeAlone G 1 ++ [.call (.reader ()) (.tryAcquire none), .move (.reader ()), .move (.reader ())]

/-- The second write loads the word of the slot, the reader pins it, the writer
    clears it and copies its payload over the view. -/
def pinRace : List (channel (.tiny 0) Unit (some ())).Act :=
  acquireFirst _ ++ [.call .writer (List.replicate 8 2), .move .writer, .move (.reader ())] ++
    List.replicate 9 (.move .writer)

/-- **A pinned slot can be erased**: its word is no longer the negated number, and
    the handle shows bytes that were not published as its entry. -/
theorem pin_lost : ∃ s, Reach Pool.step (fun _ _ _ => True)
      (channelInit (.tiny 0) Unit (some ()) .u8 7) s ∧
    ∃ x ∈ s.mem.held, s.mem.seg.words x.index ≠ -(x.entrySeq : ℤ) ∧
      ¬ Published s.mem.log x.entrySeq (x.asBytes s.mem.seg) := by
  have hrun : (steps Pool.step (fun _ _ => true) (channelInit (.tiny 0) Unit (some ()) .u8 7)
      pinRace).map (fun s => (s.mem.held, s.mem.log, s.mem.seg.words (Geometry.slot _ 0),
        bytesOf (s.mem.seg.payload (Geometry.slot _ 0)))) =
      some ([⟨Geometry.slot _ 0, 1⟩], [List.replicate 8 1], 0, List.replicate 8 2) := by
    decide +kernel
  obtain ⟨s, hs, he⟩ := reach_eval hrun
  simp only [Prod.mk.injEq] at he
  obtain ⟨hheld, hlog, hw, hb⟩ := he
  refine ⟨s, hs.mono fun _ _ _ _ => trivial, ⟨Geometry.slot _ 0, 1⟩, by simp [hheld],
    by simp [hw], fun hp => ?_⟩
  have := (hp.get (by simp [hlog])).2
  rw [ReadHandle.asBytes, hb, hlog] at this
  exact absurd this (by decide)

/-- An acquired entry is safe. -/
theorem pin_safety_acquired : ∃ s : (channel (.tiny 0) Unit (some ())).Conf,
    s.mem.held = [⟨Geometry.slot _ 0, 1⟩] ∧
    ∀ x ∈ s.mem.held, s.mem.seg.words x.index = -(x.entrySeq : ℤ) ∧
      Published s.mem.log x.entrySeq (x.asBytes s.mem.seg) := by
  have hrun : (steps Pool.step (fun s a => !pinsClaimed s a)
      (channelInit (.tiny 0) Unit (some ()) .u8 7)
      (acquireFirst _ ++ [.move (.reader ())])).map (fun s => s.mem.held) =
      some [⟨Geometry.slot _ 0, 1⟩] := by decide +kernel
  obtain ⟨s, hs, he⟩ := reach_eval hrun
  exact ⟨s, he, (pin_safety hs).1⟩

end ZeroChannel
