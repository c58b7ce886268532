/-
  The ring protocol on the bytes of a region.

  What each operation is meant to do is said on the decoded segment (`Segment.claim`,
  `Segment.publish`, `Segment.write`, `Segment.pin`, `Segment.release`).  Its program
  gives that answer on a region and leaves a region that decodes to that segment; a byte
  changes only if the part of the segment it belongs to is one the operation changes
  (`Implements`).
-/
import ZeroChannel.Proof.Decode
import ZeroChannel.Proof.Calls
import ZeroChannel.Lifecycle

namespace ZeroChannel

open Concur

variable {G : Geometry} {α : Type}

/-! ## Programs -/

/-- The contract of a program that runs alone and stores machine integers. -/
def machine (G : Geometry) : Contract (segSig G) (Segment G) where
  ok _ := True
  rely _ := Eq
  guar o _ _ := o.Ranged

theorem valid_of_all {p : SegProg G α} (h : p.All SegOp.Ranged) (m : Segment G) :
    Valid Segment.exec (machine G) (fun _ _ => True) p m := by
  induction p generalizing m with
  | pure a => trivial
  | op o k ih => exact fun m' _ _ => ⟨h.1, ih _ (h.2 _) _⟩

/-- On the region the program answers `x.1` and leaves what decodes to `x.2`, which is what it
    does on the decoded segment; all parts but those listed are left as they were. -/
structure Implements (G : Geometry) (r : Region) (p : SegProg G α) (x : α × Segment G)
    (touched : List (Part G)) : Prop where
  effect : p.run Segment.exec (r.decode G) = x
  answer : (p.run (Region.ringExec G) r).1 = x.1
  memory : (p.run (Region.ringExec G) r).2.decode G = x.2
  len : (p.run (Region.ringExec G) r).2.len = r.len
  frame : ∀ off, (∀ q ∈ touched, ¬ q.Covers off) →
    (p.run (Region.ringExec G) r).2.byte off = r.byte off

namespace Region

theorem ringExec_len (o : SegOp G) (r : Region) : (ringExec G o r).2.len = r.len := by
  cases o with
  | casSeq i old new => simp only [ringExec]; split_ifs <;> rfl
  | cas w old new => simp only [ringExec]; split_ifs <;> rfl
  | _ => rfl

/-- Bytes of no part are never stored. -/
theorem ringExec_byte (o : SegOp G) (r : Region) {off : ℕ} (h : ∀ q : Part G, ¬ q.Covers off) :
    (ringExec G o r).2.byte off = r.byte off := by
  have hword : ∀ (i : Slot G) v, (r.setWord (seqOffset G.payloadBytes i.val) v).byte off = r.byte off :=
    fun i v => if_neg (h (.word i))
  have hhdr : ∀ (w : HeaderWord) v, (r.setWord w.off v).byte off = r.byte off :=
    fun w v => if_neg (h (.hdr w))
  cases o with
  | loadSeq | loadByte | load => rfl
  | clearSeq i => exact hword i 0
  | storeSeq i v => exact hword i _
  | casSeq i old new =>
    simp only [ringExec]
    split_ifs
    · exact hword i _
    · rfl
  | storeByte i j b =>
    refine Function.update_of_ne ?_ _ _
    rintro rfl
    exact h (.payload i) ⟨Nat.le_add_right _ _, Nat.add_lt_add_left j.isLt _⟩
  | store w v => exact hhdr w v
  | cas w old new =>
    simp only [ringExec]
    split_ifs
    · exact hhdr w new
    · rfl

theorem run_byte (p : SegProg G α) (r : Region) {off : ℕ} (h : ∀ q : Part G, ¬ q.Covers off) :
    (p.run (ringExec G) r).2.byte off = r.byte off := by
  induction p generalizing r with
  | pure a => rfl
  | op o k ih => rw [Prog.run_op, ih, ringExec_byte o r h]

namespace Fits
variable {r : Region} (h : r.Fits G)

theorem of_len {r' : Region} (h : r.Fits G) (hl : r'.len = r.len) : r'.Fits G :=
  ⟨hl ▸ h.exact, hl ▸ h.len⟩

include h

/-- **Decoding commutes with a program.** -/
theorem run_decode {Q : α → Segment G → Prop} {p : SegProg G α}
    (hp : Valid Segment.exec (machine G) Q p (r.decode G)) :
    (p.run (ringExec G) r).1 = (p.run Segment.exec (r.decode G)).1 ∧
      (p.run (ringExec G) r).2.decode G = (p.run Segment.exec (r.decode G)).2 ∧
      (p.run (ringExec G) r).2.len = r.len := by
  induction p generalizing r with
  | pure a => exact ⟨rfl, rfl, rfl⟩
  | op o k ih =>
    obtain ⟨ho, hk⟩ := hp _ rfl trivial
    obtain ⟨ha, hm⟩ := h.exec_decode ho
    have hl := ringExec_len o r
    rw [Prog.run_op, Prog.run_op, ha, ← hm]
    rw [← hm] at hk
    obtain ⟨h₁, h₂, h₃⟩ := ih _ (h.of_len hl) hk
    exact ⟨h₁, h₂, h₃.trans hl⟩

/-- A program is implemented if the parts it is not meant to touch stay the same. -/
theorem implements {Q : α → Segment G → Prop} {p : SegProg G α}
    (hp : Valid Segment.exec (machine G) Q p (r.decode G)) {x : α × Segment G}
    (hx : p.run Segment.exec (r.decode G) = x) {touched : List (Part G)}
    (ht : ∀ q ∉ touched, q.Agree (r.decode G) x.2) : Implements G r p x touched := by
  obtain ⟨h₁, h₂, h₃⟩ := h.run_decode hp
  rw [hx] at h₁ h₂
  refine ⟨hx, h₁, h₂, h₃, fun off ho => ?_⟩
  by_cases hq : ∃ q : Part G, q.Covers off
  · obtain ⟨q, hq⟩ := hq
    have hag := ht q fun hm => ho q hm hq
    rw [← h₂] at hag
    exact byte_of_agree hag hq
  · exact run_byte p r fun q hc => hq ⟨q, hc⟩

end Fits

end Region

/-! ## The programs of the ring -/

theorem writer_run_seg (data : List UInt8) (p : SegProg G α) (h : Hist G) :
    p.run Segment.exec h.seg =
      ((p.run (Hist.writerExec data) h).1, (p.run (Hist.writerExec data) h).2.seg) := by
  induction p generalizing h with
  | pure a => rfl
  | op o k ih =>
    have ho : Segment.exec o h.seg = ((Hist.writerExec data o h).1, (Hist.writerExec data o h).2.seg) := by
      cases o <;> rfl
    simp only [Prog.run_op, ho, ih]

/-- A segment without histories. -/
def Segment.bare (m : Segment G) : Hist G := ⟨m, [], [], []⟩

/-! ## The abstract ring -/

namespace Segment
variable (m : Segment G) (w : RawWriter G)

/-- The first slot that is not held is taken, its word cleared. -/
def claim : Except ZeroChannelError (Slot G) × Segment G :=
  match free? m.words w.currentIndex.val G.entryCount with
  | none => (.error (busyError G), m)
  | some i => (.ok i, m.setWord i 0)

/-- The next number goes to slot `i` and is advertised. -/
def publish (i : Slot G) : (ℕ × RawWriter G) × Segment G :=
  ((u64 (w.lastEntrySeq + 1), w.next i),
    ((m.setWord i (asI64 (u64 (w.lastEntrySeq + 1)))).setHdr .writeIndex
      (G.slot (i.val + 1)).val).setHdr .lastEntrySeq (u64 (w.lastEntrySeq + 1)))

/-- The data go to the first slot that is not held, under the next number. -/
def write (data : List UInt8) : (Except ZeroChannelError Unit × RawWriter G) × Segment G :=
  if data.length ≠ G.payloadBytes then
    ((.error (.invalidArgument
      s!"expected {G.payloadBytes} payload bytes, got {data.length}"), w), m)
  else match free? m.words w.currentIndex.val G.entryCount with
    | none => ((.error (busyError G), w), m)
    | some i => ((.ok (), w.next i), ((m.setBlock i (blockOf data)).publish w i).2)

/-- A slot with entry `s` is marked as held. -/
def pin (i : Slot G) (s : ℕ) : Bool × Segment G :=
  if m.words i = s then (true, m.setWord i (-s)) else (false, m)

/-- A held slot shows its entry again. -/
def release (x : ReadHandle G) : Unit × Segment G := ((), m.setWord x.index (asI64 x.entrySeq))

end Segment

section
variable (m : Segment G) (w : RawWriter G)

theorem claimSlot_seg : w.claimSlot.run Segment.exec m = m.claim w := by
  refine (writer_run_seg [] w.claimSlot m.bare).trans ?_
  rw [claimSlot_run [] w m.bare]
  simp only [Segment.bare, Segment.claim]
  cases free? m.words w.currentIndex.val G.entryCount <;> rfl

theorem write_seg (data : List UInt8) :
    (w.write data).run Segment.exec m = m.write w data := by
  unfold Segment.write
  split_ifs with hlen
  · rw [write_len data w hlen]
    rfl
  · refine (writer_run_seg data (w.write data) m.bare).trans ?_
    rw [write_run data w m.bare (not_not.1 hlen)]
    simp only [Segment.bare]
    cases free? m.words w.currentIndex.val G.entryCount with
    | none => rfl
    | some i =>
      -- the mark of the claim is gone
      refine Prod.ext rfl (Part.eq_of_agree fun q => ?_)
      cases q with
      | word j => exact congrFun (Function.update_idem ..) j
      | hdr v => rfl
      | payload j => rfl

theorem publish_seg (i : Slot G) : (w.publish i).run Segment.exec m = m.publish w i := rfl

theorem casSeq_seg (i : Slot G) (s : ℕ) : (casSeq i s (-s)).run Segment.exec m = m.pin i s := by
  simp only [casSeq, Prog.run_op, Prog.run_pure, Segment.exec, Segment.pin]

theorem release_seg (x : ReadHandle G) :
    (RawReader.release x).run Segment.exec m = m.release x := rfl

end

section
variable (w : RawWriter G)

theorem claimFrom_ranged : ∀ (k n : ℕ), (w.claimFrom n k).All SegOp.Ranged := by
  intro k
  induction k with
  | zero =>
    intro n
    trivial
  | succ k ih =>
    intro n
    refine ⟨trivial, fun raw => ?_⟩
    simp only [Prog.bind_pure]
    split_ifs
    · exact ih (n + 1)
    · exact ⟨trivial, fun _ => trivial⟩

theorem copyIn_ranged (i : Slot G) (b : Block G) : (RawWriter.copyIn i b).All SegOp.Ranged := by
  have hstore : ∀ j, (storeByte i j (b j)).All SegOp.Ranged := fun j => ⟨trivial, fun _ => trivial⟩
  exact Prog.All.foldlM (fun _ j => hstore j) _ _

theorem publish_ranged (hN : G.entryCount < 2 ^ 64) (i : Slot G) :
    (w.publish i).All SegOp.Ranged := by
  refine ⟨asI64_in (u64_lt _), fun _ => ⟨?_, fun _ => ⟨u64_lt _, fun _ => trivial⟩⟩⟩
  exact lt_trans (G.slot (i.val + 1)).isLt hN

theorem write_ranged (hN : G.entryCount < 2 ^ 64) (data : List UInt8) :
    (w.write data).All SegOp.Ranged := by
  unfold RawWriter.write
  split_ifs
  · trivial
  · refine (claimFrom_ranged w _ 0).bind fun a => ?_
    match a with
    | .error e => trivial
    | .ok i =>
      exact (copyIn_ranged i _).bind fun _ => (publish_ranged w hN i).bind fun _ => trivial

end

/-- The parts that `claim_slot` changes. -/
def claimParts (m : Segment G) (w : RawWriter G) : List (Part G) :=
  (free? m.words w.currentIndex.val G.entryCount).toList.map .word

/-- The parts that publishing in slot `i` changes. -/
def publishParts (i : Slot G) : List (Part G) := [.word i, .hdr .writeIndex, .hdr .lastEntrySeq]

/-- The parts that `write(data)` changes. -/
def writeParts (m : Segment G) (w : RawWriter G) (data : List UInt8) : List (Part G) :=
  if data.length ≠ G.payloadBytes then []
  else match free? m.words w.currentIndex.val G.entryCount with
    | none => []
    | some i => .payload i :: publishParts i

theorem agree_publish {m : Segment G} {w : RawWriter G} {i : Slot G} {q : Part G}
    (hq : q ∉ publishParts i) : q.Agree m (m.publish w i).2 := by
  simp only [publishParts, List.mem_cons, List.not_mem_nil, or_false, not_or] at hq
  exact ((Part.agree_setWord hq.1).trans (Part.agree_setHdr hq.2.1)).trans
    (Part.agree_setHdr hq.2.2)

theorem agree_claim {m : Segment G} {w : RawWriter G} {q : Part G} (hq : q ∉ claimParts m w) :
    q.Agree m (m.claim w).2 := by
  unfold Segment.claim
  unfold claimParts at hq
  cases hf : free? m.words w.currentIndex.val G.entryCount with
  | none => exact Part.agree_refl _ q
  | some i =>
    refine Part.agree_setWord fun e => hq ?_
    rw [hf, e]
    exact List.mem_singleton_self _

theorem agree_write {m : Segment G} {w : RawWriter G} {data : List UInt8} {q : Part G}
    (hq : q ∉ writeParts m w data) : q.Agree m (m.write w data).2 := by
  unfold Segment.write
  unfold writeParts at hq
  split_ifs at hq ⊢
  · exact Part.agree_refl _ q
  · cases hf : free? m.words w.currentIndex.val G.entryCount with
    | none => exact Part.agree_refl _ q
    | some i =>
      rw [hf] at hq
      obtain ⟨hp, hq⟩ := not_or.1 (mt List.mem_cons.2 hq)
      exact (Part.agree_setBlock hp).trans (agree_publish hq)

theorem agree_pin {m : Segment G} {i : Slot G} {s : ℕ} {q : Part G} (hq : q ∉ [Part.word i]) :
    q.Agree m (m.pin i s).2 := by
  unfold Segment.pin
  split_ifs
  · exact Part.agree_setWord (List.mem_singleton.not.1 hq)
  · exact Part.agree_refl _ q

namespace Region.Fits
variable {r : Region} (h : r.Fits G)
include h

theorem claimSlot_implements (w : RawWriter G) :
    Implements G r w.claimSlot ((r.decode G).claim w) (claimParts (r.decode G) w) := by
  have hr : w.claimSlot.All SegOp.Ranged := claimFrom_ranged w _ 0
  exact h.implements (valid_of_all hr _) (claimSlot_seg _ w) fun _ => agree_claim

theorem publish_implements (w : RawWriter G) (i : Slot G) :
    Implements G r (w.publish i) ((r.decode G).publish w i) (publishParts i) :=
  h.implements (valid_of_all (publish_ranged w h.count_lt i) _) (publish_seg _ w i)
    fun _ => agree_publish

theorem write_implements (w : RawWriter G) (data : List UInt8) :
    Implements G r (w.write data) ((r.decode G).write w data) (writeParts (r.decode G) w data) :=
  h.implements (valid_of_all (write_ranged w h.count_lt data) _) (write_seg _ w data)
    fun _ => agree_write

theorem casSeq_implements (i : Slot G) {s : ℕ} (hs : s < 2 ^ 63) :
    Implements G r (casSeq i s (-s)) ((r.decode G).pin i s) [.word i] := by
  have hv : InI64 (-s) := by unfold InI64; omega
  have hr : (casSeq i s (-s)).All SegOp.Ranged := ⟨hv, fun _ => trivial⟩
  exact h.implements (valid_of_all hr _) (casSeq_seg _ i s) fun _ => agree_pin

theorem release_implements (x : ReadHandle G) (hx : x.entrySeq < 2 ^ 64) :
    Implements G r (RawReader.release x) ((r.decode G).release x) [.word x.index] := by
  have hr : (RawReader.release x).All SegOp.Ranged := ⟨asI64_in hx, fun _ => trivial⟩
  exact h.implements (valid_of_all hr _) (release_seg _ x) fun q hq =>
    Part.agree_setWord (List.mem_singleton.not.1 hq)

end Region.Fits

/-! ## Initialisation -/

namespace Region

/-- The region after the zeroing pass. -/
def cleared (r : Region) (n : ℕ) : Region :=
  { r with byte := fun off => if off < n then 0 else r.byte off }

theorem zero_run (l : List ℕ) (r : Region) :
    (l.foldlM (fun _ k => .op (.zero k) .pure) () : Prog rawSig Unit).run rawExec r =
      ((), { r with byte := fun off => if off ∈ l then 0 else r.byte off }) := by
  induction l generalizing r with
  | nil => simp only [List.foldlM_nil, Prog.pure_eq, Prog.run_pure, List.not_mem_nil, if_false]
  | cons k l ih =>
    rw [List.foldlM_cons, Prog.run_bind]
    refine (ih _).trans ?_
    simp only [rawExec, setByte, Function.update_apply, List.mem_cons, Prog.run_op, Prog.run_pure]
    congr 3
    funext off
    by_cases hl : off ∈ l
    · simp only [hl, or_true, if_true]
    · simp only [hl, or_false, if_false]

/-- **`init_header` run alone.** -/
theorem init_run (payloadBytes entryCount : ℕ) (dtype : Dtype) (owner : ℕ) (r : Region) :
    (initRegion payloadBytes entryCount dtype owner).run rawExec r =
      ((), (((((r.cleared (requiredBytes payloadBytes entryCount)).setWord
        HeaderWord.payloadBytes.off payloadBytes).setWord HeaderWord.entryCount.off
        entryCount).setWord HeaderWord.dtype.off dtype.code).setWord HeaderWord.segmentOwner.off
        owner).setWord HeaderWord.magic.off MAGIC_VERSION) := by
  unfold initRegion initHeader
  rw [Prog.run_bind, zero_run]
  simp only [List.mem_range]
  rfl

theorem cleared_word (r : Region) {n off : ℕ} (h : off + 8 ≤ n) : (r.cleared n).word off = 0 := by
  have hz : (List.range 8).map (fun k => ((r.cleared n).byte (off + k)).toNat) =
      (List.range 8).map fun _ => 0 := by
    refine List.map_congr_left fun k hk => ?_
    have hk := List.mem_range.1 hk
    simp only [cleared]
    rw [if_pos (by omega)]
    rfl
  rw [word, hz]
  rfl

/-- Bytes past a word are not stored with it. -/
theorem setWord_byte_ge {r : Region} {off v j : ℕ} (h : off + 8 ≤ j) :
    (r.setWord off v).byte j = r.byte j :=
  if_neg fun hc => by omega

namespace Fits
variable {r : Region} (h : r.Fits G)
include h

theorem decode_cleared :
    (r.cleared (requiredBytes G.payloadBytes G.entryCount)).decode G =
      ⟨fun _ => 0, fun _ => 0, fun _ _ => 0⟩ := by
  rw [requiredBytes_exact h.exact_lt]
  refine Part.eq_of_agree fun q => ?_
  have hin := h.inside q
  cases q with
  | hdr w => exact cleared_word r hin
  | word i =>
    have hz : (r.cleared (exactBytes G.payloadBytes G.entryCount)).word
        (seqOffset G.payloadBytes i.val) = 0 := cleared_word r hin
    simp only [Part.Agree, decode_words, hz, asI64_zero]
  | payload i =>
    refine funext fun j => if_pos ?_
    have := j.isLt
    simp only [Part.start, Part.size] at hin
    omega

/-- **`init_header` commutes with decoding**, and stays inside the segment. -/
theorem init_implements (dtype : Dtype) (owner : Pid) :
    ((initRegion G.payloadBytes G.entryCount dtype owner.val).run rawExec r).2.decode G =
        .init G dtype owner.val ∧
      ((initRegion G.payloadBytes G.entryCount dtype owner.val).run rawExec r).2.len = r.len ∧
      ∀ off, exactBytes G.payloadBytes G.entryCount ≤ off →
        ((initRegion G.payloadBytes G.entryCount dtype owner.val).run rawExec r).2.byte off =
          r.byte off := by
  rw [init_run]
  have hcode : dtype.code < 2 ^ 64 := by cases dtype <;> decide
  have howner : owner.val < 2 ^ 64 := by have := owner.lt; omega
  refine ⟨?_, rfl, fun off hoff => ?_⟩
  · have hs : ∀ (r' : Region) (w : HeaderWord) (v : ℕ), r'.len = r.len → v < 2 ^ 64 →
        (r'.setWord w.off v).decode G = (r'.decode G).setHdr w v :=
      fun r' w v hl hv => (h.of_len hl).decode_setHdr w hv
    dsimp only
    rw [hs, hs, hs, hs, hs, h.decode_cleared]
    rotate_left
    any_goals exact rfl
    any_goals assumption
    · exact h.payload_lt
    · exact h.count_lt
    · decide
    refine Part.eq_of_agree fun q => ?_
    cases q with
    | hdr w => cases w <;> rfl
    | word i => rfl
    | payload i => rfl
  · have hw : ∀ w : HeaderWord, w.off + 8 ≤ off := fun w =>
      (off_lt w).trans ((Nat.le_add_right _ _).trans hoff)
    simp only [setWord_byte_ge (hw _)]
    rw [requiredBytes_exact h.exact_lt]
    exact if_neg (not_lt.2 hoff)

end Fits

end Region

/-- **The bytes implement the ring.**  The parts of a segment whose exact size fits into
    the mapping are disjoint and inside of it, slot words are aligned, and on the bytes
    every operation does what it is meant to do to the decoded segment, and changes no
    other part. -/
theorem region_refines {r : Region} (h : r.Fits G) :
    (∀ p q : Part G, p ≠ q → p.start + p.size ≤ q.start ∨ q.start + q.size ≤ p.start) ∧
    (∀ p : Part G, p.start + p.size ≤ r.len) ∧
    (∀ i : Slot G, (Part.word i).start % SLOT_ALIGN = 0) ∧
    (∀ dtype (owner : Pid),
      let r' := ((initRegion G.payloadBytes G.entryCount dtype owner.val).run Region.rawExec r).2
      r'.decode G = .init G dtype owner.val ∧ r'.len = r.len ∧
        ∀ off, exactBytes G.payloadBytes G.entryCount ≤ off → r'.byte off = r.byte off) ∧
    (∀ w : RawWriter G,
      Implements G r w.claimSlot ((r.decode G).claim w) (claimParts (r.decode G) w)) ∧
    (∀ (w : RawWriter G) i,
      Implements G r (w.publish i) ((r.decode G).publish w i) (publishParts i)) ∧
    (∀ (w : RawWriter G) data, Implements G r (w.write data) ((r.decode G).write w data)
      (writeParts (r.decode G) w data)) ∧
    (∀ (w : RawWriter G) (x : WriteHandle G),
      Implements G r (w.commit x) ((r.decode G).publish w x.index) (publishParts x.index)) ∧
    (∀ (i : Slot G) (s : ℕ), s < 2 ^ 63 →
      Implements G r (casSeq i s (-s)) ((r.decode G).pin i s) [.word i]) ∧
    ∀ x : ReadHandle G, x.entrySeq < 2 ^ 64 →
      Implements G r (RawReader.release x) ((r.decode G).release x) [.word x.index] :=
  ⟨fun _ _ => h.apart, fun p => (h.inside p).trans h.exact, h.aligned, h.init_implements,
    h.claimSlot_implements, h.publish_implements, h.write_implements,
    fun w x => h.publish_implements w x.index, fun i _ => h.casSeq_implements i,
    h.release_implements⟩

/-- A ring of one slot, on its bytes: an entry is written, pinned and released. -/
theorem region_refines_tiny : ∃ (i : Slot (.tiny 0)) (r r₁ r₂ : Region),
    (RawWriter.write ⟨i, 0⟩ (List.replicate 8 1)).run (Region.ringExec (.tiny 0)) (.zeroed 88) =
      ((.ok (), ⟨i, 1⟩), r) ∧ (r.decode (.tiny 0)).words i = 1 ∧
    bytesOf ((r.decode (.tiny 0)).payload i) = List.replicate 8 1 ∧
    (r.decode (.tiny 0)).hdr .lastEntrySeq = 1 ∧ (∀ off < 56, r.byte off = 0) ∧
    (casSeq i 1 (-1)).run (Region.ringExec (.tiny 0)) r = (true, r₁) ∧
    (r₁.decode (.tiny 0)).words i = -1 ∧
    (RawReader.release ⟨i, 1⟩).run (Region.ringExec (.tiny 0)) r₁ = ((), r₂) ∧
    (r₂.decode (.tiny 0)).words i = 1 := by
  obtain ⟨i, z, hz, hans, hword, hblock, hlast, hparts⟩ : ∃ i z,
      z = ((Region.zeroed 88).decode (.tiny 0)).write ⟨i, 0⟩ (List.replicate 8 1) ∧
      z.1 = (.ok (), ⟨i, 1⟩) ∧ z.2.words i = 1 ∧
      bytesOf (z.2.payload i) = List.replicate 8 1 ∧ z.2.hdr .lastEntrySeq = 1 ∧
      ∀ q ∈ writeParts ((Region.zeroed 88).decode (.tiny 0)) ⟨i, 0⟩ (List.replicate 8 1),
        56 ≤ q.start :=
    ⟨Geometry.slot _ 0, _, rfl, by decide +kernel⟩
  have hf : (Region.zeroed 88).Fits (.tiny 0) := ⟨by decide, by decide⟩
  obtain ⟨-, ha, hd, hl, hb⟩ := (region_refines hf).2.2.2.2.2.2.1 ⟨i, 0⟩ (List.replicate 8 1)
  rw [← hz] at ha hd
  generalize hr : (RawWriter.write ⟨i, 0⟩ (List.replicate 8 1)).run (Region.ringExec (.tiny 0))
    (.zeroed 88) = x at ha hd hl hb
  have hf₁ : x.2.Fits (.tiny 0) := hf.of_len hl
  have hcas := (region_refines hf₁).2.2.2.2.2.2.2.2.1 i 1 (by norm_num)
  have hpin : z.2.pin i 1 = (true, z.2.setWord i (-1)) := if_pos hword
  rw [Nat.cast_one, hd, hpin] at hcas
  have hf₂ := hf₁.of_len hcas.len
  have hrel := ((region_refines hf₂).2.2.2.2.2.2.2.2.2 ⟨i, 1⟩ (by norm_num)).memory
  refine ⟨i, x.2, ((casSeq i 1 (-1)).run (Region.ringExec (.tiny 0)) x.2).2,
    ((RawReader.release ⟨i, 1⟩).run (Region.ringExec (.tiny 0)) _).2,
    hr.trans (Prod.ext (ha.trans hans) rfl), ?_, ?_, ?_, fun off hoff => ?_, ?_, ?_,
    Prod.ext (Subsingleton.elim _ _) rfl, ?_⟩
  · rw [hd, hword]
  · rw [hd, hblock]
  · rw [hd, hlast]
  · refine hb off fun q hq hc => ?_
    have := hparts q hq
    have := hc.1
    omega
  · have hpinned : _ = true := hcas.answer
    rw [← hpinned]
  · rw [hcas.memory]
    exact Segment.setWord_self ..
  · rw [hrel]
    exact Segment.setWord_self ..

end ZeroChannel
