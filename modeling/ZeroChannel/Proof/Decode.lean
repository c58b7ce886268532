/-
  A region decoded into a segment.

  As long as the exact size of the segment fits into the mapping, its parts occupy
  disjoint ranges of bytes, and decoding into header words, slot words and payload
  blocks commutes with every operation that stores machine integers.
-/
import ZeroChannel.Proof.Layout

namespace ZeroChannel

open Concur

variable {G : Geometry} {α : Type}

/-! ## Parts -/

/-- The parts of a segment. -/
inductive Part (G : Geometry) where
  | hdr (w : HeaderWord)
  | word (i : Slot G)
  | payload (i : Slot G)
  deriving DecidableEq

namespace Part

/-- Where the source looks for a part. -/
def start : Part G → ℕ
  | hdr w => w.off
  | word i => Region.seqOffset G.payloadBytes i.val
  | payload i => Region.payloadOffset G.payloadBytes i.val

def size : Part G → ℕ
  | hdr _ => 8
  | word _ => SLOT_ALIGN
  | payload _ => G.payloadBytes

/-- The byte at `off` belongs to the part. -/
def Covers (p : Part G) (off : ℕ) : Prop := p.start ≤ off ∧ off < p.start + p.size

/-- Two segments have the same contents in the part. -/
def Agree (m m' : Segment G) : Part G → Prop
  | hdr w => m.hdr w = m'.hdr w
  | word i => m.words i = m'.words i
  | payload i => m.payload i = m'.payload i

end Part

/-- The exact size of the segment fits into the mapping, whose length is a `usize`. -/
structure Region.Fits (G : Geometry) (r : Region) : Prop where
  exact : exactBytes G.payloadBytes G.entryCount ≤ r.len
  len : r.len < 2 ^ 64

namespace Region.Fits
variable {r : Region} (h : r.Fits G)
include h

theorem exact_lt : exactBytes G.payloadBytes G.entryCount < 2 ^ 64 := lt_of_le_of_lt h.exact h.len

theorem word_start (i : Slot G) : (Part.word i).start = exactOffset G.payloadBytes i.val :=
  seqOffset_exact i.isLt h.exact_lt

theorem payload_start (i : Slot G) :
    (Part.payload i).start = exactOffset G.payloadBytes i.val + SLOT_ALIGN :=
  payloadOffset_exact i.isLt h.exact_lt

theorem count_lt : G.entryCount < 2 ^ 64 := by
  have := h.exact_lt
  have : G.entryCount * 1 ≤ G.entryCount * (SLOT_ALIGN + G.payloadBytes) :=
    Nat.mul_le_mul_left _ (by unfold SLOT_ALIGN; omega)
  unfold exactBytes at *
  omega

theorem payload_lt : G.payloadBytes < 2 ^ 64 := by
  have := h.exact_lt
  have := exactOffset_add_le G.payloadBytes G.count_pos
  omega

/-- Slot words are aligned. -/
theorem aligned (i : Slot G) : (Part.word i).start % SLOT_ALIGN = 0 := by
  rw [h.word_start i]
  obtain ⟨k, hk⟩ := Nat.dvd_of_mod_eq_zero G.aligned
  refine Nat.mod_eq_zero_of_dvd (Nat.dvd_add ⟨9, rfl⟩ (Dvd.dvd.mul_left ?_ _))
  exact Nat.dvd_add (dvd_refl _) ⟨k, hk⟩

/-- Every part lies inside the mapping. -/
theorem inside (p : Part G) : p.start + p.size ≤ exactBytes G.payloadBytes G.entryCount := by
  cases p with
  | hdr w =>
    have := off_lt w
    simp only [Part.start, Part.size, exactBytes]
    omega
  | word i =>
    have := exactOffset_add_le G.payloadBytes i.isLt
    rw [h.word_start, Part.size]
    omega
  | payload i =>
    have := exactOffset_add_le G.payloadBytes i.isLt
    rw [h.payload_start, Part.size]
    omega

omit h in
/-- The slot of the smaller index ends before the other begins. -/
theorem exactOffset_lt {pb a b : ℕ} (hab : a < b) :
    exactOffset pb a + SLOT_ALIGN + pb ≤ exactOffset pb b := by
  have := exactOffset_add_le pb hab
  unfold exactBytes at this
  unfold exactOffset at this ⊢
  omega

omit h in
/-- The slots do not overlap. -/
theorem slots_apart {i j : Slot G} (hij : i ≠ j) :
    exactOffset G.payloadBytes i.val + SLOT_ALIGN + G.payloadBytes ≤
        exactOffset G.payloadBytes j.val ∨
      exactOffset G.payloadBytes j.val + SLOT_ALIGN + G.payloadBytes ≤
        exactOffset G.payloadBytes i.val := by
  rcases Nat.lt_or_gt_of_ne fun e => hij (Fin.ext e) with hlt | hgt
  · exact Or.inl (exactOffset_lt hlt)
  · exact Or.inr (exactOffset_lt hgt)

/-- **The parts are disjoint.** -/
theorem apart {p q : Part G} (hpq : p ≠ q) :
    p.start + p.size ≤ q.start ∨ q.start + q.size ≤ p.start := by
  have hhdr : ∀ (w : HeaderWord) (i : Slot G), w.off + 8 ≤ exactOffset G.payloadBytes i.val :=
    fun w i => (off_lt w).trans (Nat.le_add_right _ _)
  have hsame : ∀ {i j : Slot G}, Part.word i ≠ Part.word j → i ≠ j := fun hne e => hne (by rw [e])
  have hsame' : ∀ {i j : Slot G}, Part.payload i ≠ Part.payload j → i ≠ j :=
    fun hne e => hne (by rw [e])
  cases p with
  | hdr w =>
    cases q with
    | hdr w' => exact off_disjoint fun e => hpq (by rw [e])
    | word j => rw [h.word_start]; exact Or.inl (hhdr w j)
    | payload j =>
      have := hhdr w j
      rw [h.payload_start]
      simp only [Part.start, Part.size]
      omega
  | word i =>
    cases q with
    | hdr w' => rw [h.word_start]; exact Or.inr (hhdr w' i)
    | word j =>
      have := slots_apart (hsame hpq)
      simp only [h.word_start, Part.size]
      omega
    | payload j =>
      simp only [h.word_start, h.payload_start, Part.size]
      by_cases hij : i = j
      · subst hij; omega
      · have := slots_apart hij
        omega
  | payload i =>
    cases q with
    | hdr w' =>
      have := hhdr w' i
      rw [h.payload_start]
      simp only [Part.start, Part.size]
      omega
    | word j =>
      simp only [h.word_start, h.payload_start, Part.size]
      by_cases hij : i = j
      · subst hij; omega
      · have := slots_apart hij
        omega
    | payload j =>
      have := slots_apart (hsame' hpq)
      simp only [h.payload_start, Part.size]
      omega

theorem covers_ne {p q : Part G} {off : ℕ} (hp : p.Covers off) (hpq : p ≠ q) : ¬ q.Covers off := by
  have := h.apart hpq
  unfold Part.Covers at *
  omega

end Region.Fits

/-! ## Machine integers -/

/-- The value is an `i64`. -/
def InI64 (v : ℤ) : Prop := -2 ^ 63 ≤ v ∧ v < 2 ^ 63

theorem asI64_zero : asI64 0 = 0 := asI64_of_lt (Nat.two_pow_pos 63)

theorem asI64_in {n : ℕ} (h : n < 2 ^ 64) : InI64 (asI64 n) := by
  unfold InI64 asI64
  split_ifs <;> omega

theorem ofI64_lt (v : ℤ) : Region.ofI64 v < 2 ^ 64 := by
  unfold Region.ofI64
  omega

theorem asI64_ofI64 {v : ℤ} (h : InI64 v) : asI64 (Region.ofI64 v) = v := by
  unfold InI64 at h
  unfold asI64 Region.ofI64
  split_ifs <;> omega

theorem asI64_inj {a b : ℕ} (ha : a < 2 ^ 64) (hb : b < 2 ^ 64) (h : asI64 a = asI64 b) : a = b := by
  unfold asI64 at h
  split_ifs at h <;> omega

/-- The values an operation stores are machine integers. -/
def SegOp.Ranged : SegOp G → Prop
  | storeSeq _ v => InI64 v
  | casSeq _ _ new => InI64 new
  | store _ v => v < 2 ^ 64
  | cas _ _ new => new < 2 ^ 64
  | _ => True

namespace Region

/-! ## Decoding -/

/-- The segment stored in the region. -/
def decode (G : Geometry) (r : Region) : Segment G where
  hdr := r.hdr
  words i := asI64 (r.word (seqOffset G.payloadBytes i.val))
  payload i j := r.byte (payloadOffset G.payloadBytes i.val + j.val)

theorem decode_words (r : Region) (i : Slot G) :
    (r.decode G).words i = asI64 (r.word (seqOffset G.payloadBytes i.val)) := by
  simp only [decode]

theorem word_lt (r : Region) (off : ℕ) : r.word off < 2 ^ 64 := by
  have hlt := Nat.ofDigits_lt_base_pow_length (b := 256)
    (l := (List.range 8).map fun k => (r.byte (off + k)).toNat) (by norm_num) fun x hx => by
      obtain ⟨k, -, rfl⟩ := List.mem_map.1 hx
      exact UInt8.toNat_lt _
  simpa [word] using hlt

/-- Equal words are equal bytes. -/
theorem word_inj {r r' : Region} {off : ℕ} (h : r.word off = r'.word off) {k : ℕ} (hk : k < 8) :
    r.byte (off + k) = r'.byte (off + k) := by
  have hl := Nat.ofDigits_inj_of_len_eq (b := 256) (by norm_num) (by simp)
    (fun x hx => by obtain ⟨k, -, rfl⟩ := List.mem_map.1 hx; exact UInt8.toNat_lt _)
    (fun x hx => by obtain ⟨k, -, rfl⟩ := List.mem_map.1 hx; exact UInt8.toNat_lt _) h
  have := List.map_inj_left.1 hl k (List.mem_range.2 hk)
  exact UInt8.toNat_inj.1 this

/-- A part that decodes to the same has the same bytes. -/
theorem byte_of_agree {r r' : Region} {p : Part G} (h : p.Agree (r.decode G) (r'.decode G))
    {off : ℕ} (hp : p.Covers off) : r'.byte off = r.byte off := by
  obtain ⟨k, rfl⟩ := Nat.exists_eq_add_of_le hp.1
  have hk : k < p.size := by have := hp.2; omega
  cases p with
  | hdr w =>
    have hw : r.word w.off = r'.word w.off := h
    exact (word_inj hw hk).symm
  | word i =>
    have hw : (r.decode G).words i = (r'.decode G).words i := h
    rw [decode_words, decode_words] at hw
    exact (word_inj (asI64_inj (r.word_lt _) (r'.word_lt _) hw) hk).symm
  | payload i =>
    have hb : (r.decode G).payload i = (r'.decode G).payload i := h
    exact (congrFun hb ⟨k, hk⟩).symm

/-- A part whose bytes are left alone decodes to the same. -/
theorem agree_of_byte {r r' : Region} {q : Part G}
    (h : ∀ off, q.Covers off → r'.byte off = r.byte off) : q.Agree (r.decode G) (r'.decode G) := by
  cases q with
  | hdr w =>
    have hw : r'.word w.off = r.word w.off :=
      word_congr fun k hk => h _ ⟨Nat.le_add_right _ _, Nat.add_lt_add_left hk _⟩
    exact hw.symm
  | word i =>
    have hw : r'.word (seqOffset G.payloadBytes i.val) = r.word (seqOffset G.payloadBytes i.val) :=
      word_congr fun k hk => h _ ⟨Nat.le_add_right _ _, Nat.add_lt_add_left hk _⟩
    simp only [Part.Agree, decode_words, hw]
  | payload i =>
    exact funext fun j => (h _ ⟨Nat.le_add_right _ _, Nat.add_lt_add_left j.isLt _⟩).symm

end Region

/-! ## Agreement -/

namespace Part
variable {m m' m'' : Segment G} {q : Part G}

theorem Agree.trans (h : q.Agree m m') (h' : q.Agree m' m'') : q.Agree m m'' := by
  cases q <;> exact Eq.trans h h'

theorem agree_refl (m : Segment G) (q : Part G) : q.Agree m m := by
  cases q <;> exact rfl

theorem eq_of_agree (h : ∀ q : Part G, q.Agree m m') : m = m' := by
  have hh : m.hdr = m'.hdr := funext fun w => h (.hdr w)
  have hw : m.words = m'.words := funext fun i => h (.word i)
  have hp : m.payload = m'.payload := funext fun i => h (.payload i)
  cases m
  cases m'
  simp_all only

theorem agree_setWord {i : Slot G} {v : ℤ} (h : q ≠ .word i) : q.Agree m (m.setWord i v) := by
  cases q with
  | hdr w => exact rfl
  | word j => exact (Segment.setWord_ne m (fun e => h (by rw [e])) v).symm
  | payload j => exact rfl

theorem agree_setHdr {w : HeaderWord} {v : ℕ} (h : q ≠ .hdr w) : q.Agree m (m.setHdr w v) := by
  cases q with
  | hdr w' => exact (Segment.setHdr_ne m (fun e => h (by rw [e])) v).symm
  | word j => exact rfl
  | payload j => exact rfl

theorem agree_setBlock {i : Slot G} {b : Block G} (h : q ≠ .payload i) :
    q.Agree m (m.setBlock i b) := by
  cases q with
  | hdr w => exact rfl
  | word j => exact rfl
  | payload j => exact (Segment.setBlock_ne m (fun e => h (by rw [e])) b).symm

end Part

/-! ## One operation -/

namespace Region.Fits
variable {r : Region} (h : r.Fits G)
include h

/-- Changing one part only. -/
theorem decode_update {r' : Region} {p : Part G} {m : Segment G}
    (hb : ∀ off, ¬ p.Covers off → r'.byte off = r.byte off)
    (hm : ∀ q ≠ p, q.Agree (r.decode G) m) (hp : p.Agree (r'.decode G) m) : r'.decode G = m := by
  refine Part.eq_of_agree fun q => ?_
  by_cases hq : q = p
  · rw [hq]; exact hp
  · have hag : q.Agree (r'.decode G) (r.decode G) :=
      agree_of_byte fun off hc => (hb off (h.covers_ne hc hq)).symm
    exact hag.trans (hm q hq)

theorem decode_setSeq (i : Slot G) {n : ℕ} (hn : n < 2 ^ 64) :
    (r.setWord (seqOffset G.payloadBytes i.val) n).decode G = (r.decode G).setWord i (asI64 n) := by
  refine h.decode_update (p := .word i) (fun off hc => if_neg hc) (fun q hq => Part.agree_setWord hq)
    ?_
  simp only [Part.Agree, decode_words, Region.word_setWord hn, Segment.setWord_self]

theorem decode_setByte (i : Slot G) (j : Fin G.payloadBytes) (b : UInt8) :
    (r.setByte (payloadOffset G.payloadBytes i.val + j.val) b).decode G =
      (r.decode G).setByte i j b := by
  refine h.decode_update (p := .payload i) (fun off hc => Function.update_of_ne ?_ _ _)
    (fun q hq => Part.agree_setBlock hq) (funext fun j' => ?_)
  · rintro rfl
    exact hc ⟨Nat.le_add_right _ _, Nat.add_lt_add_left j.isLt _⟩
  · rw [Segment.setByte_self]
    simp only [decode, Region.setByte, Function.update_apply, Nat.add_left_cancel_iff, Fin.ext_iff]

theorem decode_setHdr (w : HeaderWord) {v : ℕ} (hv : v < 2 ^ 64) :
    (r.setWord w.off v).decode G = (r.decode G).setHdr w v := by
  refine h.decode_update (p := .hdr w) (fun off hc => if_neg hc) (fun q hq => Part.agree_setHdr hq)
    ?_
  exact (hdr_setWord hv).trans (Segment.setHdr_self _ w v).symm

/-- **One operation commutes with decoding.** -/
theorem exec_decode {o : SegOp G} (ho : o.Ranged) :
    (ringExec G o r).1 = (Segment.exec o (r.decode G)).1 ∧
      (ringExec G o r).2.decode G = (Segment.exec o (r.decode G)).2 := by
  cases o with
  | loadSeq i => simp only [ringExec, Segment.exec, decode_words, and_self]
  | clearSeq i =>
    refine ⟨rfl, (h.decode_setSeq i (Nat.two_pow_pos 64)).trans ?_⟩
    rw [asI64_zero]
    rfl
  | storeSeq i v =>
    refine ⟨rfl, (h.decode_setSeq i (ofI64_lt v)).trans ?_⟩
    rw [asI64_ofI64 ho]
    rfl
  | casSeq i old new =>
    simp only [ringExec, Segment.exec, decode_words]
    split_ifs
    · exact ⟨rfl, by rw [h.decode_setSeq i (ofI64_lt new), asI64_ofI64 ho]⟩
    · exact ⟨rfl, rfl⟩
  | loadByte i j => exact ⟨rfl, rfl⟩
  | storeByte i j b => exact ⟨rfl, h.decode_setByte i j b⟩
  | load w => exact ⟨rfl, rfl⟩
  | store w v => exact ⟨rfl, h.decode_setHdr w ho⟩
  | cas w old new =>
    simp only [ringExec, Segment.exec]
    split_ifs with hw hw'
    · exact ⟨rfl, h.decode_setHdr w ho⟩
    · exact absurd hw hw'
    · exact absurd ‹_› hw
    · exact ⟨rfl, rfl⟩

end Region.Fits

end ZeroChannel
