/-
  How long an entry is kept beside pins.

  The cursor goes round the ring and skips what is held, so no slot is claimed twice
  before every other slot has been claimed or found held (`retention`).  Pins and
  releases change which slots it skips, never where it goes on.
-/
import ZeroChannel.Proof.Resume
import ZeroChannel.Concur.Lap

namespace ZeroChannel

open Concur

variable {G : Geometry} {ι : Type}

/-! ## The claim scan, by distance from the cursor -/

theorem slot_after (i : Slot G) : G.slot (i.val + 1) = after i := by
  have := i.isLt
  ext
  rw [G.slot_val, after]
  dsimp only
  split_ifs with h
  · rw [h, Nat.mod_self]
  · exact Nat.mod_eq_of_lt (by omega)

theorem ahead_slot (c : Slot G) {d : ℕ} (hd : d < G.entryCount) :
    ahead c (G.slot (c.val + d)) = d := by
  have hc := c.isLt
  unfold ahead
  rw [G.slot_val]
  rcases Nat.lt_or_ge (c.val + d) G.entryCount with h | h
  · rw [Nat.mod_eq_of_lt h, if_pos (by omega)]
    omega
  · rw [Nat.mod_eq_sub_mod h, Nat.mod_eq_of_lt (by omega), if_neg (by omega)]
    omega

/-- The slot claimed is the nearest that is not held. -/
theorem free?_nearest {words : Slot G → ℤ} {c i : Slot G}
    (h : free? words c.val G.entryCount = some i) :
    0 ≤ words i ∧ ∀ j, ahead c j < ahead c i → words j < 0 := by
  obtain ⟨d, hd, rfl, hi, hneg⟩ := free?_some h
  refine ⟨hi, fun j hj => ?_⟩
  obtain ⟨e, he, rfl⟩ := slot_ahead c j
  rw [ahead_slot c he, ahead_slot c hd] at hj
  exact hneg e hj

namespace Session

/-- The claim scan of the write comes to slot `j` and finds it held. -/
def FindsHeld (s : Session G ι) (data : List UInt8) (j : Slot G) : Prop :=
  data.length = G.payloadBytes ∧ ∃ e < G.entryCount, j = G.slot (s.writer.currentIndex.val + e) ∧
    ∀ e' ≤ e, s.mem.seg.words (G.slot (s.writer.currentIndex.val + e')) < 0

/-- The call is a write that claims slot `j` or finds it held. -/
def Comes (s : Session G ι) (c : Call G ι) (j : Slot G) : Prop :=
  ∃ data, c = .write data ∧ (s.claims c = some j ∨ s.FindsHeld data j)

theorem findsHeld {s : Session G ι} {data : List UInt8} {j : Slot G}
    (hlen : data.length = G.payloadBytes)
    (h : ∀ k, ahead s.writer.currentIndex k ≤ ahead s.writer.currentIndex j →
      s.mem.seg.words k < 0) : s.FindsHeld data j := by
  obtain ⟨e, he, rfl⟩ := slot_ahead s.writer.currentIndex j
  refine ⟨hlen, e, he, rfl, fun e' he' => h _ ?_⟩
  rw [ahead_slot _ he, ahead_slot _ (by omega)]
  exact he'

/-- What the claim of a write takes. -/
theorem claims_write {s : Session G ι} {data : List UInt8} {i : Slot G}
    (h : s.claims (.write data) = some i) : data.length = G.payloadBytes ∧
      free? s.mem.seg.words s.writer.currentIndex.val G.entryCount = some i := by
  simp only [claims] at h
  split_ifs at h with hlen
  exact ⟨hlen, h⟩

/-- A slot the scan does not come to is farther than the one claimed. -/
theorem ahead_of_not_comes {s : Session G ι} {data : List UInt8} {i j : Slot G}
    (hi : s.claims (.write data) = some i) (hj : ¬ s.Comes (.write data) j) :
    ahead s.writer.currentIndex i < ahead s.writer.currentIndex j := by
  obtain ⟨hlen, hf⟩ := claims_write hi
  by_contra hle
  rcases Nat.lt_or_ge (ahead s.writer.currentIndex j) (ahead s.writer.currentIndex i) with hlt | hge
  · refine hj ⟨data, rfl, Or.inr (findsHeld hlen fun k hk => ?_)⟩
    exact (free?_nearest hf).2 k (hk.trans_lt hlt)
  · obtain rfl := ahead_inj (le_antisymm (not_lt.1 hle) hge)
    exact hj ⟨data, rfl, Or.inl hi⟩

section
variable [DecidableEq ι]

/-- **One lap**: between two claims of slot `i`, some write comes to slot `j`. -/
theorem lap {s₂ s : Session G ι} {data : List UInt8} {i j : Slot G} (hP : s₂.Pinned)
    (hc : s₂.writer.currentIndex = after i) (hj : j ≠ i)
    (h : Reach step (fun t c _ => plain c ∧ ¬ t.Comes c j) s₂ s)
    (hs : s.claims (.write data) = some i) : s.FindsHeld data j := by
  -- until then slot `j` comes before slot `i`
  obtain ⟨-, hlt⟩ := h.inv (I := fun t => t.Pinned ∧
    ahead t.writer.currentIndex j < ahead t.writer.currentIndex i)
    ⟨hP, by rw [hc]; exact ahead_after_lt_self hj⟩ fun t c t' ⟨hP, hlt⟩ ht ⟨hpl, hcomes⟩ => by
      obtain ⟨hP', ⟨k, d, rfl, hlen, hf, rfl⟩ | hS⟩ := plain_step hP hpl ht
      · refine ⟨hP', ?_⟩
        have hk : t.claims (.write d) = some k := by simp only [claims, hlen, if_true, hf]
        have hkj := ahead_of_not_comes hk hcomes
        have hnext : (t.wrote k d).writer.currentIndex = after k := slot_after k
        rw [hnext]
        exact ahead_after_lt hkj hlt
      · rw [hS.writer]
        exact ⟨hP', hlt⟩
  obtain ⟨hlen, hf⟩ := claims_write hs
  exact findsHeld hlen fun k hk => (free?_nearest hf).2 k (hk.trans_lt hlt)

omit [DecidableEq ι] in
/-- The slots held are those of `H`. -/
def HeldAre (s : Session G ι) (H : Finset (Slot G)) : Prop := ∀ i, s.mem.seg.words i < 0 ↔ i ∈ H

omit [DecidableEq ι] in
/-- A write while the slots of `H` are held goes to the nearest other slot. -/
theorem HeldAre.claims {s : Session G ι} {H : Finset (Slot G)} (h : s.HeldAre H) {k : Slot G}
    (hf : free? s.mem.seg.words s.writer.currentIndex.val G.entryCount = some k) :
    k ∈ Hᶜ ∧ ∀ j ∈ Hᶜ, ahead s.writer.currentIndex k ≤ ahead s.writer.currentIndex j := by
  obtain ⟨hk, hneg⟩ := free?_nearest hf
  refine ⟨Finset.mem_compl.2 fun hkH => ?_, fun j hj => ?_⟩
  · exact absurd ((h k).2 hkH) (not_lt.2 hk)
  · by_contra hlt
    exact Finset.mem_compl.1 hj ((h j).1 (hneg j (not_le.1 hlt)))

/-- A number of `2 ^ 63` or more makes the word of its slot negative, and then that slot is
    one of those held. -/
theorem stretch_lt {dtype : Dtype} {owner : ℕ} {s₀ s : Session G ι} {H : Finset (Slot G)}
    (h₀ : Reach step (fun _ c _ => plain c) (init G ι dtype owner) s₀) (hH : s₀.HeldAre H)
    (h : Reach step (fun _ c t => plain c ∧ t.HeldAre H) s₀ s)
    (hlt : s₀.mem.log.length < s.mem.log.length) (hn : s.mem.log.length < 2 ^ 64) :
    s.mem.log.length < 2 ^ 63 := by
  induction h with
  | refl => exact absurd hlt (lt_irrefl _)
  | @tail t t' c hr hs hp ih =>
    obtain ⟨hP, hcount, -⟩ := plain_reach (h₀.trans (hr.mono fun _ _ _ h => h.1))
    have hHt : t.HeldAre H := hr.inv hH fun _ _ _ _ _ h => h.2
    obtain ⟨-, ⟨k, data, -, -, hf, rfl⟩ | hS⟩ := plain_step hP hp.1 hs
    · have hlog : (t.wrote k data).mem.log.length = t.mem.log.length + 1 := by simp [wrote]
      have hk : k ∉ H := fun hk => absurd ((hHt k).2 hk) (not_lt.2 (free?_nonneg hf))
      have hword := mt (hp.2 k).1 hk
      rw [wrote_words, if_pos rfl, hcount, u64_of_lt (show t.mem.log.length < 2 ^ 64 by omega),
        u64_of_lt (by omega)] at hword
      unfold asI64 at hword
      split_ifs at hword <;> omega
    · rw [hS.log] at hlt hn ⊢
      exact ih hlt hn

/-- A stretch during which the slots of `H` are held throughout, and no other is. -/
theorem stretch {s₀ s : Session G ι} {H : Finset (Slot G)} (hR : s₀.Resting) (hH : s₀.HeldAre H)
    (h : Reach step (fun _ c t => (plain c ∧ t.HeldAre H) ∧ t.mem.log.length < 2 ^ 63) s₀ s) :
    Lapped Hᶜ s.writer.currentIndex s.mem.seg.words s₀.mem.log.length s.mem.log.length := by
  refine (h.inv (I := fun t => (t.Resting ∧ t.HeldAre H) ∧ Lapped Hᶜ t.writer.currentIndex
    t.mem.seg.words s₀.mem.log.length t.mem.log.length) ⟨⟨hR, hH⟩, .start _ _ _ _⟩ ?_).2
  rintro t c t' ⟨⟨hR, hH⟩, hL⟩ ht ⟨⟨hpl, hH'⟩, hn⟩
  obtain ⟨hP', ⟨k, data, rfl, hlen, hf, rfl⟩ | hS⟩ := plain_step hR.toPinned hpl ht
  · have hlog : (t.wrote k data).mem.log.length = t.mem.log.length + 1 := by simp [Session.wrote]
    have hn' : t.mem.log.length + 1 < 2 ^ 63 := by omega
    obtain ⟨hk, hmin⟩ := hH.claims hf
    have hnext : (t.wrote k data).writer.currentIndex = after k := slot_after k
    refine ⟨⟨hR.wrote (free?_nonneg hf) hn', hH'⟩, ?_⟩
    rw [hlog, hnext]
    refine hL.next hk hmin ?_ fun i _ hi => ?_
    · rw [wrote_words, if_pos rfl, hR.seq hn', asI64_of_lt hn']
      norm_cast
    · rw [wrote_words, if_neg hi]
  · refine ⟨⟨hR.same hP' hS, hH'⟩, ?_⟩
    rw [hS.writer, hS.log]
    refine hL.congr fun i hi => ?_
    -- a slot that is not held before or after has its word unchanged
    have hi := Finset.mem_compl.1 hi
    have h₁ := mt (hH i).1 hi
    have h₂ := mt (hH' i).1 hi
    have := hS.marks i
    omega

/-- **Retention under pins.**  In every run:
    * of two writes that claim slot `i`, the later finds every other slot held that no
      write between them has claimed or found held;
    * a write erases the newest entry only if all other slots are held;
    * while the slots held are those of `H`, as many writes as there are other slots
      leave exactly that many newest entries in these (as long as the counter, a `u64`,
      does not wrap around). -/
theorem retention {dtype : Dtype} {owner : ℕ} {s : Session G ι}
    (h : Reach step (fun _ c _ => plain c) (init G ι dtype owner) s) :
    (∀ (s₁ s₂ : Session G ι) data data' i j,
      Reach step (fun _ c _ => plain c) (init G ι dtype owner) s₁ →
      s₁.step (.write data) = some s₂ → s₁.claims (.write data) = some i →
      Reach step (fun t c _ => plain c ∧ ¬ t.Comes c j) s₂ s →
      s.claims (.write data') = some i → j ≠ i → s.FindsHeld data' j) ∧
    (∀ data i, s.claims (.write data) = some i → 0 < s.mem.log.length →
      s.mem.seg.words i = s.mem.log.length → ∀ j, j ≠ i → s.mem.seg.words j < 0) ∧
    ∀ (s₀ : Session G ι) (H : Finset (Slot G)), H.card < G.entryCount →
      Reach step (fun _ c _ => plain c) (init G ι dtype owner) s₀ → s₀.HeldAre H →
      Reach step (fun _ c t => plain c ∧ t.HeldAre H) s₀ s → s.mem.log.length < 2 ^ 64 →
      s₀.mem.log.length + (G.entryCount - H.card) ≤ s.mem.log.length →
        (∀ i, i ∉ H → (s.mem.log.length : ℤ) < s.mem.seg.words i + (G.entryCount - H.card : ℕ) ∧
          s.mem.seg.words i ≤ s.mem.log.length) ∧
        ∀ k : ℕ, s.mem.log.length < k + (G.entryCount - H.card) → k ≤ s.mem.log.length →
          ∃ i, i ∉ H ∧ s.mem.seg.words i = k := by
  have hlog : ∀ (s : Session G ι) c s', step s c = some s' →
      s.mem.log.length ≤ s'.mem.log.length := fun _ _ _ => step_log
  refine ⟨fun s₁ s₂ data data' i j h₁ hw hi hr he hj => ?_, fun data i hi h0 hword j hj => ?_,
    fun s₀ H hcardH h₀ hH hr h64 hlen => ?_⟩
  · have hP : s₁.Pinned := (plain_reach h₁).1
    obtain ⟨hP₂, ⟨k, d, hc, -, hf, rfl⟩ | hS⟩ := plain_step hP rfl hw
    · cases hc
      rw [(claims_write hi).2, Option.some.injEq] at hf
      subst hf
      exact lap hP₂ (slot_after i) hj hr he
    · -- the write claimed a slot, so it published
      rw [step, call_write, if_pos (claims_write hi).1, (claims_write hi).2] at hw
      cases hw
      exact lap hP₂ (slot_after i) hj hr he
  · -- a slot word is below `2 ^ 63`, so the newest number is
    have hn : s.mem.log.length < 2 ^ 63 := by
      have := (plain_reach h).1.lt i
      omega
    have hR := resting_reach (h.bounded (fun s => s.mem.log.length) hlog hn)
    obtain ⟨k, hk, hc⟩ := hR.newest h0
    obtain rfl : i = k := hR.marked.inj i k (by omega) (by omega)
    have hf := (claims_write hi).2
    rw [hc] at hf
    exact claims_newest_last hf hj
  · have hn := stretch_lt h₀ hH hr (by omega) h64
    have hR₀ := resting_reach (h₀.bounded (fun s => s.mem.log.length) hlog
      (show s₀.mem.log.length < 2 ^ 63 by omega))
    have hL := stretch hR₀ hH (hr.bounded (fun s => s.mem.log.length) hlog hn)
    have hcard : Hᶜ.card = G.entryCount - H.card := by
      rw [Finset.card_compl, Fintype.card_fin]
    obtain ⟨hrange, hall⟩ := hL.full (by rw [hcard]; exact hlen)
    rw [hcard] at hrange hall
    refine ⟨fun i hi => hrange i (Finset.mem_compl.2 hi), fun k hk hkn => ?_⟩
    obtain ⟨i, hi, hw⟩ := hall k hk hkn
    exact ⟨i, Finset.mem_compl.1 hi, hw⟩

/-- With entry 1 held in a ring of two the next write erases entry 2, the newest: the
    other slot is held. -/
theorem retention_newest : ∃ s : Session (.tiny 1) Unit,
    s.claims (.write (List.replicate 8 3)) = some (Geometry.slot _ 1) ∧
    s.mem.seg.words (Geometry.slot _ 1) = 2 ∧ s.mem.seg.words (Geometry.slot _ 0) < 0 := by
  have hrun : (steps step (fun _ c => plain c) (init (.tiny 1) Unit .u8 7)
      [.write (List.replicate 8 1), .write (List.replicate 8 2), .tryAcquire () none]).map
        (fun s => (s.claims (.write (List.replicate 8 3)), s.mem.seg.words (Geometry.slot _ 1),
          s.mem.log.length)) =
      some (some (Geometry.slot _ 1), 2, 2) := by decide +kernel
  obtain ⟨s, hs, he⟩ := reach_eval hrun
  simp only [Prod.mk.injEq] at he
  obtain ⟨hclaims, hword, hlen⟩ := he
  have hret := retention hs
  exact ⟨s, hclaims, hword, hret.2.1 _ _ hclaims (by rw [hlen]; norm_num)
    (by rw [hword, hlen]; norm_num) (Geometry.slot _ 0) (by decide)⟩

end

end Session

end ZeroChannel
