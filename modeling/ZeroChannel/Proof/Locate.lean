/-
  `locate` under interference.

  Whatever the other parties do between its loads, an entry that `locate`
  returns had its number in its slot when that slot was loaded, and everything
  stable that followed from this then still holds.
-/
import ZeroChannel.Reader
import ZeroChannel.Concur.Rely

namespace ZeroChannel

open Concur

variable {G : Geometry} {σ : Type}

/-- Operations that only load. -/
def SegOp.IsLoad : SegOp G → Prop
  | loadSeq _ | loadByte _ _ | load _ => True
  | _ => False

/-! ## The calls of a one-copy reader only load -/

theorem loadSeq_loads (i : Slot G) : (loadSeq i).All SegOp.IsLoad := ⟨trivial, fun _ => trivial⟩

theorem watermark_loads (r : RawReader G) (fromEntrySeq : Option ℕ) :
    (r.watermark fromEntrySeq).All SegOp.IsLoad := by
  refine ⟨trivial, fun writerEntrySeq => ?_⟩
  simp only [Prog.bind_pure]
  split_ifs <;> trivial

theorem locate_loads (r : RawReader G) (watermark : ℕ) : (r.locate watermark).All SegOp.IsLoad := by
  have hscan : (RawReader.scan (G := G) watermark).All SegOp.IsLoad :=
    Prog.All.foldlM (fun best i => Prog.All.bind (loadSeq_loads i) fun raw => by trivial) _ _
  refine (loadSeq_loads _).bind fun next => ?_
  split_ifs
  · trivial
  · exact hscan

theorem readAttempts_loads (r : RawReader G) (watermark : ℕ) : ∀ (k : ℕ) (dst : List UInt8),
    (r.readAttempts watermark dst k).All SegOp.IsLoad := by
  intro k
  induction k with
  | zero =>
    intro dst
    trivial
  | succ k ih =>
    intro dst
    refine (locate_loads r watermark).bind fun found => ?_
    rcases found with _ | ⟨i, seq⟩
    · trivial
    · have hload : ∀ j, (loadByte i j).All SegOp.IsLoad := fun j => ⟨trivial, fun _ => trivial⟩
      have hcopy : (RawReader.copyOut i dst).All SegOp.IsLoad :=
        Prog.All.foldlM (fun dst j => Prog.All.bind (hload j) fun b => by trivial) _ _
      refine hcopy.bind fun dst' => (loadSeq_loads i).bind fun raw => ?_
      split_ifs
      · exact ih dst'
      · trivial

theorem readInto_loads (r : RawReader G) (dst : List UInt8) (fromEntrySeq : Option ℕ) :
    (r.readInto dst fromEntrySeq).All SegOp.IsLoad := by
  unfold RawReader.readInto
  split_ifs
  · trivial
  · refine (watermark_loads r fromEntrySeq).bind fun m => ?_
    rcases m with _ | watermark
    · trivial
    · exact (readAttempts_loads r watermark _ dst).bind fun _ => trivial

/-! ## Under interference -/

/-- Under the contract, loads may be performed at any time. -/
structure Loads (seg : σ → Segment G) (ex : Exec (segSig G) σ) (Γ : Contract (segSig G) σ) : Prop
    extends Reads seg ex where
  guar : ∀ (o : SegOp G) s s', o.IsLoad → Γ.rely (some o) s s' → Γ.guar o s' s'

section
variable {seg : σ → Segment G} {ex : Exec (segSig G) σ} {Γ : Contract (segSig G) σ}
  (hL : Loads seg ex Γ)
include hL

theorem valid_loadSeq {Q : ℤ → σ → Prop} {i : Slot G} {s : σ}
    (h : ∀ s', Γ.rely (some (.loadSeq i)) s s' → Γ.ok s' → Q ((seg s').words i) s') :
    Valid ex Γ Q (loadSeq i) s := by
  intro s' hs
  rw [hL.seq]
  exact fun ho => ⟨hL.guar _ _ _ trivial hs, h s' hs ho⟩

theorem valid_loadByte {Q : UInt8 → σ → Prop} {i : Slot G} {j : Fin G.payloadBytes} {s : σ}
    (h : ∀ s', Γ.rely (some (.loadByte i j)) s s' → Γ.ok s' → Q ((seg s').payload i j) s') :
    Valid ex Γ Q (loadByte i j) s := by
  intro s' hs
  rw [hL.byte]
  exact fun ho => ⟨hL.guar _ _ _ trivial hs, h s' hs ho⟩

theorem valid_loadHdr {Q : ℕ → σ → Prop} {w : HeaderWord} {s : σ}
    (h : ∀ s', Γ.rely (some (.load w)) s s' → Γ.ok s' → Q ((seg s').hdr w) s') :
    Valid ex Γ Q (loadHdr w) s := by
  intro s' hs
  rw [hL.hdr]
  exact fun ho => ⟨hL.guar _ _ _ trivial hs, h s' hs ho⟩

/-- The gate: the effective watermark is the caller's, or the bookmark. -/
theorem valid_watermark {J : σ → Prop} (hJ : ∀ o s s', Γ.rely o s s' → J s → J s')
    (r : RawReader G) (fromEntrySeq : Option ℕ) {s : σ} (hs : J s) :
    Valid ex Γ (fun a s => J s ∧ ∀ w, a = some w → w = fromEntrySeq.getD r.lastEntrySeq)
      (r.watermark fromEntrySeq) s := by
  refine (valid_loadHdr hL fun s' hs' _ => ?_).bind
  have hJ' := hJ _ _ _ hs' hs
  split_ifs
  · exact ⟨hJ', fun w hw => by cases hw⟩
  · exact ⟨hJ', fun w hw => by cases hw; rfl⟩

section
variable {w : ℕ} {J : σ → Prop} {K : Slot G → ℕ → σ → Prop}
  (hJ : ∀ o s s', Γ.rely o s s' → J s → J s')
  (hK : ∀ o s s' i n, Γ.rely o s s' → K i n s → K i n s')
  (hlt : ∀ s i, J s → (seg s).words i < 2 ^ 63)
  (hnew : ∀ s i, J s → 0 < (seg s).words i → w < ((seg s).words i).toNat →
    K i ((seg s).words i).toNat s)

omit hL in
include hnew in
theorem better_spec {best : Option (Slot G × ℕ)} {idx : Slot G} {s : σ} (hs : J s)
    (hb : ∀ i n, best = some (i, n) → w < n ∧ K i n s) :
    ∀ i n, RawReader.better w best idx ((seg s).words idx) = some (i, n) → w < n ∧ K i n s := by
  intro i n h
  unfold RawReader.better at h
  split_ifs at h with h₁ h₂
  · exact hb i n h
  · exact hb i n h
  · have hn := hnew s idx hs (by omega) (by omega)
    split at h
    · cases h; exact ⟨by omega, hn⟩
    · split_ifs at h
      · cases h; exact ⟨by omega, hn⟩
      · cases h; exact hb _ _ rfl

include hJ hK hnew

theorem valid_scan {s : σ} (hs : J s) :
    Valid ex Γ (fun a s => J s ∧ ∀ i n, a = some (i, n) → w < n ∧ K i n s)
      (RawReader.scan w) s := by
  refine Valid.foldlM (I := fun _ best s => J s ∧ ∀ i n, best = some (i, n) → w < n ∧ K i n s)
    (fun idx _ best s hI => ?_) _ _ _ ⟨hs, fun _ _ h => by cases h⟩
  refine (valid_loadSeq hL fun s' hs' _ => ?_).bind
  have hJ' := hJ _ _ _ hs' hI.1
  exact ⟨hJ', better_spec hnew hJ' fun i n h =>
    ⟨(hI.2 i n h).1, hK _ _ _ _ _ hs' (hI.2 i n h).2⟩⟩

include hlt in
/-- **What `locate` returns, under interference.** -/
theorem valid_locate (r : RawReader G) {s : σ} (hs : J s) :
    Valid ex Γ (fun a s => J s ∧ ∀ i n, a = some (i, n) → w < n ∧ K i n s) (r.locate w) s := by
  refine (valid_loadSeq hL fun s' hs' _ => ?_).bind
  have hJ' := hJ _ _ _ hs' hs
  split_ifs with h
  · obtain ⟨h₁, h₂⟩ := h
    have hlt' := hlt s' (G.slot (r.lastReadIdx.val + 1)) hJ'
    have hw : w < ((seg s').words (G.slot (r.lastReadIdx.val + 1))).toNat := by
      unfold saturatingAdd at h₂; omega
    exact ⟨hJ', fun i n h => by cases h; exact ⟨hw, hnew s' _ hJ' h₁ hw⟩⟩
  · exact valid_scan hL hJ hK hnew hJ'

/-! ## The one-copy read

`C i n j b` is what is known of a byte `b` loaded as byte `j` of entry `n` in
slot `i`. -/

section
variable {C : Slot G → ℕ → Fin G.payloadBytes → UInt8 → σ → Prop}
  (hC : ∀ o s s' i n j b, Γ.rely o s s' → C i n j b s → C i n j b s')
  (hbyte : ∀ s i n j, J s → K i n s → C i n j ((seg s).payload i j) s)
include hC hbyte

omit hnew in
theorem valid_copyOut {i : Slot G} {n : ℕ} {dst : List UInt8} {s : σ} (hs : J s) (hi : K i n s) :
    Valid ex Γ (fun dst' s => J s ∧ K i n s ∧ dst'.length = dst.length ∧
      ∀ (j : Fin G.payloadBytes) b, dst'[j.val]? = some b → C i n j b s)
      (RawReader.copyOut i dst) s := by
  refine (Valid.foldlM (I := fun js dst' s => J s ∧ K i n s ∧ dst'.length = dst.length ∧
    ∀ j, j ∉ js → ∀ b, dst'[j.val]? = some b → C i n j b s) (fun j js dst' s hI => ?_) _ _ _
      ⟨hs, hi, rfl, fun j hj => absurd (List.mem_finRange j) hj⟩).mono
    fun _ _ hI => ⟨hI.1, hI.2.1, hI.2.2.1, fun j => hI.2.2.2 j List.not_mem_nil⟩
  obtain ⟨hs, hi, hlen, hb⟩ := hI
  refine (valid_loadByte hL fun s' hs' _ => ?_).bind
  have hJ' := hJ _ _ _ hs' hs
  have hK' := hK _ _ _ _ _ hs' hi
  refine ⟨hJ', hK', by rw [List.length_set, hlen], fun j' hj' b hjb => ?_⟩
  by_cases hjj : j' = j
  · subst hjj
    rw [List.getElem?_set_self' ] at hjb
    obtain ⟨-, -, rfl⟩ := Option.map_eq_some_iff.1 hjb
    exact hbyte s' i n j' hJ' hK'
  · rw [List.getElem?_set_ne fun e => hjj (Fin.ext e).symm] at hjb
    exact hC _ _ _ _ _ _ _ hs' (hb j' (fun hm => (List.mem_cons.1 hm).elim hjj hj') b hjb)

/-- What a successful attempt has seen: the word of the slot was the entry's
    number again after the copy. -/
def ReadOk (seg : σ → Segment G) (K : Slot G → ℕ → σ → Prop)
    (C : Slot G → ℕ → Fin G.payloadBytes → UInt8 → σ → Prop) (w n : ℕ) (r : RawReader G)
    (dst : List UInt8) (s : σ) : Prop :=
  ∃ i, r = ⟨n, i⟩ ∧ w < n ∧ K i n s ∧ (seg s).words i = asI64 n ∧
    ∀ (j : Fin G.payloadBytes) b, dst[j.val]? = some b → C i n j b s

include hlt in
theorem valid_readAttempts (r : RawReader G) : ∀ (k : ℕ) (dst : List UInt8) (s : σ), J s →
    Valid ex Γ (fun a s => J s ∧ a.2.2.length = dst.length ∧ (a.1 = none → a.2.1 = r) ∧
      ∀ n, a.1 = some n → ReadOk seg K C w n a.2.1 a.2.2 s) (r.readAttempts w dst k) s
  | 0, _, _, hs => ⟨hs, rfl, fun _ => rfl, fun _ h => by cases h⟩
  | k + 1, dst, s, hs => by
    refine ((valid_locate hL hJ hK hlt hnew r hs).mono fun a s₁ ⟨hs₁, ha⟩ => ?_).bind
    match a with
    | none => exact ⟨hs₁, rfl, fun _ => rfl, fun _ h => by cases h⟩
    | some (i, n) =>
      obtain ⟨hwn, hi⟩ := ha i n rfl
      refine ((valid_copyOut hL hJ hK hC hbyte hs₁ hi).mono
        fun dst' s₂ ⟨hs₂, hi₂, hlen, hb⟩ => ?_).bind
      refine (valid_loadSeq hL fun s₃ hr _ => ?_).bind
      have hs₃ := hJ _ _ _ hr hs₂
      split_ifs with hraw
      · exact (valid_readAttempts r k dst' s₃ hs₃).mono
          fun a s ⟨h₁, h₂, h₃⟩ => ⟨h₁, h₂.trans hlen, h₃⟩
      · refine ⟨hs₃, hlen, nofun, fun m hm => ?_⟩
        cases hm
        exact ⟨i, rfl, hwn, hK _ _ _ _ _ hr hi₂, not_not.1 hraw,
          fun j b hj => hC _ _ _ _ _ _ _ hr (hb j b hj)⟩

end

end

section
variable {J : σ → Prop} {K : Slot G → ℕ → σ → Prop}
  {C : Slot G → ℕ → Fin G.payloadBytes → UInt8 → σ → Prop}
  (hJ : ∀ o s s', Γ.rely o s s' → J s → J s')
  (hK : ∀ o s s' i n, Γ.rely o s s' → K i n s → K i n s')
  (hlt : ∀ s i, J s → (seg s).words i < 2 ^ 63)
  (hnew : ∀ s i, J s → 0 < (seg s).words i → K i ((seg s).words i).toNat s)
  (hC : ∀ o s s' i n j b, Γ.rely o s s' → C i n j b s → C i n j b s')
  (hbyte : ∀ s i n j, J s → K i n s → C i n j ((seg s).payload i j) s)
include hJ hK hlt hnew hC hbyte

/-- **What `read_into` returns, under interference.** -/
theorem valid_readInto (r : RawReader G) (dst : List UInt8) (fromEntrySeq : Option ℕ) {s : σ}
    (hs : J s) :
    Valid ex Γ (fun a s => J s ∧ a.2.2.length = dst.length ∧
      ((∀ n, a.1 ≠ .ok (some n)) → a.2.1 = r) ∧
      ∀ n, a.1 = .ok (some n) → dst.length = G.payloadBytes ∧
        ReadOk seg K C (fromEntrySeq.getD r.lastEntrySeq) n a.2.1 a.2.2 s)
      (r.readInto dst fromEntrySeq) s := by
  unfold RawReader.readInto
  split_ifs with hlen
  · exact ⟨hs, rfl, fun _ => rfl, fun _ h => by cases h⟩
  · refine ((valid_watermark hL hJ r fromEntrySeq hs).mono fun a s₁ ⟨hs₁, ha⟩ => ?_).bind
    match a with
    | none => exact ⟨hs₁, rfl, fun _ => rfl, fun _ h => by cases h⟩
    | some w =>
      refine ((valid_readAttempts hL hJ hK hlt (fun s i hs h _ => hnew s i hs h) hC hbyte r
        READ_RETRIES dst s₁ hs₁).mono fun a s₂ ⟨hs₂, hl, hnone, hsome⟩ => ?_).bind
      refine ⟨hs₂, hl, fun hn => hnone ?_, fun n hn => ⟨not_not.1 hlen, ?_⟩⟩
      · cases h : a.1 with
        | none => rfl
        | some n => exact absurd (congrArg Except.ok h) (hn n)
      · rw [← ha w rfl]; exact hsome n (Except.ok.inj hn)

end

end

end ZeroChannel
