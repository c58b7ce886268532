/-
  The calls of a reader, run alone.

  `located words r w` is what `locate` returns on slot words that do not change:
  the smallest number above `w`, if there is one (`located_spec`, `locate_least`).
-/
import ZeroChannel.Channel

namespace ZeroChannel

open Concur
open Concur.Prog (run_bind)

variable {G : Geometry} {σ : Type}

/-! ## `locate` -/

/-- The full scan, on fixed words. -/
def bestOf (words : Slot G → ℤ) (w : ℕ) (best : Option (Slot G × ℕ)) (l : List (Slot G)) :
    Option (Slot G × ℕ) :=
  l.foldl (fun best i => RawReader.better w best i (words i)) best

/-- `locate`, on fixed words. -/
def located (words : Slot G → ℤ) (r : RawReader G) (w : ℕ) : Option (Slot G × ℕ) :=
  let next := words (G.slot (r.lastReadIdx.val + 1))
  if 0 < next ∧ next.toNat = saturatingAdd w 1 then
    some (G.slot (r.lastReadIdx.val + 1), next.toNat)
  else bestOf words w none (List.finRange G.entryCount)

/-- What the scan has found among the slots `seen`: nothing above `w`, or the
    smallest word above it. -/
def Smallest (words : Slot G → ℤ) (w : ℕ) (seen : Slot G → Prop) : Option (Slot G × ℕ) → Prop
  | none => ∀ j, seen j → words j ≤ w
  | some (i, n) => words i = n ∧ w < n ∧ ∀ j, seen j → (w : ℤ) < words j → (n : ℤ) ≤ words j

/-- One round of the scan. -/
theorem better_smallest {words : Slot G → ℤ} {w : ℕ} {seen : Slot G → Prop}
    {best : Option (Slot G × ℕ)} (h : Smallest words w seen best) (i : Slot G) :
    Smallest words w (fun j => seen j ∨ j = i) (RawReader.better w best i (words i)) := by
  unfold RawReader.better
  split_ifs with h₁ h₂
  · -- the word is not above the watermark: nothing changes
    rcases best with _ | ⟨k, n⟩
    · rintro j (hj | rfl)
      · exact h j hj
      · omega
    · refine ⟨h.1, h.2.1, ?_⟩
      rintro j (hj | rfl) hw
      · exact h.2.2 j hj hw
      · omega
  · rcases best with _ | ⟨k, n⟩
    · rintro j (hj | rfl)
      · exact h j hj
      · omega
    · refine ⟨h.1, h.2.1, ?_⟩
      rintro j (hj | rfl) hw
      · exact h.2.2 j hj hw
      · omega
  · rcases best with _ | ⟨k, n⟩
    · refine ⟨by omega, by omega, ?_⟩
      rintro j (hj | rfl) hw
      · have := h j hj
        omega
      · omega
    · dsimp only
      split_ifs with hlt
      · refine ⟨by omega, by omega, ?_⟩
        rintro j (hj | rfl) hw
        · have := h.2.2 j hj hw
          omega
        · omega
      · refine ⟨h.1, h.2.1, ?_⟩
        rintro j (hj | rfl) hw
        · exact h.2.2 j hj hw
        · omega

theorem bestOf_smallest {words : Slot G → ℤ} {w : ℕ} : ∀ {l : List (Slot G)} {seen : Slot G → Prop}
    {best : Option (Slot G × ℕ)}, Smallest words w seen best →
      Smallest words w (fun j => seen j ∨ j ∈ l) (bestOf words w best l) := by
  intro l
  induction l with
  | nil =>
    intro seen best h
    simpa [bestOf] using h
  | cons i l ih =>
    intro seen best h
    have := ih (better_smallest h i)
    simpa only [bestOf, List.foldl_cons, List.mem_cons, or_assoc] using this

/-- **What `locate` returns**: the smallest number above the watermark. -/
theorem located_spec {words : Slot G → ℤ} (hlt : ∀ i, words i < 2 ^ 63) (r : RawReader G) (w : ℕ) :
    Smallest words w (fun _ => True) (located words r w) := by
  unfold located
  have hn := hlt (G.slot (r.lastReadIdx.val + 1))
  dsimp only
  split_ifs with h
  · -- the fast path returns `w + 1`, and no word above `w` is smaller
    have hs : saturatingAdd w 1 = w + 1 := by unfold saturatingAdd at h ⊢; omega
    refine ⟨by omega, by omega, fun j _ hj => ?_⟩
    omega
  · have h₀ : Smallest words w (fun _ : Slot G => False) none := fun _ hj => hj.elim
    have := bestOf_smallest (l := List.finRange G.entryCount) h₀
    simpa only [List.mem_finRange, or_true] using this

theorem located_none {words : Slot G → ℤ} (hlt : ∀ i, words i < 2 ^ 63) {r : RawReader G} {w : ℕ} :
    located words r w = none ↔ ∀ i, words i ≤ w := by
  have := located_spec hlt r w
  constructor
  · intro h i
    rw [h] at this
    exact this i trivial
  · intro h
    rcases hl : located words r w with _ | ⟨i, n⟩
    · rfl
    · rw [hl] at this
      obtain ⟨h₁, h₂, -⟩ := this
      have := h i
      omega

theorem located_some {words : Slot G → ℤ} (hlt : ∀ i, words i < 2 ^ 63) {r : RawReader G} {w n : ℕ}
    {i : Slot G} (h : located words r w = some (i, n)) :
    words i = n ∧ w < n ∧ ∀ j, (w : ℤ) < words j → (n : ℤ) ≤ words j := by
  have := located_spec hlt r w
  rw [h] at this
  exact ⟨this.1, this.2.1, fun j => this.2.2 j trivial⟩

section
variable {seg : σ → Segment G} {ex : Exec (segSig G) σ} (hR : Reads seg ex)
include hR

theorem scan_run (w : ℕ) (s : σ) :
    (RawReader.scan w).run ex s = (bestOf (seg s).words w none (List.finRange G.entryCount), s) := by
  have key : ∀ (l : List (Slot G)) (best : Option (Slot G × ℕ)),
      (l.foldlM (fun best idx => do
        let raw ← loadSeq idx
        pure (RawReader.better w best idx raw)) best : SegProg G _).run ex s =
        (bestOf (seg s).words w best l, s) := by
    intro l
    induction l with
    | nil => intro best; rfl
    | cons i l ih =>
      intro best
      rw [List.foldlM_cons, run_bind, hR.run_loadSeq]
      exact ih _
  exact key _ _

theorem locate_run (r : RawReader G) (w : ℕ) (s : σ) :
    (r.locate w).run ex s = (located (seg s).words r w, s) := by
  unfold RawReader.locate located
  rw [hR.run_loadSeq]
  dsimp only
  split_ifs
  · rfl
  · exact scan_run hR w s

/-! ## The reads -/

/-- The gate, on a fixed watermark. -/
def gate (last : ℕ) (r : RawReader G) (fromEntrySeq : Option ℕ) : Option ℕ :=
  let w := fromEntrySeq.getD r.lastEntrySeq
  if last ≤ w then none else some w

omit hR in
theorem gate_some {last : ℕ} {r : RawReader G} {f : Option ℕ} {w : ℕ} :
    gate last r f = some w ↔ w = f.getD r.lastEntrySeq ∧ w < last := by
  unfold gate
  dsimp only
  split_ifs with hle
  · constructor
    · intro h
      cases h
    · rintro ⟨rfl, hlt⟩
      omega
  · constructor
    · intro h
      cases h
      exact ⟨rfl, not_le.1 hle⟩
    · rintro ⟨rfl, -⟩
      rfl

theorem watermark_run (r : RawReader G) (fromEntrySeq : Option ℕ) (s : σ) :
    (r.watermark fromEntrySeq).run ex s =
      (gate ((seg s).hdr .lastEntrySeq) r fromEntrySeq, s) := by
  unfold RawReader.watermark gate
  rw [hR.run_loadHdr]
  dsimp only
  split_ifs <;> rfl

theorem copyOut_run (i : Slot G) {dst : List UInt8} (hdst : dst.length = G.payloadBytes) (s : σ) :
    (RawReader.copyOut i dst).run ex s = (bytesOf ((seg s).payload i), s) := by
  have key : ∀ (l : List (Fin G.payloadBytes)) (dst : List UInt8), dst.length = G.payloadBytes →
      (∀ j : Fin G.payloadBytes, j ∉ l → dst[j.val]? = some ((seg s).payload i j)) →
      (l.foldlM (fun (dst : List UInt8) j => do
        let b ← loadByte i j
        pure (dst.set j.val b)) dst : SegProg G _).run ex s = (bytesOf ((seg s).payload i), s) := by
    intro l
    induction l with
    | nil =>
      intro dst hlen hd
      have hbytes : dst = bytesOf ((seg s).payload i) := by
        refine List.ext_getElem (by simp [bytesOf, hlen]) fun j hj hj' => ?_
        have := hd ⟨j, hlen ▸ hj⟩ List.not_mem_nil
        rw [List.getElem?_eq_getElem hj, Option.some.injEq] at this
        simpa [bytesOf] using this
      exact congrArg (·, s) hbytes
    | cons j l ih =>
      intro dst hlen hd
      rw [List.foldlM_cons, run_bind, hR.run_loadByte]
      refine ih (dst.set j.val _) (by rw [List.length_set, hlen]) fun j' hj' => ?_
      by_cases hjj : j' = j
      · subst hjj
        rw [List.getElem?_set_self (by omega)]
      · rw [List.getElem?_set_ne fun e => hjj (Fin.ext e).symm]
        exact hd j' fun hm => (List.mem_cons.1 hm).elim hjj hj'
  exact key _ dst hdst fun j hj => absurd (List.mem_finRange j) hj

/-- A read whose words do not change needs one attempt. -/
theorem readAttempts_run (r : RawReader G) (w : ℕ) {dst : List UInt8}
    (hdst : dst.length = G.payloadBytes) (k : ℕ) {s : σ} (hlt : ∀ i, (seg s).words i < 2 ^ 63) :
    (r.readAttempts w dst (k + 1)).run ex s =
      match located (seg s).words r w with
      | none => ((none, r, dst), s)
      | some (i, n) => ((some n, ⟨n, i⟩, bytesOf ((seg s).payload i)), s) := by
  unfold RawReader.readAttempts
  rw [run_bind, locate_run hR]
  rcases hl : located (seg s).words r w with _ | ⟨i, n⟩
  · rfl
  · obtain ⟨hw, -, -⟩ := located_some hlt hl
    have hn : n < 2 ^ 63 := by have := hlt i; omega
    simp only [run_bind, copyOut_run hR i hdst, hR.run_loadSeq]
    rw [if_neg (by rw [hw, asI64_of_lt hn]; exact not_not.2 rfl)]
    rfl

/-- What `read_into` returns: nothing, or the smallest number above the watermark. -/
def readAlone (m : Segment G) (r : RawReader G) (dst : List UInt8) (fromEntrySeq : Option ℕ) :
    Option ℕ × RawReader G × List UInt8 :=
  match (gate (m.hdr .lastEntrySeq) r fromEntrySeq).bind (located m.words r) with
  | none => (none, r, dst)
  | some (i, n) => (some n, ⟨n, i⟩, bytesOf (m.payload i))

/-- **`read_into` run alone.** -/
theorem readInto_run (r : RawReader G) {dst : List UInt8} (hdst : dst.length = G.payloadBytes)
    (fromEntrySeq : Option ℕ) {s : σ} (hlt : ∀ i, (seg s).words i < 2 ^ 63) :
    (r.readInto dst fromEntrySeq).run ex s =
      ((.ok (readAlone (seg s) r dst fromEntrySeq).1, (readAlone (seg s) r dst fromEntrySeq).2),
        s) := by
  unfold RawReader.readInto readAlone
  rw [if_neg (not_not.2 hdst), run_bind, watermark_run hR]
  cases gate ((seg s).hdr .lastEntrySeq) r fromEntrySeq with
  | none => rfl
  | some w =>
    simp only [run_bind, READ_RETRIES, readAttempts_run hR r w hdst 3 hlt, Option.bind_some]
    rcases located (seg s).words r w with _ | ⟨i, n⟩ <;> rfl

end

theorem readInto_len (r : RawReader G) {dst : List UInt8} (hdst : dst.length ≠ G.payloadBytes)
    (fromEntrySeq : Option ℕ) :
    r.readInto dst fromEntrySeq = .pure (.error (.invalidArgument
      s!"destination holds {dst.length} bytes, expected {G.payloadBytes}"), r, dst) := by
  unfold RawReader.readInto
  rw [if_pos hdst]
  rfl

/-- **`locate` answers with the least number above the watermark**, and the slot that
    holds it, wherever it looks first. -/
theorem locate_least {h : Hist G} (hlt : ∀ i, h.seg.words i < 2 ^ 63)
    (hinj : ∀ i j, 0 < h.seg.words i → h.seg.words i = h.seg.words j → i = j) (w : ℕ) :
    ∃ res, (∀ r : RawReader G, (r.locate w).run Hist.readerExec h = (res, h)) ∧
      (∀ i n, res = some (i, n) ↔
        IsLeast {k : ℕ | w < k ∧ ∃ j, h.seg.words j = k} n ∧ h.seg.words i = n) ∧
      (res = none ↔ ∀ j, h.seg.words j ≤ w) := by
  have key : ∀ (r : RawReader G) i n, located h.seg.words r w = some (i, n) ↔
      IsLeast {k : ℕ | w < k ∧ ∃ j, h.seg.words j = k} n ∧ h.seg.words i = n := by
    intro r i n
    constructor
    · intro hl
      obtain ⟨hi, hw, hmin⟩ := located_some hlt hl
      refine ⟨⟨⟨hw, i, hi⟩, ?_⟩, hi⟩
      rintro k ⟨hk, j, hj⟩
      have := hmin j (by omega)
      omega
    · rintro ⟨⟨⟨hw, -⟩, hmin⟩, hi⟩
      rcases hl : located h.seg.words r w with _ | ⟨j, k⟩
      · have := (located_none hlt).1 hl i
        omega
      · obtain ⟨hj, hwk, hmin'⟩ := located_some hlt hl
        have hkn := hmin' i (by omega)
        have hnk : n ≤ k := hmin ⟨hwk, j, hj⟩
        obtain rfl : k = n := by omega
        rw [hinj j i (by omega) (hj.trans hi.symm)]
  refine ⟨located h.seg.words .attach w, fun r => ?_, key .attach, located_none hlt⟩
  -- two readers that look elsewhere first get the same answer
  rw [locate_run readerExec_reads]
  refine congrArg (·, h) (Option.ext fun x => ?_)
  rw [key r x.1 x.2, ← key .attach x.1 x.2]

/-- Among the words 3, -9, 7 and `i64::MIN`, above 3 every reader finds 7. -/
theorem locate_least_seven : ∃ h : Hist (.tiny 3),
    (List.finRange 4).map h.seg.words = [3, -9, 7, -2 ^ 63] ∧
    ∀ r : RawReader _, (r.locate 3).run Hist.readerExec h = (some (Geometry.slot _ 2, 7), h) := by
  let words : Slot (.tiny 3) → ℤ := fun i => [3, -9, 7, -2 ^ 63].getD i.val 0
  let h : Hist (.tiny 3) := ⟨{ Segment.init _ .u8 7 with words }, [], [], []⟩
  have hall : ∀ j, words j ≤ 3 ∨ words j = 7 := by decide
  obtain ⟨res, hrun, hsome, -⟩ := locate_least (h := h) (by decide) (by decide) 3
  have hres : res = some (Geometry.slot _ 2, 7) := by
    refine (hsome (Geometry.slot _ 2) 7).2 ⟨⟨⟨by norm_num, Geometry.slot _ 2, rfl⟩, ?_⟩, rfl⟩
    rintro k ⟨hk, j, hj⟩
    have hj' : words j = k := hj
    rcases hall j with hle | heq <;> omega
  exact ⟨h, rfl, fun r => hres ▸ hrun r⟩

/-! ## Pins -/

/-- A slot pinned. -/
def Hist.pinned (h : Hist G) (x : ReadHandle G) : Hist G :=
  { h with seg := h.seg.setWord x.index (-x.entrySeq), held := h.held ++ [x] }

/-- A slot handed back. -/
def Hist.released (h : Hist G) (x : ReadHandle G) : Hist G :=
  { h with seg := h.seg.setWord x.index x.entrySeq, held := h.held.erase x }

@[simp] theorem Hist.pinned_words (h : Hist G) (x : ReadHandle G) (j : Slot G) :
    (h.pinned x).seg.words j = if j = x.index then -(x.entrySeq : ℤ) else h.seg.words j :=
  Segment.setWord_words h.seg x.index j _

@[simp] theorem Hist.released_words (h : Hist G) (x : ReadHandle G) (j : Slot G) :
    (h.released x).seg.words j = if j = x.index then (x.entrySeq : ℤ) else h.seg.words j :=
  Segment.setWord_words h.seg x.index j _

@[simp] theorem Hist.pinned_hdr (h : Hist G) (x : ReadHandle G) :
    (h.pinned x).seg.hdr = h.seg.hdr := rfl

@[simp] theorem Hist.released_hdr (h : Hist G) (x : ReadHandle G) :
    (h.released x).seg.hdr = h.seg.hdr := rfl

/-- **`try_acquire` run alone.** -/
theorem tryAcquireReader_run (r : RawReader G) (fromEntrySeq : Option ℕ) {h : Hist G}
    (hlt : ∀ i, h.seg.words i < 2 ^ 63) :
    (r.tryAcquire fromEntrySeq).run Hist.readerExec h =
      match (gate (h.seg.hdr .lastEntrySeq) r fromEntrySeq).bind (located h.seg.words r) with
      | none => ((none, r), h)
      | some (i, n) => ((some ⟨i, n⟩, ⟨n, i⟩), h.pinned ⟨i, n⟩) := by
  unfold RawReader.tryAcquire
  rw [run_bind, watermark_run readerExec_reads]
  cases gate (h.seg.hdr .lastEntrySeq) r fromEntrySeq with
  | none => rfl
  | some w =>
    simp only [READ_RETRIES, RawReader.acquireAttempts, run_bind, locate_run readerExec_reads,
      Option.bind_some]
    rcases hl : located h.seg.words r w with _ | ⟨i, n⟩
    · rfl
    · obtain ⟨hw, -, -⟩ := located_some hlt hl
      have hn : n < 2 ^ 63 := by have := hlt i; omega
      simp [casSeq, Hist.readerExec, hw, asI64_of_lt hn, Hist.pinned]

theorem release_run {x : ReadHandle G} (hx : x.entrySeq < 2 ^ 63) (h : Hist G) :
    (RawReader.release x).run Hist.readerExec h = ((), h.released x) := by
  simp [RawReader.release, storeSeq, Hist.readerExec, asI64_of_lt hx, Hist.released]

end ZeroChannel
