/-
  Reads do not step over a readable entry.

  `locate` is no snapshot, but it looks at every slot: a number that stands in its
  slot throughout the call is met by each scan, and the scan ends with one that is
  no larger.  Nothing is asked of the other slots, or of what the writer does to
  them meanwhile.
-/
import ZeroChannel.Proof.Ops

namespace ZeroChannel

open Concur

variable {G : Geometry} {σ : Type}

/-! ## Scans -/

section
variable {seg : σ → Segment G} {ex : Exec (segSig G) σ} {k : Slot G} {e w : ℕ}

/-- The contract of a reader while slot `k` holds entry `e`, whatever else the others
    do. -/
abbrev whileStays (seg : σ → Segment G) (k : Slot G) (e : ℕ) : Contract (segSig G) σ :=
  within (fun _ _ => True) fun s => (seg s).words k = e

theorem within_loads (hR : Reads seg ex) (R : σ → σ → Prop) (J : σ → Prop) :
    Loads seg ex (within R J) :=
  ⟨hR, fun _ _ _ _ _ => trivial⟩

/-- The best so far never gets worse. -/
theorem better_le {idx i : Slot G} {n : ℕ} {raw : ℤ} {best : Option (Slot G × ℕ)}
    (hb : best = some (i, n)) (hn : n ≤ e) :
    ∃ i' n', RawReader.better w best idx raw = some (i', n') ∧ n' ≤ e := by
  subst hb
  unfold RawReader.better
  dsimp only
  split_ifs
  · exact ⟨i, n, rfl, hn⟩
  · exact ⟨i, n, rfl, hn⟩
  · exact ⟨idx, raw.toNat, rfl, by omega⟩
  · exact ⟨i, n, rfl, hn⟩

/-- Once the entry is met, the best is no larger. -/
theorem better_met {idx : Slot G} {best : Option (Slot G × ℕ)} (hw : w < e) :
    ∃ i n, RawReader.better w best idx e = some (i, n) ∧ n ≤ e := by
  unfold RawReader.better
  rw [if_neg (by omega), if_neg (by omega)]
  rcases best with _ | ⟨i, n⟩
  · exact ⟨idx, _, rfl, by omega⟩
  · dsimp only
    split_ifs
    · exact ⟨idx, _, rfl, by omega⟩
    · exact ⟨i, n, rfl, by omega⟩

variable (hR : Reads seg ex) (hw : w < e)
include hR hw

theorem scan_met (s : σ) : Valid ex (whileStays seg k e)
    (fun a _ => ∃ i n, a = some (i, n) ∧ n ≤ e) (RawReader.scan w) s := by
  refine (Valid.foldlM (I := fun xs best (_ : σ) => k ∈ xs ∨ ∃ i n, best = some (i, n) ∧ n ≤ e)
    (fun idx xs best s hI => ?_) (List.finRange G.entryCount) none s
    (Or.inl (List.mem_finRange k))).mono fun a _ h => ?_
  · refine (valid_loadSeq (within_loads hR _ _) fun s' ⟨_, hs'⟩ _ => ?_).bind
    rcases hI with hk | ⟨i, n, hb, hn⟩
    · rcases List.mem_cons.1 hk with rfl | hk
      · rw [hs']
        exact Or.inr (better_met hw)
      · exact Or.inl hk
    · exact Or.inr (better_le hb hn)
  · rcases h with hk | h
    · cases hk
    · exact h

theorem locate_met (r : RawReader G) (s : σ) : Valid ex (whileStays seg k e)
    (fun a _ => ∃ i n, a = some (i, n) ∧ n ≤ e) (r.locate w) s := by
  refine (valid_loadSeq (within_loads hR _ _) fun s' _ _ => ?_).bind
  split_ifs with hfast
  · -- the fast path returns the very next number
    have := hfast.2
    unfold saturatingAdd at this
    exact ⟨_, _, rfl, by omega⟩
  · exact scan_met hR hw s'

theorem locate_le (r : RawReader G) (s : σ) : Valid ex (whileStays seg k e)
    (fun a _ => ∀ i n, a = some (i, n) → n ≤ e) (r.locate w) s := by
  refine (locate_met hR hw r s).mono ?_
  rintro a _ ⟨i, n, rfl, hn⟩ i' n' ha
  cases ha
  exact hn

theorem readAttempts_le (r : RawReader G) : ∀ (t : ℕ) (dst : List UInt8) (s : σ),
    Valid ex (whileStays seg k e) (fun a _ => ∀ n, a.1 = some n → n ≤ e)
      (r.readAttempts w dst t) s
  | 0, _, _ => fun _ h => by cases h
  | t + 1, dst, s => by
    refine ((locate_le hR hw r s).mono fun a s₁ ha => ?_).bind
    match a with
    | none => exact fun _ h => by cases h
    | some (i, n) =>
      have hcopy : Valid ex (whileStays seg k e) (fun _ _ => True) (RawReader.copyOut i dst) s₁ :=
        Valid.foldlM (I := fun _ _ _ => True)
          (fun j _ _ _ _ => (valid_loadByte (within_loads hR _ _) fun _ _ _ => trivial).bind) _ _ _
          trivial
      refine (hcopy.mono fun dst' s₂ _ => ?_).bind
      refine (valid_loadSeq (within_loads hR _ _) fun s₃ _ _ => ?_).bind
      split_ifs
      · exact readAttempts_le r t dst' s₃
      · rintro m ⟨⟩
        exact ha i n rfl

end

/-- The watermark of a read goes to the reads as it is. -/
theorem watermark_eq {seg : σ → Segment G} {ex : Exec (segSig G) σ} (hR : Reads seg ex)
    (R : σ → σ → Prop) (J : σ → Prop) (r : RawReader G) (f : Option ℕ) (s : σ) :
    Valid ex (within R J) (fun a _ => ∀ w, a = some w → w = f.getD r.lastEntrySeq)
      (r.watermark f) s := by
  refine (valid_loadHdr (within_loads hR _ _) fun s' _ _ => ?_).bind
  split_ifs
  · rintro w ⟨⟩
  · rintro w ⟨⟩
    rfl

/-! ## Calls -/

/-- The effective watermark of a reader's call. -/
def ReaderCall.mark (r : RawReader G) : ReaderCall G → Option ℕ
  | .readInto _ f | .tryAcquire f => some (f.getD r.lastEntrySeq)
  | .release _ => none

/-- The entry a reader's call returns. -/
def ReaderOut.entry : ReaderOut G → Option ℕ
  | .readInto (.ok n) _ => n
  | .tryAcquire x => x.map ReadHandle.entrySeq
  | _ => none

section
variable {k : Slot G} {e w : ℕ} (hw : w < e)
include hw

theorem readInto_le {r : RawReader G} {f : Option ℕ} (hf : f.getD r.lastEntrySeq = w)
    (dst : List UInt8) (h : Hist G) :
    Valid Hist.readerExec (whileStays Hist.seg k e) (fun a _ => ∀ n, a.1 = .ok (some n) → n ≤ e)
      (r.readInto dst f) h := by
  unfold RawReader.readInto
  split_ifs
  · exact fun _ h => by cases h
  · refine ((watermark_eq readerExec_reads _ _ r f h).mono fun a h₁ ha => ?_).bind
    match a with
    | none => exact fun _ h => by cases h
    | some w' =>
      obtain rfl : w' = w := (ha w' rfl).trans hf
      refine ((readAttempts_le readerExec_reads hw r READ_RETRIES dst h₁).mono fun a h₂ ha => ?_).bind
      exact fun n hn => ha n (Except.ok.inj hn)

theorem acquireAttempts_le (r : RawReader G) : ∀ (t : ℕ) (h : Hist G),
    Valid Hist.readerExec (whileStays Hist.seg k e) (fun a _ => ∀ x, a.1 = some x → x.entrySeq ≤ e)
      (r.acquireAttempts w t) h
  | 0, _ => fun _ h => by cases h
  | t + 1, h => by
    refine ((locate_le readerExec_reads hw r h).mono fun a h₁ ha => ?_).bind
    match a with
    | none => exact fun _ h => by cases h
    | some (i, n) =>
      refine (reader_casSeq fun h₂ _ => ⟨fun _ => ⟨trivial, ?_⟩, fun _ => ⟨trivial, ?_⟩⟩).bind
      · exact acquireAttempts_le r t h₂
      · rintro x ⟨⟩
        exact ha i n rfl

theorem tryAcquire_le {r : RawReader G} {f : Option ℕ} (hf : f.getD r.lastEntrySeq = w)
    (h : Hist G) :
    Valid Hist.readerExec (whileStays Hist.seg k e) (fun a _ => ∀ x, a.1 = some x → x.entrySeq ≤ e)
      (r.tryAcquire f) h := by
  refine ((watermark_eq readerExec_reads _ _ r f h).mono fun a h₁ ha => ?_).bind
  match a with
  | none => exact fun _ h => by cases h
  | some w' =>
    obtain rfl : w' = w := (ha w' rfl).trans hf
    exact acquireAttempts_le hw r READ_RETRIES h₁

end

section
variable {ι : Type} [DecidableEq ι] {zc : Option ι}

/-- **Reads are minimal.**  In every run, from whatever state, an entry that stands in
    its slot from the moment a read is called to the moment it returns is not passed
    over. -/
theorem read_minimal {s s' : (channel G ι zc).Conf} {r : ι}
    {l : ReaderLoc G} {c : ReaderCall G} {o : ReaderOut G} {k : Slot G} {e w n : ℕ}
    (h : Pool.Spans (fun h : Hist G => h.seg.words k = e) s s' (.reader r) l c o)
    (hw : c.mark l.raw = some w) (hn : o.entry = some n) : ¬ (w < e ∧ e < n) := by
  rintro ⟨hwe, hen⟩
  obtain ⟨l', -, hpost⟩ := h.post (R := fun _ _ => True)
    ⟨fun _ => trivial, fun _ _ _ _ _ => trivial, fun _ _ _ _ _ => trivial⟩
    (Q := fun a => ∀ n, ReaderOut.entry a.1 = some n → n ≤ e)
    fun p h₁ hp => by
    cases c with
    | readInto dst f =>
      cases hp
      refine ((readInto_le hwe (Option.some.inj hw) dst h₁).mono fun a h₂ ha => ?_).bind
      intro n hn
      cases hres : a.1 with
      | error er => rw [hres] at hn; cases hn
      | ok m => rw [hres] at hn; exact ha n (hres.trans (congrArg _ hn))
    | tryAcquire f =>
      simp only [channel, ReaderLoc.enter] at hp
      split_ifs at hp
      cases hp
      refine ((tryAcquire_le hwe (Option.some.inj hw) h₁).mono fun a h₂ ha => ?_).bind
      intro n hn
      obtain ⟨x, hx, rfl⟩ := Option.map_eq_some_iff.1 hn
      exact ha x hx
    | release x => cases hw
  exact absurd (hpost n hn) (not_le.2 hen)

end

/-- The calls a reader has completed, with their answers. -/
def readsOf {ι : Type} [DecidableEq ι] {zc : Option ι} (s : (channel G ι zc).Conf) (r : ι) :
    List (ReaderCall G × ReaderOut G) := s.hist (.reader r)

/-- The second entry stands in its slot while the reader reads the first, and the writer
    begins to recycle the slot of that one. -/
theorem read_minimal_two : ∃ (s s' : (channel (.tiny 1) Unit none).Conf) (l : ReaderLoc (.tiny 1)),
    Pool.Spans (fun h => h.seg.words (Geometry.slot _ 1) = ((2 : ℕ) : ℤ)) s s' (.reader ()) l
      (ReaderCall.readInto (List.replicate 8 0) none)
      (ReaderOut.readInto (.ok (some 1)) (List.replicate 8 1)) ∧ ¬ (0 < 2 ∧ 2 < 1) := by
  have hrun : ((steps Pool.step (fun _ _ => true) (channelInit (.tiny 1) Unit none .u8 7)
      (List.flatten [Pool.burst .writer (List.replicate 8 1) 14,
        Pool.burst .writer (List.replicate 8 2) 14,
        Pool.burst .writer (List.replicate 8 3) 0])).bind fun s =>
      (Pool.step s (.call (.reader ()) (ReaderCall.readInto (List.replicate 8 0) none))).bind fun s₁ =>
      (steps Pool.step (fun s _ => decide (s.mem.seg.words (Geometry.slot _ 1) = 2)) s₁
        (.move (.reader ()) :: .move .writer :: List.replicate 12 (.move (.reader ())))).bind
        fun s₂ => (Pool.step s₂ (.move (.reader ()))).map fun s' =>
          ((s.ctl (.reader ())).idle?.map fun l : ReaderLoc (.tiny 1) => l.raw.lastEntrySeq,
            ((s.hist (.reader ())).length, (s₂.hist (.reader ())).length),
            (s₁.mem.seg.words (Geometry.slot _ 1), s₂.mem.seg.words (Geometry.slot _ 1)),
            decide (readsOf s' () = [(.readInto (List.replicate 8 0) none,
              .readInto (.ok (some 1)) (List.replicate 8 1))]))) =
      some (some 0, (0, 0), (2, 2), true) := by decide +kernel
  obtain ⟨s, -, hrun⟩ := Option.bind_eq_some_iff.1 hrun
  obtain ⟨s₁, h₁, hrun⟩ := Option.bind_eq_some_iff.1 hrun
  obtain ⟨s₂, h₂, hrun⟩ := Option.bind_eq_some_iff.1 hrun
  obtain ⟨s', h₃, he⟩ := Option.map_eq_some_iff.1 hrun
  simp only [Prod.mk.injEq] at he
  obtain ⟨hl, ⟨hh, hh₂⟩, ⟨hw₁, hw₂⟩, hh'⟩ := he
  have hh' : readsOf s' () = _ := of_decide_eq_true hh'
  obtain ⟨l, hl, hlast⟩ := Option.map_eq_some_iff.1 hl
  have hnil : s.hist (.reader ()) = [] := List.length_eq_zero_iff.1 hh
  have hR : Reach Pool.step (fun (s : (channel (.tiny 1) Unit none).Conf) _ _ =>
      s.mem.seg.words (Geometry.slot _ 1) = ((2 : ℕ) : ℤ)) _ _ :=
    (reach_of_steps .refl h₂).mono fun _ _ _ hok => of_decide_eq_true hok
  have hS : Pool.Spans (fun h => h.seg.words (Geometry.slot _ 1) = ((2 : ℕ) : ℤ)) s s' (.reader ()) l
      (ReaderCall.readInto (List.replicate 8 0) none)
      (ReaderOut.readInto (.ok (some 1)) (List.replicate 8 1)) := by
    refine .of_run (Pool.Ctl.idle?_eq.1 hl) h₁ hw₁ (hR.entered hw₂) (hh₂.trans hh.symm) h₃ ?_
    rw [hnil]
    exact hh'
  exact ⟨s, s', l, hS, read_minimal hS (congrArg some hlast) rfl⟩

end ZeroChannel
