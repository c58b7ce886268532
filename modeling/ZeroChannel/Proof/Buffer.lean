/-
  What a read that yields nothing leaves in the buffer.

  `read_into` copies before it knows that the entry is still there.  If the writer takes the
  slot during the copy and the next scan finds nothing, the call answers "nothing new" with
  the buffer overwritten (`buffer_overwritten`).  Such an answer leaves the reader as it was,
  and the buffer as it was or as the last copy that was overtaken left it
  (`readInto_untouched`).
-/
import ZeroChannel.Buffer
import ZeroChannel.Proof.Refine
import ZeroChannel.Proof.Locate

namespace ZeroChannel

open Concur

variable {G : Geometry}

/-! ## Slot words -/

/-- The words the operation stores in slots are machine integers. -/
def SegOp.WordRanged : SegOp G → Prop
  | storeSeq _ v => InI64 v
  | casSeq _ _ new => InI64 new
  | _ => True

theorem SegOp.Ranged.wordRanged {o : SegOp G} (h : o.Ranged) : o.WordRanged := by
  cases o <;> first | exact h | trivial

theorem SegOp.IsLoad.wordRanged {o : SegOp G} (h : o.IsLoad) : o.WordRanged := by
  cases o <;> trivial

theorem write_wordRanged (w : RawWriter G) (data : List UInt8) :
    (w.write data).All SegOp.WordRanged := by
  have hpublish : ∀ i, (w.publish i).All SegOp.WordRanged := fun i =>
    ⟨asI64_in (u64_lt _), fun _ => ⟨trivial, fun _ => ⟨trivial, fun _ => trivial⟩⟩⟩
  unfold RawWriter.write
  split_ifs
  · trivial
  · have hclaim := (claimFrom_ranged w G.entryCount 0).mono fun _ => SegOp.Ranged.wordRanged
    refine Prog.All.bind hclaim fun a => ?_
    rcases a with er | i
    · trivial
    · have hcopy := (copyIn_ranged i (blockOf data)).mono fun _ => SegOp.Ranged.wordRanged
      exact hcopy.bind fun _ => (hpublish i).bind fun _ => trivial

theorem wordRanged_exec {o : SegOp G} (ho : o.WordRanged) {m : Segment G}
    (hm : ∀ i, InI64 (m.words i)) (i : Slot G) : InI64 ((Segment.exec o m).2.words i) := by
  have hset : ∀ (j : Slot G) {v : ℤ}, InI64 v → InI64 ((m.setWord j v).words i) := by
    intro j v hv
    rw [Segment.setWord_words]
    split_ifs
    · exact hv
    · exact hm i
  cases o with
  | clearSeq j => exact hset j (by unfold InI64; norm_num)
  | storeSeq j v => exact hset j ho
  | casSeq j old new =>
    simp only [Segment.exec]
    split_ifs
    · exact hset j ho
    · exact hm i
  | cas w old new =>
    simp only [Segment.exec]
    split_ifs <;> exact hm i
  | _ => exact hm i

/-- A positive word is the number it shows. -/
theorem asI64_toNat {v : ℤ} (h : InI64 v) (hpos : 0 < v) : asI64 v.toNat = v := by
  rw [asI64_of_lt (by have := h.2; omega)]
  omega

/-- The words are machine integers, and so is what the calls in progress store. -/
structure Worded (s : (watch G).Conf) : Prop where
  words : ∀ i, InI64 (s.mem.seg.words i)
  running : Pool.Running SegOp.WordRanged s

theorem watch_seg (t : Party Unit) (c : (watch G).Call t) (o : SegOp G) (m : Watch G) :
    ((watch G).exec t c o m).2.seg = (Segment.exec o m.seg).2 := by
  cases t
  · rfl
  · cases o <;> rfl

theorem Worded.step {s s' : (watch G).Conf} {a : (watch G).Act} (h : Worded s)
    (hs : Pool.step s a = some s') : Worded s' := by
  refine ⟨?_, h.running.step (fun t c l p he => ?_) hs⟩
  · cases a with
    | call t c =>
      rcases Pool.step_cases hs with ⟨_, _, _, _, -, -, -, rfl⟩ | ⟨_, _, _, _, ha, -⟩ |
        ⟨_, _, _, _, ha, -⟩
      · exact h.words
      · cases ha
      · cases ha
    | move t =>
      rcases h.running.next hs with hm | ⟨c, o, ho, hm⟩
      · rw [hm]
        exact h.words
      · rw [hm, watch_seg]
        exact wordRanged_exec ho h.words
  · cases t with
    | writer =>
      cases he
      exact write_wordRanged l c
    | reader =>
      cases he
      exact ((readInto_loads l c.1 c.2).mono fun _ => SegOp.IsLoad.wordRanged).bind
        fun _ => trivial

theorem worded_reach {m : Segment G} (hm : ∀ i, InI64 (m.words i)) {w : RawWriter G}
    {r : RawReader G} {s : (watch G).Conf}
    (h : Reach Pool.step (fun _ _ _ => True) (watchInit m w r) s) : Worded s := by
  refine h.inv ⟨hm, fun t c p hc => ?_⟩ fun _ _ _ hs hstep _ => hs.step hstep
  cases t <;> cases hc

/-! ## The writer -/

/-- What the writer does: it leaves what the reader saw alone, and the words of the slots it
    does not store to. -/
structure Watch.Others (m m' : Watch G) : Prop where
  copied : m'.copied = m.copied
  shown : m'.shown = m.shown
  overtaken : m'.overtaken = m.overtaken
  word : ∀ i, m'.stored i = false → m.stored i = false ∧ m'.seg.words i = m.seg.words i

theorem stores_words {o : SegOp G} {i : Slot G} (h : o.stores i = false) (m : Segment G) :
    (Segment.exec o m).2.words i = m.words i := by
  have hset : ∀ {j : Slot G} (v : ℤ), decide (i = j) = false →
      (m.setWord j v).words i = m.words i := fun v hj => Segment.setWord_ne m (of_decide_eq_false hj) v
  cases o with
  | clearSeq j => exact hset 0 h
  | storeSeq j v => exact hset v h
  | casSeq j old new =>
    simp only [Segment.exec]
    split_ifs
    · exact hset new h
    · rfl
  | cas w old new =>
    simp only [Segment.exec]
    split_ifs <;> rfl
  | _ => rfl

theorem watch_others : Pool.Others (watch G) (.reader ()) Watch.Others where
  refl _ := ⟨rfl, rfl, rfl, fun _ h => ⟨h, rfl⟩⟩
  trans _ _ _ h h' := ⟨h'.copied.trans h.copied, h'.shown.trans h.shown,
    h'.overtaken.trans h.overtaken, fun i hi =>
      ⟨(h.word i (h'.word i hi).1).1, (h'.word i hi).2.trans (h.word i (h'.word i hi).1).2⟩⟩
  exec
    | .writer, _, _, o, m => ⟨rfl, rfl, rfl, fun i hi => by
        obtain ⟨hi, ho⟩ := Bool.or_eq_false_iff.1 hi
        exact ⟨hi, stores_words ho m.seg⟩⟩
    | .reader (), h, _, _, _ => absurd rfl h

/-! ## The reader -/

/-- The contract of the reader. -/
abbrev watched (G : Geometry) : Contract (segSig G) (Watch G) :=
  within Watch.Others fun m => ∀ i, InI64 (m.seg.words i)

/-- The entry located is still in its slot, unless the writer has stored there. -/
def Located (a : Option (Slot G × ℕ)) (m : Watch G) : Prop :=
  ∀ i n, a = some (i, n) → m.stored i = false → m.seg.words i = asI64 n

theorem Located.others {a : Option (Slot G × ℕ)} {m m' : Watch G} (h : Located a m)
    (ho : m.Others m') : Located a m' := by
  intro i n ha hi
  obtain ⟨hi, hw⟩ := ho.word i hi
  exact hw.trans (h i n ha hi)

/-- A word is loaded, not to check a copy. -/
structure Watch.Loaded (i : Slot G) (v : ℤ) (m m' : Watch G) : Prop where
  copied : m'.copied = none
  overtaken : m'.overtaken = m.overtaken
  word : m'.seg.words i = v
  range : InI64 v
  others : ∀ j ≠ i, m'.stored j = false → m.stored j = false ∧ m'.seg.words j = m.seg.words j

theorem watch_loadSeq {i : Slot G} {m : Watch G} {Q : ℤ → Watch G → Prop} (hc : m.copied = none)
    (H : ∀ v m', m.Loaded i v m' → Q v m') :
    Valid Watch.readerExec (watched G) Q (loadSeq i) m := by
  refine valid_within_op.2 fun m' hR hm _ => H _ _ ⟨rfl, ?_, rfl, hm i, fun j hj hs => ?_⟩
  · simp only [Watch.readerExec, hR.copied, hc, reduceCtorEq, false_and, if_false, List.append_nil,
      hR.overtaken]
  · simp only [Watch.readerExec, Function.update_of_ne hj] at hs
    exact hR.word j hs

/-- The check after a copy: it fails only if the copy has been overtaken. -/
theorem watch_check {i : Slot G} {n : ℕ} {m : Watch G} {Q : ℤ → Watch G → Prop}
    (hc : m.copied = some i) (hl : Located (some (i, n)) m)
    (H : ∀ v (m' : Watch G), m'.copied = none →
      (v ≠ asI64 n → m'.overtaken = m.overtaken ++ [m.shown]) → Q v m') :
    Valid Watch.readerExec (watched G) Q (loadSeq i) m := by
  refine valid_within_op.2 fun m' hR hm _ => H _ _ rfl fun hne => ?_
  have hstored : m'.stored i = true := by
    by_contra hs
    exact hne (hl.others hR i n rfl (by simpa using hs))
  simp only [Watch.readerExec, hR.copied, hc, hstored, and_self, if_true, hR.overtaken, hR.shown]

theorem scan_located (w : ℕ) {m : Watch G} (hc : m.copied = none) :
    Valid Watch.readerExec (watched G)
      (fun a m' => (m'.copied = none ∧ m'.overtaken = m.overtaken) ∧ Located a m')
      (RawReader.scan w) m := by
  have hnone : Located none m := by rintro i n ⟨⟩
  -- a slot that was scanned is not scanned again
  refine (Valid.foldlM (I := fun xs best (m' : Watch G) =>
    (m'.copied = none ∧ m'.overtaken = m.overtaken) ∧ Located best m' ∧
      xs.Nodup ∧ ∀ i n, best = some (i, n) → i ∉ xs) (fun idx xs best m₁ hI => ?_)
    (List.finRange G.entryCount) none m ⟨⟨hc, rfl⟩, hnone, List.nodup_finRange _,
      fun i n h => by cases h⟩).mono fun a m' h => ⟨h.1, h.2.1⟩
  obtain ⟨⟨hc₁, ho₁⟩, hloc, hnd, hbest⟩ := hI
  obtain ⟨hidx, hnd⟩ := List.nodup_cons.1 hnd
  refine (watch_loadSeq hc₁ fun v m₂ hl => ?_).bind
  have hold : ∀ i n, best = some (i, n) →
      (m₂.stored i = false → m₂.seg.words i = asI64 n) ∧ i ∉ xs := by
    intro i n hb
    obtain ⟨hne, hi⟩ := not_or.1 (mt List.mem_cons.2 (hbest i n hb))
    refine ⟨fun hs => ?_, hi⟩
    obtain ⟨hs, hw⟩ := hl.others i hne hs
    exact hw.trans (hloc i n hb hs)
  have hnew : 0 < v → (m₂.stored idx = false → m₂.seg.words idx = asI64 v.toNat) ∧ idx ∉ xs :=
    fun hpos => ⟨fun _ => hl.word.trans (asI64_toNat hl.range hpos).symm, hidx⟩
  have hboth : ∀ i n, RawReader.better w best idx v = some (i, n) →
      (m₂.stored i = false → m₂.seg.words i = asI64 n) ∧ i ∉ xs := by
    intro i n hb
    unfold RawReader.better at hb
    split_ifs at hb
    · exact hold i n hb
    · exact hold i n hb
    · rcases best with _ | ⟨k, b⟩
      · cases hb
        exact hnew (by omega)
      · dsimp only at hb
        split_ifs at hb
        · cases hb
          exact hnew (by omega)
        · cases hb
          exact hold _ _ rfl
  exact ⟨⟨hl.copied, hl.overtaken.trans ho₁⟩, fun i n hb => (hboth i n hb).1, hnd,
    fun i n hb => (hboth i n hb).2⟩

theorem locate_located (r : RawReader G) (w : ℕ) {m : Watch G} (hc : m.copied = none) :
    Valid Watch.readerExec (watched G)
      (fun a m' => (m'.copied = none ∧ m'.overtaken = m.overtaken) ∧ Located a m')
      (r.locate w) m := by
  refine (watch_loadSeq hc fun v m₁ hl => ?_).bind
  split_ifs with h
  · refine ⟨⟨hl.copied, hl.overtaken⟩, ?_⟩
    rintro i n ⟨⟩ -
    exact hl.word.trans (asI64_toNat hl.range h.1).symm
  · refine (scan_located w hl.copied).mono fun a m' h => ?_
    rw [hl.overtaken] at h
    exact h

/-- What has been copied is what the slot has shown. -/
theorem copyOut_shown {i : Slot G} {n : ℕ} {dst : List UInt8} (hlen : dst.length = G.payloadBytes)
    {m : Watch G} (hl : Located (some (i, n)) m) :
    Valid Watch.readerExec (watched G) (fun dst' m' => m'.copied = some i ∧
      m'.overtaken = m.overtaken ∧ Located (some (i, n)) m' ∧ dst' = bytesOf m'.shown)
      (RawReader.copyOut i dst) m := by
  refine (Valid.foldlM (I := fun js (d : List UInt8) (m' : Watch G) =>
    (js.length < G.payloadBytes → m'.copied = some i) ∧ m'.overtaken = m.overtaken ∧
      Located (some (i, n)) m' ∧ d.length = G.payloadBytes ∧
      ∀ j, j ∉ js → d[j.val]? = some (m'.shown j)) (fun j js d m₁ hI => ?_)
    (List.finRange G.payloadBytes) dst m ⟨fun h => ?_, rfl, hl, hlen, fun j hj => ?_⟩).mono ?_
  · obtain ⟨-, ho, hl₁, hd, hshown⟩ := hI
    refine (show Valid Watch.readerExec (watched G) _ (loadByte i j) m₁ from
      valid_within_op.2 fun m₂ hR _ _ => ?_).bind
    refine ⟨fun _ => rfl, hR.overtaken.trans ho, fun i' n' ha hs => hl₁.others hR i' n' ha hs,
      by rw [List.length_set, hd], fun j' hj' => ?_⟩
    simp only [Watch.readerExec, Function.update_apply]
    split_ifs with hjj
    · rw [hjj, List.getElem?_set_self (by rw [hd]; exact j.isLt)]
    · rw [List.getElem?_set_ne fun h => hjj (Fin.ext h.symm), hR.shown]
      exact hshown j' fun h => (List.mem_cons.1 h).elim hjj hj'
  · simp at h
  · exact absurd (List.mem_finRange j) hj
  · rintro d m' ⟨hc, ho, hl', hd, hshown⟩
    refine ⟨hc G.payload_pos, ho, hl', List.ext_getElem? fun k => ?_⟩
    by_cases hk : k < G.payloadBytes
    · rw [hshown ⟨k, hk⟩ List.not_mem_nil]
      simp [bytesOf, hk]
    · rw [List.getElem?_eq_none (by omega), List.getElem?_eq_none (by simp [bytesOf]; omega)]

/-- The buffer is what the last of the copies overtaken since left in it. -/
def LeftInBuffer (before : List (Block G)) (dst dst' : List UInt8) (m : Watch G) : Prop :=
  ∃ new, m.overtaken = before ++ new ∧ dst' = (new.getLast?.map bytesOf).getD dst

section
variable {before : List (Block G)} {dst dst' : List UInt8} {m m' : Watch G}

theorem LeftInBuffer.congr (h : LeftInBuffer before dst dst' m)
    (ho : m'.overtaken = m.overtaken) : LeftInBuffer before dst dst' m' := by
  obtain ⟨new, hnew, hd⟩ := h
  exact ⟨new, ho.trans hnew, hd⟩

theorem LeftInBuffer.length (h : LeftInBuffer before dst dst' m)
    (hlen : dst.length = G.payloadBytes) : dst'.length = G.payloadBytes := by
  obtain ⟨new, -, rfl⟩ := h
  cases new.getLast? with
  | none => exact hlen
  | some b => exact List.length_ofFn

/-- Another copy is overtaken. -/
theorem LeftInBuffer.snoc (h : LeftInBuffer before dst dst' m)
    (ho : m'.overtaken = m.overtaken ++ [m.shown]) :
    LeftInBuffer before dst (bytesOf m.shown) m' := by
  obtain ⟨new, hnew, -⟩ := h
  refine ⟨new ++ [m.shown], by rw [ho, hnew, List.append_assoc], ?_⟩
  rw [List.getLast?_concat]
  rfl

/-- A call that yields nothing has had its copies overtaken. -/
theorem readAttempts_left (hlen : dst.length = G.payloadBytes) (r : RawReader G) (w : ℕ) :
    ∀ (k : ℕ) (dst' : List UInt8) (m : Watch G), m.copied = none → LeftInBuffer before dst dst' m →
    Valid Watch.readerExec (watched G)
      (fun a m' => a.1 = none → a.2.1 = r ∧ LeftInBuffer before dst a.2.2 m')
      (r.readAttempts w dst' k) m := by
  intro k
  induction k with
  | zero => exact fun dst' m _ hleft _ => ⟨rfl, hleft⟩
  | succ k ih =>
    intro dst' m hc hleft
    refine ((locate_located r w hc).mono fun a m₁ ⟨⟨hc₁, ho₁⟩, hl₁⟩ => ?_).bind
    have hleft₁ := hleft.congr ho₁
    match a with
    | none => exact fun _ => ⟨rfl, hleft₁⟩
    | some (i, n) =>
      refine ((copyOut_shown (hleft₁.length hlen) hl₁).mono
        fun d m₂ ⟨hc₂, ho₂, hl₂, hd⟩ => ?_).bind
      refine (watch_check hc₂ hl₂ fun v m₃ hc₃ ho₃ => ?_).bind
      split_ifs with hne
      · rw [hd]
        exact ih _ m₃ hc₃ ((hleft₁.congr ho₂).snoc (ho₃ hne))
      · rintro ⟨⟩

theorem readInto_left (r : RawReader G) (dst : List UInt8) (f : Option ℕ) (m : Watch G) :
    Valid Watch.readerExec (watched G) (fun a m' => (∀ n, a.1 ≠ .ok (some n)) →
      a.2.1 = r ∧ LeftInBuffer m.overtaken dst a.2.2 m') (r.readInto dst f) m := by
  have hstart : ∀ m', m'.overtaken = m.overtaken → LeftInBuffer m.overtaken dst dst m' :=
    fun m' ho => ⟨[], by rw [ho, List.append_nil], rfl⟩
  unfold RawReader.readInto
  split_ifs with hlen
  · exact fun _ => ⟨rfl, hstart m rfl⟩
  · have hgate : Valid Watch.readerExec (watched G)
        (fun _ m' => m'.copied = none ∧ m'.overtaken = m.overtaken) (r.watermark f) m := by
      refine (show Valid Watch.readerExec (watched G) (fun _ m' => m'.copied = none ∧
        m'.overtaken = m.overtaken) (loadHdr .lastEntrySeq) m from
          valid_within_op.2 fun m' hR _ _ => ⟨rfl, hR.overtaken⟩).mono (fun a m' h => ?_) |>.bind
      split_ifs <;> exact h
    refine (hgate.mono fun a m₁ ⟨hc, ho⟩ => ?_).bind
    match a with
    | none => exact fun _ => ⟨rfl, hstart m₁ ho⟩
    | some w =>
      refine ((readAttempts_left (not_not.1 hlen) r w READ_RETRIES dst m₁ hc
        (hstart m₁ ho)).mono fun a m₂ ha => ?_).bind
      intro hn
      refine ha ?_
      cases h : a.1 with
      | none => rfl
      | some n => exact absurd (congrArg Except.ok h) (hn n)

end

/-- **What a read that yields nothing leaves.**  Whatever the writer does during the call, the
    reader is what it was; the buffer is what it was unless the writer stored to the slot of
    a copy after the entry had been located and before the copy was checked, and what the last
    such slot showed were other bytes. -/
theorem readInto_untouched {m : Segment G} (hm : ∀ i, InI64 (m.words i)) {w : RawWriter G}
    {r₀ r : RawReader G} {s s' : (watch G).Conf}
    (h : Reach Pool.step (fun _ _ _ => True) (watchInit m w r₀) s) {dst dst' : List UInt8}
    {fromEntrySeq : Option ℕ} {res : Except ZeroChannelError (Option ℕ)}
    (hc : Pool.Spans (A := watch G) (fun _ => True) s s' (.reader ()) r (dst, fromEntrySeq)
      (res, dst')) (hres : ∀ n, res ≠ .ok (some n)) :
    s'.ctl (.reader ()) = .idle r ∧ ∃ new, s'.mem.overtaken = s.mem.overtaken ++ new ∧
      (dst' = dst ↔ ∀ b, new.getLast? = some b → bytesOf b = dst) := by
  have hspan := hc.with_inv (K := fun m => ∀ i, InI64 (m.seg.words i)) (worded_reach hm h)
    (fun _ _ _ hs hstep _ => hs.step hstep) fun _ hs => hs.words
  have hR : Pool.OthersIn (fun _ : (watch G).Conf => True)
      (fun m => True ∧ ∀ i, InI64 (m.seg.words i)) (.reader ()) Watch.Others := watch_others.inside
  obtain ⟨l', hl', hpost⟩ := hspan.post_mem hR trivial
    (Q := fun a m => (∀ n, a.1.1 ≠ .ok (some n)) →
      a.2 = r ∧ LeftInBuffer s.mem.overtaken dst a.1.2 m)
    (fun a m m' hQ ho hn => ⟨(hQ hn).1, (hQ hn).2.congr ho.overtaken⟩) fun p hp => by
      cases hp
      refine Valid.bind (((readInto_left r dst fromEntrySeq s.mem).weaken ?_ ?_ ?_).mono
        fun a m' ha => ha)
      · exact fun _ _ _ hr => ⟨hr.1, hr.2.2⟩
      · exact fun _ hJ => hJ.2
      · exact fun _ _ _ _ => trivial
  obtain ⟨rfl, new, hnew, rfl⟩ := hpost hres
  refine ⟨hl', new, hnew, ?_⟩
  rcases new.getLast? with _ | b
  · exact iff_of_true rfl nofun
  · simp

/-- A ring of one slot with one entry written, and nobody in a call. -/
def oneEntry : List (watch (.tiny 0)).Act :=
  .call .writer (List.replicate 8 1) :: List.replicate 14 (.move .writer)

/-- The calls the reader has completed, with their answers. -/
def bufferReads (s : (watch (.tiny 0)).Conf) :
    List ((List UInt8 × Option ℕ) × (Except ZeroChannelError (Option ℕ) × List UInt8)) :=
  s.hist (.reader ())

/-- The state where nothing has been written. -/
abbrev emptyRing : (watch (.tiny 0)).Conf :=
  watchInit (.init _ .u8 7) ⟨Geometry.slot _ 0, 0⟩ .attach

/-- A read after one entry that yields nothing, from what it evaluates to: `mid` is what
    happens between its start and its answer. -/
theorem read_spans (dst dst' : List UInt8) (mid : List (watch (.tiny 0)).Act)
    (spoilt : List (List UInt8))
    (hrun : ((steps Pool.step (fun _ _ => true) emptyRing oneEntry).bind fun s =>
      (Pool.step s (.call (.reader ()) (dst, none))).bind fun s₁ =>
      (steps Pool.step (fun _ _ => true) s₁ mid).bind fun s₂ =>
      (Pool.step s₂ (.move (.reader ()))).map fun s' =>
        ((s.ctl (.reader ())).idle?.map fun r : RawReader (.tiny 0) => decide (r = .attach),
          ((s.hist (.reader ())).length, (s₂.hist (.reader ())).length),
          decide (bufferReads s' = [((dst, none), (.ok none, dst'))]),
          (s.mem.overtaken.length, decide (s'.mem.overtaken.map bytesOf = spoilt)))) =
      some (some true, (0, 0), true, (0, true))) :
    ∃ s s' : (watch (.tiny 0)).Conf, Reach Pool.step (fun _ _ _ => True) emptyRing s ∧
      Pool.Spans (A := watch (.tiny 0)) (fun _ => True) s s' (.reader ()) .attach (dst, none)
        (.ok none, dst') ∧ s.mem.overtaken = [] ∧ s'.mem.overtaken.map bytesOf = spoilt := by
  obtain ⟨s, h₀, hrun⟩ := Option.bind_eq_some_iff.1 hrun
  obtain ⟨s₁, h₁, hrun⟩ := Option.bind_eq_some_iff.1 hrun
  obtain ⟨s₂, h₂, hrun⟩ := Option.bind_eq_some_iff.1 hrun
  obtain ⟨s', h₃, he⟩ := Option.map_eq_some_iff.1 hrun
  simp only [Prod.mk.injEq] at he
  obtain ⟨hl, ⟨hh, hh₂⟩, hh', hover, hover'⟩ := he
  have hh' : bufferReads s' = _ := of_decide_eq_true hh'
  obtain ⟨r, hl, hr⟩ := Option.map_eq_some_iff.1 hl
  obtain rfl : r = .attach := of_decide_eq_true hr
  refine ⟨s, s', (reach_of_steps .refl h₀).mono fun _ _ _ _ => trivial, .of_run
    (Pool.Ctl.idle?_eq.1 hl) h₁ trivial ((reach_of_steps .refl h₂).mono fun _ _ _ _ => trivial)
    (hh₂.trans hh.symm) h₃ ?_, List.length_eq_zero_iff.1 hover, of_decide_eq_true hover'⟩
  rw [List.length_eq_zero_iff.1 hh]
  exact hh'

/-- The writer takes the slot, once before the reader has located the entry and once after
    the reader has copied it: both reads yield nothing, and only the first one leaves the
    buffer as it was. -/
theorem readInto_untouched_raced : ∃ s s' t t' : (watch (.tiny 0)).Conf,
    (Pool.Spans (A := watch (.tiny 0)) (fun _ => True) s s' (.reader ()) .attach
      (List.replicate 8 5, none) (.ok none, List.replicate 8 5) ∧
      s'.ctl (.reader ()) = .idle RawReader.attach ∧ s'.mem.overtaken = s.mem.overtaken) ∧
    (Pool.Spans (A := watch (.tiny 0)) (fun _ => True) t t' (.reader ()) .attach
      (List.replicate 8 5, none) (.ok none, List.replicate 8 1) ∧
      t'.ctl (.reader ()) = .idle RawReader.attach ∧
      ∃ b, t'.mem.overtaken = t.mem.overtaken ++ [b] ∧ bytesOf b = List.replicate 8 1) := by
  obtain ⟨s, s', hs, hS, hover, hover'⟩ := read_spans (List.replicate 8 5)
    (List.replicate 8 5) (List.flatten [[.move (.reader ())],
      Pool.burst .writer (List.replicate 8 2) 2, List.replicate 2 (.move (.reader ()))])
    [] (by decide +kernel)
  obtain ⟨t, t', ht, hT, hover₁, hover₁'⟩ := read_spans (List.replicate 8 5)
    (List.replicate 8 1) (List.flatten [List.replicate 10 (.move (.reader ())),
      Pool.burst .writer (List.replicate 8 2) 2, List.replicate 3 (.move (.reader ()))])
    [List.replicate 8 1] (by decide +kernel)
  have hzero : ∀ i, InI64 ((Segment.init (.tiny 0) .u8 7).words i) := fun i => by
    unfold InI64
    norm_num [Segment.init]
  obtain ⟨hidle, -⟩ := readInto_untouched hzero hs hS fun _ h => by cases h
  obtain ⟨hidle₁, -⟩ := readInto_untouched hzero ht hT fun _ h => by cases h
  obtain ⟨b, hb, hbytes⟩ := List.map_eq_singleton_iff.1 hover₁'
  exact ⟨s, s', t, t', ⟨hS, hidle, by rw [List.map_eq_nil_iff.1 hover', hover]⟩,
    hT, hidle₁, b, by rw [hb, hover₁]; rfl, hbytes⟩

/-- **A buffer is overwritten by a read that yields nothing**: the slot is recycled
    after the copy, and the next scan finds it empty. -/
theorem buffer_overwritten : ∃ s s' : (watch (.tiny 0)).Conf,
    Reach Pool.step (fun _ _ _ => True)
      (watchInit (.init _ .u8 7) ⟨Geometry.slot _ 0, 0⟩ .attach) s ∧
    Pool.Spans (A := watch (.tiny 0)) (fun _ => True) s s' (.reader ()) .attach
      (List.replicate 8 5, none) (.ok none, List.replicate 8 1) := by
  obtain ⟨s, s', hs, hS, -⟩ := read_spans (List.replicate 8 5)
    (List.replicate 8 1) (List.flatten [List.replicate 10 (.move (.reader ())),
      Pool.burst .writer (List.replicate 8 2) 2, List.replicate 3 (.move (.reader ()))])
    [List.replicate 8 1] (by decide +kernel)
  exact ⟨s, s', hs, hS⟩

end ZeroChannel
