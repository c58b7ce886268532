/-
  The calls of the writer, run alone.

  `write_run`, `tryAcquire_run` and `publish_run` say what an uninterrupted call
  computes, and `write_first_free` what a write leaves behind; `WriteAt` lists the
  memories in which a call of `write` can be cut short.
-/
import ZeroChannel.Channel

namespace ZeroChannel

open Concur Concur.Prog

variable {G : Geometry}

/-! ## The slot that is claimed -/

/-- The first of the `k` slots from position `n` on that no reader holds. -/
def free? (words : Slot G → ℤ) (n : ℕ) : ℕ → Option (Slot G)
  | 0 => none
  | k + 1 => if words (G.slot n) < 0 then free? words (n + 1) k else some (G.slot n)

theorem free?_some {words : Slot G → ℤ} {i : Slot G} : ∀ {k n : ℕ}, free? words n k = some i →
    ∃ d < k, i = G.slot (n + d) ∧ 0 ≤ words i ∧ ∀ e < d, words (G.slot (n + e)) < 0 := by
  intro k
  induction k with
  | zero =>
    intro n h
    cases h
  | succ k ih =>
    intro n h
    unfold free? at h
    split_ifs at h with hneg
    · obtain ⟨d, hd, hi, hw, he⟩ := ih h
      refine ⟨d + 1, by omega, by rw [hi]; congr 1; omega, hw, fun e hed => ?_⟩
      rcases e with _ | e
      · exact hneg
      · rw [show n + (e + 1) = n + 1 + e by omega]
        exact he e (by omega)
    · obtain rfl := Option.some.inj h
      exact ⟨0, by omega, rfl, not_lt.1 hneg, fun e he => by omega⟩

theorem free?_none {words : Slot G → ℤ} : ∀ {k n : ℕ}, free? words n k = none →
    ∀ d < k, words (G.slot (n + d)) < 0 := by
  intro k
  induction k with
  | zero =>
    intro n _ d hd
    omega
  | succ k ih =>
    intro n h d hd
    unfold free? at h
    split_ifs at h with hneg
    cases d with
    | zero => exact hneg
    | succ d =>
      rw [show n + (d + 1) = n + 1 + d by omega]
      exact ih h d (by omega)

theorem free?_nonneg {words : Slot G → ℤ} {k n : ℕ} {i : Slot G} (h : free? words n k = some i) :
    0 ≤ words i := by
  obtain ⟨_, _, _, hw, _⟩ := free?_some h
  exact hw

/-- The cursor's own slot is claimed when no reader holds it. -/
theorem free?_cursor {words : Slot G → ℤ} {c : Slot G} (hc : 0 ≤ words c) :
    free? words c.val G.entryCount = some c := by
  have h0 : ∀ k, 0 < k → free? words c.val k = some c
    | k + 1, _ => by rw [free?, G.slot_self, if_neg (not_lt.2 hc)]
  exact h0 _ G.count_pos

/-- Every slot is some distance ahead of a position. -/
theorem slot_ahead (c i : Slot G) : ∃ d < G.entryCount, i = G.slot (c.val + d) := by
  have hc := c.isLt
  have hi := i.isLt
  rcases Nat.lt_or_ge i.val c.val with h | h
  · refine ⟨i.val + G.entryCount - c.val, by omega, Fin.ext ?_⟩
    rw [G.slot_val, show c.val + (i.val + G.entryCount - c.val) = i.val + G.entryCount by omega,
      Nat.add_mod_right, Nat.mod_eq_of_lt hi]
  · refine ⟨i.val - c.val, by omega, Fin.ext ?_⟩
    rw [G.slot_val, show c.val + (i.val - c.val) = i.val by omega, Nat.mod_eq_of_lt hi]

/-- `claim_slot` fails only when every slot is held. -/
theorem free?_eq_none {words : Slot G → ℤ} {c : Slot G} :
    free? words c.val G.entryCount = none ↔ ∀ i, words i < 0 := by
  constructor
  · intro h i
    obtain ⟨d, hd, rfl⟩ := slot_ahead c i
    exact free?_none h d hd
  · intro h
    cases hf : free? words c.val G.entryCount with
    | none => rfl
    | some i => exact absurd (free?_nonneg hf) (not_le.2 (h i))

/-! ## The memories of a write -/

namespace Hist

/-- Slot `i` claimed, with `b` in its payload. -/
def claimed (h : Hist G) (i : Slot G) (b : Block G) : Hist G :=
  { h with seg := (h.seg.setWord i 0).setBlock i b }

/-- The slot word stored. -/
def stored (h : Hist G) (i : Slot G) (seq : ℕ) (data : List UInt8) : Hist G :=
  h.put i (asI64 seq) data

/-- The cursor stored after it. -/
def indexed (h : Hist G) (i : Slot G) : Hist G :=
  { h with seg := h.seg.setHdr .writeIndex (G.slot (i.val + 1)).val }

/-- The watermark stored last. -/
def advertised (h : Hist G) (seq : ℕ) : Hist G :=
  { h with seg := h.seg.setHdr .lastEntrySeq seq }

/-- All three stores of `publish`. -/
def published (h : Hist G) (i : Slot G) (seq : ℕ) (data : List UInt8) : Hist G :=
  ((h.stored i seq data).indexed i).advertised seq

section
variable (h : Hist G) (i : Slot G) (seq : ℕ) (data : List UInt8)

@[simp] theorem claimed_words (b : Block G) (j : Slot G) :
    (h.claimed i b).seg.words j = if j = i then 0 else h.seg.words j :=
  Segment.setWord_words h.seg i j 0

@[simp] theorem claimed_payload (b : Block G) (j : Slot G) :
    (h.claimed i b).seg.payload j = if j = i then b else h.seg.payload j := by
  simp [claimed, Segment.setBlock, Function.update_apply]

@[simp] theorem claimed_hdr (b : Block G) : (h.claimed i b).seg.hdr = h.seg.hdr := rfl
@[simp] theorem claimed_log (b : Block G) : (h.claimed i b).log = h.log := rfl
@[simp] theorem claimed_nums (b : Block G) : (h.claimed i b).nums = h.nums := rfl

@[simp] theorem stored_words (j : Slot G) :
    (h.stored i seq data).seg.words j = if j = i then asI64 seq else h.seg.words j :=
  Segment.setWord_words h.seg i j _

@[simp] theorem stored_hdr : (h.stored i seq data).seg.hdr = h.seg.hdr := rfl
@[simp] theorem stored_log : (h.stored i seq data).log = h.log ++ [data] := rfl
@[simp] theorem stored_nums : (h.stored i seq data).nums = h.nums ++ [asI64 seq] := rfl

@[simp] theorem indexed_words : (h.indexed i).seg.words = h.seg.words := rfl
@[simp] theorem indexed_log : (h.indexed i).log = h.log := rfl

@[simp] theorem indexed_writeIndex :
    (h.indexed i).seg.hdr .writeIndex = (G.slot (i.val + 1)).val := rfl

@[simp] theorem indexed_lastEntrySeq :
    (h.indexed i).seg.hdr .lastEntrySeq = h.seg.hdr .lastEntrySeq := rfl

@[simp] theorem published_words (j : Slot G) :
    (h.published i seq data).seg.words j = if j = i then asI64 seq else h.seg.words j :=
  stored_words h i seq data j

@[simp] theorem published_payload : (h.published i seq data).seg.payload = h.seg.payload := rfl
@[simp] theorem published_log : (h.published i seq data).log = h.log ++ [data] := rfl
@[simp] theorem published_nums : (h.published i seq data).nums = h.nums ++ [asI64 seq] := rfl

@[simp] theorem published_writeIndex :
    (h.published i seq data).seg.hdr .writeIndex = (G.slot (i.val + 1)).val := rfl

@[simp] theorem published_lastEntrySeq : (h.published i seq data).seg.hdr .lastEntrySeq = seq := rfl

end

end Hist

/-- The writer after it has published slot `i`. -/
def RawWriter.next (w : RawWriter G) (i : Slot G) : RawWriter G :=
  ⟨G.slot (i.val + 1), u64 (w.lastEntrySeq + 1)⟩

/-- The error of `claim_slot`. -/
def busyError (G : Geometry) : ZeroChannelError :=
  .busy s!"all {G.entryCount} ring slots are held by a reader"

/-- **The points of `write(data)`**, each with the operation performed next and the
    memory at that point. -/
inductive WriteAt (w : RawWriter G) (data : List UInt8) (h : Hist G) :
    Option (SegOp G) → Hist G → Prop
  | claiming {o} : (o = none ∨ (∃ i, o = some (.loadSeq i)) ∨ ∃ i, o = some (.clearSeq i)) →
      WriteAt w data h o h
  | copying {i b o} : free? h.seg.words w.currentIndex.val G.entryCount = some i →
      ((∃ j v, o = some (.storeByte i j v)) ∨ ∃ v, o = some (.storeSeq i v)) →
      WriteAt w data h o (h.claimed i b)
  | stored {i v} : free? h.seg.words w.currentIndex.val G.entryCount = some i →
      WriteAt w data h (some (.store .writeIndex v))
        ((h.claimed i (blockOf data)).stored i (u64 (w.lastEntrySeq + 1)) data)
  | indexed {i v} : free? h.seg.words w.currentIndex.val G.entryCount = some i →
      WriteAt w data h (some (.store .lastEntrySeq v))
        (((h.claimed i (blockOf data)).stored i (u64 (w.lastEntrySeq + 1)) data).indexed i)
  | done {i} : free? h.seg.words w.currentIndex.val G.entryCount = some i →
      WriteAt w data h none
        ((h.claimed i (blockOf data)).published i (u64 (w.lastEntrySeq + 1)) data)

/-- The word of the entry has been stored, in slot `i`. -/
structure PastStore (w : RawWriter G) (data : List UInt8) (h h' : Hist G) (i : Slot G) : Prop where
  words : ∀ j, h'.seg.words j =
    if j = i then asI64 (u64 (w.lastEntrySeq + 1)) else h.seg.words j
  log : h'.log = h.log ++ [data]
  nums : h'.nums = h.nums ++ [asI64 (u64 (w.lastEntrySeq + 1))]
  last : h'.seg.hdr .lastEntrySeq = h.seg.hdr .lastEntrySeq ∨
    h'.seg.hdr .lastEntrySeq = u64 (w.lastEntrySeq + 1)

section
variable (w : RawWriter G) (data : List UInt8) (h : Hist G) (i : Slot G)

theorem pastStore_stored : PastStore w data h
    ((h.claimed i (blockOf data)).stored i (u64 (w.lastEntrySeq + 1)) data) i := by
  refine ⟨fun j => ?_, rfl, rfl, Or.inl rfl⟩
  rw [Hist.stored_words, Hist.claimed_words]
  split_ifs <;> rfl

theorem pastStore_indexed : PastStore w data h
    (((h.claimed i (blockOf data)).stored i (u64 (w.lastEntrySeq + 1)) data).indexed i) i := by
  obtain ⟨h₁, h₂, h₃, h₄⟩ := pastStore_stored w data h i
  exact ⟨h₁, h₂, h₃, h₄⟩

theorem pastStore_published : PastStore w data h
    ((h.claimed i (blockOf data)).published i (u64 (w.lastEntrySeq + 1)) data) i := by
  obtain ⟨h₁, h₂, h₃, -⟩ := pastStore_stored w data h i
  exact ⟨h₁, h₂, h₃, Or.inr rfl⟩

end

theorem WriteAt.log_le {w : RawWriter G} {data : List UInt8} {h h' : Hist G}
    {o : Option (SegOp G)} (hc : WriteAt w data h o h') : h.log.length ≤ h'.log.length := by
  cases hc <;> simp

/-- A write stores two header words only. -/
theorem WriteAt.hdr {w : RawWriter G} {data : List UInt8} {h h' : Hist G} {o : Option (SegOp G)}
    (hc : WriteAt w data h o h') {x : HeaderWord} (h₁ : x ≠ .writeIndex) (h₂ : x ≠ .lastEntrySeq) :
    h'.seg.hdr x = h.seg.hdr x := by
  cases hc with
  | claiming | copying | stored => rfl
  | indexed => exact Segment.setHdr_ne _ h₁ _
  | done => exact (Segment.setHdr_ne _ h₂ _).trans (Segment.setHdr_ne _ h₁ _)

section
variable (data : List UInt8)

theorem claimFrom_run (w : RawWriter G) (h : Hist G) : ∀ (k n : ℕ),
    (w.claimFrom n k).run (Hist.writerExec data) h =
      match free? h.seg.words (w.currentIndex.val + n) k with
      | none => (.error (busyError G), h)
      | some i => (.ok i, { h with seg := h.seg.setWord i 0 }) := by
  intro k
  induction k with
  | zero =>
    intro n
    rfl
  | succ k ih =>
    intro n
    unfold RawWriter.claimFrom free?
    rw [(writerExec_reads data).run_loadSeq]
    split_ifs with hneg
    · exact ih (n + 1)
    · rfl

theorem claimSlot_run (w : RawWriter G) (h : Hist G) :
    w.claimSlot.run (Hist.writerExec data) h =
      match free? h.seg.words w.currentIndex.val G.entryCount with
      | none => (.error (busyError G), h)
      | some i => (.ok i, { h with seg := h.seg.setWord i 0 }) :=
  claimFrom_run data w h G.entryCount 0

theorem claimFrom_solo {w : RawWriter G} {h h' : Hist G} : ∀ {k n : ℕ}
    {q : SegProg G (Except ZeroChannelError (Slot G))} {o : SegOp G},
    Solo (Hist.writerExec data) (w.claimFrom n k) h q h' → q.next? = some o →
      h' = h ∧ ((∃ i, o = .loadSeq i) ∨ ∃ i, o = .clearSeq i) := by
  intro k
  induction k with
  | zero =>
    intro n q o hs ho
    obtain ⟨rfl, rfl⟩ := solo_pure hs
    cases ho
  | succ k ih =>
    intro n q o hs ho
    rcases solo_op.1 hs with ⟨rfl, rfl⟩ | hs
    · cases ho
      exact ⟨rfl, Or.inl ⟨_, rfl⟩⟩
    · simp only [Hist.writerExec, Segment.exec, bind_pure] at hs
      split_ifs at hs with hneg
      · exact ih hs ho
      · rcases solo_op.1 hs with ⟨rfl, rfl⟩ | hs
        · cases ho
          exact ⟨rfl, Or.inr ⟨_, rfl⟩⟩
        · obtain ⟨rfl, -⟩ := solo_pure hs
          cases ho

/-- The bytes stored so far are those of the block. -/
theorem copyIn_run (i : Slot G) (b : Block G) (h : Hist G) :
    (RawWriter.copyIn i b).run (Hist.writerExec data) h =
      ((), { h with seg := h.seg.setBlock i b }) := by
  have key : ∀ (l : List (Fin G.payloadBytes)) (c : Block G), (∀ j, j ∉ l → c j = b j) →
      (l.foldlM (fun _ j => storeByte i j (b j)) ()).run (Hist.writerExec data)
        { h with seg := h.seg.setBlock i c } = ((), { h with seg := h.seg.setBlock i b }) := by
    intro l
    induction l with
    | nil =>
      intro c hc
      rw [show c = b from funext fun j => hc j List.not_mem_nil]
      rfl
    | cons j l ih =>
      intro c hc
      rw [List.foldlM_cons, run_bind]
      have hstore : (storeByte i j (b j)).run (Hist.writerExec data)
          { h with seg := h.seg.setBlock i c } =
          ((), { h with seg := h.seg.setBlock i (Function.update c j (b j)) }) := by
        simp [storeByte, Hist.writerExec, Segment.exec, Segment.setByte_eq]
      rw [hstore]
      refine ih _ fun j' hj' => ?_
      by_cases hjj : j' = j
      · subst hjj; rw [Function.update_self]
      · rw [Function.update_of_ne hjj]
        exact hc j' fun hm => (List.mem_cons.1 hm).elim hjj hj'
  have := key (List.finRange G.payloadBytes) (h.seg.payload i)
    fun j hj => absurd (List.mem_finRange j) hj
  rwa [Segment.setBlock_payload] at this

theorem copyIn_solo {i : Slot G} {b : Block G} {h h' : Hist G} {q : SegProg G Unit} {o : SegOp G}
    (hs : Solo (Hist.writerExec data) (RawWriter.copyIn i b) h q h') (ho : q.next? = some o) :
    (∃ c, h' = { h with seg := h.seg.setBlock i c }) ∧ ∃ j v, o = .storeByte i j v := by
  have key : ∀ (l : List (Fin G.payloadBytes)) (c : Block G),
      Solo (Hist.writerExec data) (l.foldlM (fun _ j => storeByte i j (b j)) ())
        { h with seg := h.seg.setBlock i c } q h' →
      (∃ c, h' = { h with seg := h.seg.setBlock i c }) ∧ ∃ j v, o = .storeByte i j v := by
    intro l
    induction l with
    | nil =>
      intro c hs
      obtain ⟨rfl, -⟩ := solo_pure hs
      cases ho
    | cons j l ih =>
      intro c hs
      rw [List.foldlM_cons] at hs
      rcases solo_op.1 hs with ⟨rfl, rfl⟩ | hs
      · cases ho
        exact ⟨⟨c, rfl⟩, j, b j, rfl⟩
      · refine ih (Function.update c j (b j)) ?_
        simpa [Hist.writerExec, Segment.exec, Segment.setByte_eq] using hs
  refine key (List.finRange G.payloadBytes) (h.seg.payload i) ?_
  rwa [Segment.setBlock_payload]

theorem publish_run (w : RawWriter G) (i : Slot G) (h : Hist G) :
    (w.publish i).run (Hist.writerExec data) h =
      ((u64 (w.lastEntrySeq + 1), w.next i), h.published i (u64 (w.lastEntrySeq + 1)) data) := rfl

/-- **`write` run alone.** -/
theorem write_run (w : RawWriter G) (h : Hist G) (hlen : data.length = G.payloadBytes) :
    (w.write data).run (Hist.writerExec data) h =
      match free? h.seg.words w.currentIndex.val G.entryCount with
      | none => ((.error (busyError G), w), h)
      | some i => ((.ok (), w.next i),
          (h.claimed i (blockOf data)).published i (u64 (w.lastEntrySeq + 1)) data) := by
  unfold RawWriter.write
  rw [if_neg (not_not.2 hlen), run_bind, claimSlot_run]
  cases free? h.seg.words w.currentIndex.val G.entryCount with
  | none => rfl
  | some i =>
    simp only [run_bind, copyIn_run, publish_run]
    rfl

/-- A write of the wrong length does nothing. -/
theorem write_len (w : RawWriter G) (hlen : data.length ≠ G.payloadBytes) :
    w.write data = .pure (.error (.invalidArgument
      s!"expected {G.payloadBytes} payload bytes, got {data.length}"), w) := by
  unfold RawWriter.write
  rw [if_pos hlen]
  rfl

/-- **`write` cut short**: a solo run of `write` is at one of its points. -/
theorem write_solo {w : RawWriter G} {h h' : Hist G}
    {q : SegProg G (Except ZeroChannelError Unit × RawWriter G)}
    (hs : Solo (Hist.writerExec data) (w.write data) h q h') :
    WriteAt w data h q.next? h' := by
  by_cases hlen : data.length = G.payloadBytes
  swap
  · rw [write_len data w hlen] at hs
    obtain ⟨rfl, rfl⟩ := solo_pure hs
    exact .claiming (Or.inl rfl)
  unfold RawWriter.write at hs
  rw [if_neg (not_not.2 hlen)] at hs
  rcases solo_bind hs with ⟨p, o, hp, hpo, hqo⟩ | hs
  · rw [hqo]
    obtain ⟨rfl, ⟨i, rfl⟩ | ⟨i, rfl⟩⟩ := claimFrom_solo data hp hpo
    · exact .claiming (Or.inr (Or.inl ⟨i, rfl⟩))
    · exact .claiming (Or.inr (Or.inr ⟨i, rfl⟩))
  rw [claimSlot_run] at hs
  cases hf : free? h.seg.words w.currentIndex.val G.entryCount with
  | none =>
    rw [hf] at hs
    obtain ⟨rfl, rfl⟩ := solo_pure hs
    exact .claiming (Or.inl rfl)
  | some i =>
    rw [hf] at hs
    rcases solo_bind hs with ⟨p, o, hp, hpo, hqo⟩ | hs
    · rw [hqo]
      obtain ⟨⟨c, rfl⟩, j, v, rfl⟩ := copyIn_solo data hp hpo
      exact .copying hf (Or.inl ⟨j, v, rfl⟩)
    · rw [copyIn_run] at hs
      rcases solo_op.1 hs with ⟨rfl, rfl⟩ | hs
      · exact .copying hf (Or.inr ⟨_, rfl⟩)
      rcases solo_op.1 hs with ⟨rfl, rfl⟩ | hs
      · exact .stored hf
      rcases solo_op.1 hs with ⟨rfl, rfl⟩ | hs
      · exact .indexed hf
      · obtain ⟨rfl, rfl⟩ := solo_pure hs
        exact .done hf

theorem tryAcquire_run (w : RawWriter G) (h : Hist G) :
    w.tryAcquire.run (Hist.writerExec data) h =
      match free? h.seg.words w.currentIndex.val G.entryCount with
      | none => (.error (busyError G), h)
      | some i => (.ok ⟨i⟩, { h with seg := h.seg.setWord i 0 }) := by
  unfold RawWriter.tryAcquire
  rw [run_bind, claimSlot_run]
  cases free? h.seg.words w.currentIndex.val G.entryCount <;> rfl

end

/-! ## The first free slot -/

/-- What a successful write to slot `i` leaves behind. -/
structure WroteTo (w : RawWriter G) (data : List UInt8) (h : Hist G) (i : Slot G)
    (w' : RawWriter G) (h' : Hist G) : Prop where
  payload : bytesOf (h'.seg.payload i) = data
  word : h'.seg.words i = w.lastEntrySeq + 1
  last : h'.seg.hdr .lastEntrySeq = w.lastEntrySeq + 1
  count : w'.lastEntrySeq = w.lastEntrySeq + 1
  index : h'.seg.hdr .writeIndex = (i.val + 1) % G.entryCount
  cursor : w'.currentIndex.val = (i.val + 1) % G.entryCount
  others : ∀ j, j ≠ i → h'.seg.words j = h.seg.words j ∧ h'.seg.payload j = h.seg.payload j
  header : ∀ x, x ≠ .writeIndex → x ≠ .lastEntrySeq → h'.seg.hdr x = h.seg.hdr x

theorem wroteTo {data : List UInt8} {w : RawWriter G} {h : Hist G} {i : Slot G}
    (hw : w.lastEntrySeq < 2 ^ 63 - 1) (hlen : data.length = G.payloadBytes) :
    WroteTo w data h i (w.next i)
      ((h.claimed i (blockOf data)).published i (u64 (w.lastEntrySeq + 1)) data) := by
  have hseq : u64 (w.lastEntrySeq + 1) = w.lastEntrySeq + 1 := u64_of_lt (by omega)
  refine ⟨?_, ?_, hseq, hseq, rfl, rfl, fun j hj => ⟨?_, ?_⟩, fun x h₁ h₂ => ?_⟩
  · rw [Hist.published_payload, Hist.claimed_payload, if_pos rfl, bytesOf_blockOf hlen]
  · rw [Hist.published_words, if_pos rfl, hseq, asI64_of_lt (by omega)]
    norm_cast
  · rw [Hist.published_words, if_neg hj, Hist.claimed_words, if_neg hj]
  · rw [Hist.published_payload, Hist.claimed_payload, if_neg hj]
  · exact (Segment.setHdr_ne _ h₂ _).trans (Segment.setHdr_ne _ h₁ _)

/-- **A write takes the first free slot or changes nothing**, whatever the slot words
    and the header are. -/
theorem write_first_free (w : RawWriter G) (data : List UInt8) (h : Hist G)
    (hw : w.lastEntrySeq < 2 ^ 63 - 1) :
    ∃ res w' h', (w.write data).run (Hist.writerExec data) h = ((res, w'), h') ∧
      ((∃ e, res = .error e) ↔ data.length ≠ G.payloadBytes ∨ ∀ i, h.seg.words i < 0) ∧
      ((∃ e, res = .error e) → w' = w ∧ h' = h) ∧
      (res = .ok () → ∃ d < G.entryCount,
        0 ≤ h.seg.words (G.slot (w.currentIndex.val + d)) ∧
        (∀ e < d, h.seg.words (G.slot (w.currentIndex.val + e)) < 0) ∧
        WroteTo w data h (G.slot (w.currentIndex.val + d)) w' h') := by
  by_cases hlen : data.length = G.payloadBytes
  swap
  · refine ⟨_, w, h, by rw [write_len data w hlen]; rfl, ?_, fun _ => ⟨rfl, rfl⟩, fun hok => ?_⟩
    · exact iff_of_true ⟨_, rfl⟩ (Or.inl hlen)
    · cases hok
  cases hf : free? h.seg.words w.currentIndex.val G.entryCount with
  | none =>
    refine ⟨_, w, h, by rw [write_run data w h hlen, hf], ?_, fun _ => ⟨rfl, rfl⟩, fun hok => ?_⟩
    · exact iff_of_true ⟨_, rfl⟩ (Or.inr (free?_eq_none.1 hf))
    · cases hok
  | some i =>
    obtain ⟨d, hd, rfl, hnonneg, hneg⟩ := free?_some hf
    refine ⟨_, _, _, by rw [write_run data w h hlen, hf], ?_, ?_, fun _ =>
      ⟨d, hd, hnonneg, hneg, wroteTo hw hlen⟩⟩
    · refine iff_of_false (fun ⟨e, he⟩ => by cases he) (not_or.2 ⟨not_not.2 hlen, fun hall => ?_⟩)
      exact absurd (hall _) (not_lt.2 hnonneg)
    · rintro ⟨e, he⟩
      cases he

/-- With the slot at the cursor held, a write goes to the next one. -/
theorem write_first_free_skips : ∃ (h h' : Hist (.tiny 1)) (w' : RawWriter (.tiny 1)),
    h.seg.words (Geometry.slot _ 0) = -4 ∧
    WroteTo ⟨Geometry.slot _ 0, 5⟩ (List.replicate 8 1) h (Geometry.slot _ 1) w' h' := by
  let h : Hist (.tiny 1) := ⟨(Segment.init _ .u8 7).setWord (Geometry.slot _ 0) (-4), [], [], []⟩
  obtain ⟨res, w', h', -, herr, -, hok⟩ := write_first_free ⟨Geometry.slot _ 0, 5⟩
    (List.replicate 8 1) h (by norm_num)
  have hfree : ¬ (∃ e, res = .error e) := fun he => by
    rcases herr.1 he with hlen | hall
    · exact hlen rfl
    · exact absurd (hall (Geometry.slot _ 1)) (by decide)
  have hres : res = .ok () := by
    rcases res with e | ⟨⟩
    · exact absurd ⟨e, rfl⟩ hfree
    · rfl
  obtain ⟨d, hd, hnonneg, hneg, hwrote⟩ := hok hres
  -- the first slot is held, so the slot taken is the second
  have hd1 : d = 1 := by
    have hN : d < 2 := hd
    rcases Nat.eq_zero_or_pos d with rfl | hpos
    · exact absurd hnonneg (by decide)
    · omega
  subst hd1
  exact ⟨h, h', w', by decide, hwrote⟩

/-! ## Attaching -/

/-- The count `recover_state` arrives at. -/
def recoveredSeq (words : Slot G → ℤ) (last : ℕ) : ℕ :=
  (List.finRange G.entryCount).foldl (fun m i => max m (words i).natAbs) last

/-- The writer that `attach` makes of slot words and header counters that do not
    change. -/
def resumed (words : Slot G → ℤ) (writeIndex last : ℕ) : RawWriter G :=
  let i := G.slot writeIndex
  let n := recoveredSeq words last
  if (words i).natAbs ≠ 0 ∧ (words i).natAbs = n then ⟨G.slot (i.val + 1), n⟩ else ⟨i, n⟩

theorem recoveredSeq_le {words : Slot G → ℤ} {last b : ℕ} :
    recoveredSeq words last ≤ b ↔ last ≤ b ∧ ∀ i, (words i).natAbs ≤ b := by
  have key : ∀ (l : List (Slot G)) (m : ℕ), l.foldl (fun m i => max m (words i).natAbs) m ≤ b ↔
      m ≤ b ∧ ∀ i ∈ l, (words i).natAbs ≤ b := by
    intro l
    induction l with
    | nil => simp
    | cons i l ih =>
      intro m
      rw [List.foldl_cons, ih, max_le_iff, List.forall_mem_cons, and_assoc]
  simpa [recoveredSeq] using key (List.finRange G.entryCount) last

theorem recoveredSeq_ge {words : Slot G → ℤ} {last : ℕ} :
    last ≤ recoveredSeq words last ∧ ∀ i, (words i).natAbs ≤ recoveredSeq words last :=
  recoveredSeq_le.1 le_rfl

/-- The count is the header's, or stands in a slot. -/
theorem recoveredSeq_eq {words : Slot G → ℤ} {last n : ℕ} (hl : last ≤ n)
    (hw : ∀ i, (words i).natAbs ≤ n) (hn : last = n ∨ ∃ i, (words i).natAbs = n) :
    recoveredSeq words last = n := by
  refine le_antisymm (recoveredSeq_le.2 ⟨hl, hw⟩) ?_
  rcases hn with rfl | ⟨i, rfl⟩
  · exact recoveredSeq_ge.1
  · exact recoveredSeq_ge.2 i

/-- Recovery reads magnitudes only. -/
theorem recoveredSeq_congr {words words' : Slot G → ℤ}
    (h : ∀ i, (words' i).natAbs = (words i).natAbs) (last : ℕ) :
    recoveredSeq words' last = recoveredSeq words last := by
  unfold recoveredSeq
  simp only [h]

theorem resumed_congr {words words' : Slot G → ℤ}
    (h : ∀ i, (words' i).natAbs = (words i).natAbs) (writeIndex last : ℕ) :
    resumed words' writeIndex last = resumed words writeIndex last := by
  unfold resumed
  simp only [h, recoveredSeq_congr h]

@[simp] theorem resumed_lastEntrySeq (words : Slot G → ℤ) (writeIndex last : ℕ) :
    (resumed words writeIndex last).lastEntrySeq = recoveredSeq words last := by
  unfold resumed
  dsimp only
  split_ifs <;> rfl

section
variable {σ : Type} {seg : σ → Segment G} {ex : Exec (segSig G) σ} (hR : Reads seg ex)
include hR

theorem recoverScan_run (last : ℕ) (s : σ) :
    (recoverScan last).run ex s = (recoveredSeq (seg s).words last, s) := by
  have key : ∀ (l : List (Slot G)) (m : ℕ), (l.foldlM (fun maxSeq i => do
      let raw ← loadSeq i
      Pure.pure (if maxSeq < raw.natAbs then raw.natAbs else maxSeq)) m : SegProg G ℕ).run ex s =
      (l.foldl (fun m i => max m ((seg s).words i).natAbs) m, s) := by
    intro l
    induction l with
    | nil => intro m; rfl
    | cons i l ih =>
      intro m
      rw [List.foldlM_cons, run_bind, hR.run_loadSeq, List.foldl_cons]
      rw [max_def_lt]
      exact ih _
  exact key _ _

/-- **`attach` run alone.** -/
theorem attach_run (header : Header) (s : σ) :
    (RawWriter.attach header).run ex s =
      (resumed (seg s).words header.writeIndex header.lastEntrySeq, s) := by
  unfold RawWriter.attach recoverState resumed
  simp only [run_bind, recoverScan_run hR, hR.run_loadSeq]
  split_ifs <;> rfl

/-- **`read_header` run alone.** -/
theorem readHeader_run (s : σ) :
    (readHeader loadHdr : SegProg G _).run ex s = (decodeHeader (seg s).hdr, s) := by
  unfold readHeader decodeHeader
  simp only [hR.run_loadHdr]
  split_ifs
  · rfl
  · rfl
  · rfl
  · simp only [hR.run_loadHdr]
    rfl

end

end ZeroChannel
