/-
  What the calls of a session do.

  One equation for each call (`call_write`, …), and `step_effect`, which lists the
  ways a call can change a session.
-/
import ZeroChannel.Session
import ZeroChannel.Proof.WriteAlone
import ZeroChannel.Proof.ReadAlone
import Mathlib.Data.List.Nodup

namespace ZeroChannel

open Concur

variable {G : Geometry} {ι : Type}

namespace Session

/-- The slot a call claims: the first free one from the cursor on. -/
def claims (s : Session G ι) : Call G ι → Option (Slot G)
  | .write data => if data.length = G.payloadBytes then
      free? s.mem.seg.words s.writer.currentIndex.val G.entryCount
    else none
  | .acquire => free? s.mem.seg.words s.writer.currentIndex.val G.entryCount
  | _ => none

/-- The session after a write to slot `i`. -/
def wrote (s : Session G ι) (i : Slot G) (data : List UInt8) : Session G ι :=
  { s with mem := (s.mem.claimed i (blockOf data)).published i (u64 (s.writer.lastEntrySeq + 1)) data,
           writer := s.writer.next i }

/-- The session after slot `i` was handed out. -/
def acquired (s : Session G ι) (i : Slot G) : Session G ι :=
  { s with mem := { s.mem with seg := s.mem.seg.setWord i 0 },
           writeHandles := s.writeHandles ++ [⟨i⟩] }

def filled (s : Session G ι) (x : WriteHandle G) (j : Fin G.payloadBytes) (b : UInt8) :
    Session G ι :=
  { s with mem := { s.mem with seg := s.mem.seg.setByte x.index j b } }

def committed (s : Session G ι) (x : WriteHandle G) : Session G ι :=
  { s with mem := s.mem.published x.index (u64 (s.writer.lastEntrySeq + 1))
             (bytesOf (s.mem.seg.payload x.index)),
           writer := s.writer.next x.index,
           writeHandles := s.writeHandles.erase x }

section
variable [DecidableEq ι] (s : Session G ι)

theorem call_write (data : List UInt8) :
    s.call (.write data) =
      if data.length = G.payloadBytes then
        match free? s.mem.seg.words s.writer.currentIndex.val G.entryCount with
        | none => some (.write (.error (busyError G)), s)
        | some i => some (.write (.ok ()), s.wrote i data)
      else some (.write (.error (.invalidArgument
        s!"expected {G.payloadBytes} payload bytes, got {data.length}")), s) := by
  simp only [call]
  split_ifs with hlen
  · rw [write_run data _ _ hlen]
    cases free? s.mem.seg.words s.writer.currentIndex.val G.entryCount <;> rfl
  · rw [write_len data _ hlen]
    rfl

theorem call_acquire :
    s.call .acquire =
      match free? s.mem.seg.words s.writer.currentIndex.val G.entryCount with
      | none => some (.acquire (.error (busyError G)), s)
      | some i => some (.acquire (.ok ⟨i⟩), s.acquired i) := by
  simp only [call]
  rw [tryAcquire_run]
  cases free? s.mem.seg.words s.writer.currentIndex.val G.entryCount with
  | none => simp [Except.toOption]
  | some i => rfl

theorem call_fill (x : WriteHandle G) (j : Fin G.payloadBytes) (b : UInt8) :
    s.call (.fill x j b) = if x ∈ s.writeHandles then some (.done, s.filled x j b) else none := rfl

theorem call_commit (x : WriteHandle G) :
    s.call (.commit x) = if x ∈ s.writeHandles then
      some (.commit (u64 (s.writer.lastEntrySeq + 1)), s.committed x) else none := rfl

theorem call_reattach :
    s.call .reattach =
      match decodeHeader s.mem.seg.hdr with
      | .ok (some header) => some (.done,
          { s with writer := resumed s.mem.seg.words header.writeIndex header.lastEntrySeq })
      | _ => none := by
  simp only [call, reattachWriter, Prog.run_bind, readHeader_run (writerExec_reads [])]
  rcases decodeHeader s.mem.seg.hdr with e | _ | header
  · rfl
  · rfl
  · simp only [Prog.run_bind, attach_run (writerExec_reads [])]
    rfl

theorem call_readInto (hlt : ∀ i, s.mem.seg.words i < 2 ^ 63) (r : ι) (dst : List UInt8)
    (fromEntrySeq : Option ℕ) :
    s.call (.readInto r dst fromEntrySeq) =
      if dst.length = G.payloadBytes then
        some (.readInto (.ok (readAlone s.mem.seg (s.readers r) dst fromEntrySeq).1)
            (readAlone s.mem.seg (s.readers r) dst fromEntrySeq).2.2,
          { s with
            readers := Function.update s.readers r
              (readAlone s.mem.seg (s.readers r) dst fromEntrySeq).2.1 })
      else some (.readInto (.error (.invalidArgument
        s!"destination holds {dst.length} bytes, expected {G.payloadBytes}")) dst, s) := by
  simp only [call]
  split_ifs with hlen
  · simp only [readInto_run readerExec_reads (s.readers r) hlen fromEntrySeq hlt]
  · simp only [readInto_len (s.readers r) hlen fromEntrySeq, Prog.run_pure, Function.update_eq_self]

/-- What a read that returns an entry has found. -/
theorem readInto_found {s s' : Session G ι} (hlt : ∀ i, s.mem.seg.words i < 2 ^ 63) {r : ι}
    {dst dst' : List UInt8} {f : Option ℕ} {n : ℕ}
    (h : s.call (.readInto r dst f) = some (.readInto (.ok (some n)) dst', s')) :
    ∃ i, located s.mem.seg.words (s.readers r) (f.getD (s.readers r).lastEntrySeq) =
      some (i, n) := by
  rw [call_readInto s hlt] at h
  split_ifs at h
  swap
  · simp at h
  simp only [Option.some.injEq, Prod.mk.injEq, Answer.readInto.injEq, Except.ok.injEq] at h
  obtain ⟨⟨hread, -⟩, -⟩ := h
  unfold readAlone at hread
  rcases hl : (gate (s.mem.seg.hdr .lastEntrySeq) (s.readers r) f).bind
    (located s.mem.seg.words (s.readers r)) with _ | ⟨i, k⟩
  · rw [hl] at hread
    cases hread
  · rw [hl] at hread
    cases hread
    obtain ⟨w, hgate, hloc⟩ := Option.bind_eq_some_iff.1 hl
    obtain ⟨rfl, -⟩ := gate_some.1 hgate
    exact ⟨i, hloc⟩

theorem call_tryAcquire (hlt : ∀ i, s.mem.seg.words i < 2 ^ 63) (r : ι)
    (fromEntrySeq : Option ℕ) :
    s.call (.tryAcquire r fromEntrySeq) =
      match (gate (s.mem.seg.hdr .lastEntrySeq) (s.readers r) fromEntrySeq).bind
          (located s.mem.seg.words (s.readers r)) with
      | none => some (.tryAcquire none, s)
      | some (i, n) => some (.tryAcquire (some ⟨i, n⟩),
          { s with mem := s.mem.pinned ⟨i, n⟩, readers := Function.update s.readers r ⟨n, i⟩,
                   readHandles := s.readHandles ++ [⟨i, n⟩] }) := by
  simp only [call]
  simp only [tryAcquireReader_run (s.readers r) fromEntrySeq hlt]
  rcases (gate (s.mem.seg.hdr .lastEntrySeq) (s.readers r) fromEntrySeq).bind
    (located s.mem.seg.words (s.readers r)) with _ | ⟨i, n⟩
  · simp
  · rfl

theorem call_release {x : ReadHandle G} (hx : x.entrySeq < 2 ^ 63) :
    s.call (.release x) = if x ∈ s.readHandles then
      some (.done, { s with mem := s.mem.released x, readHandles := s.readHandles.erase x })
    else none := by
  simp only [call]
  simp only [release_run hx]

end

/-- A call takes no entry back. -/
theorem call_log [DecidableEq ι] {s s' : Session G ι} {c : Call G ι} {a : Answer G}
    (h : s.call c = some (a, s')) : s.mem.log <+: s'.mem.log := by
  cases c with
  | write data =>
    cases h
    exact Hist.writer_run_log _ _ _
  | acquire =>
    cases h
    exact Hist.writer_run_log _ _ _
  | fill x j b =>
    simp only [call] at h
    split_ifs at h
    cases h
    exact Hist.writer_run_log _ _ _
  | commit x =>
    simp only [call] at h
    split_ifs at h
    cases h
    exact Hist.writer_run_log _ _ _
  | abandon x =>
    simp only [call] at h
    split_ifs at h
    cases h
    exact List.prefix_rfl
  | reattach =>
    rw [call_reattach] at h
    split at h
    · cases h
      exact List.prefix_rfl
    · cases h
  | attachReader r =>
    cases h
    exact List.prefix_rfl
  | readInto r dst f =>
    cases h
    exact Hist.reader_run_grows _ _
  | tryAcquire r f =>
    cases h
    exact Hist.reader_run_grows _ _
  | release x =>
    simp only [call] at h
    split_ifs at h
    cases h
    exact Hist.reader_run_grows _ _

theorem step_log [DecidableEq ι] {s s' : Session G ι} {c : Call G ι} (h : s.step c = some s') :
    s.mem.log.length ≤ s'.mem.log.length := by
  obtain ⟨⟨a, t⟩, hc, rfl⟩ := Option.map_eq_some_iff.1 h
  exact (call_log hc).length_le

/-! ## Outstanding read handles -/

/-- Words are `i64`, and each outstanding read handle pins its slot. -/
structure Pinned (s : Session G ι) : Prop where
  lt : ∀ i, s.mem.seg.words i < 2 ^ 63
  pin : ∀ x ∈ s.readHandles, 0 < x.entrySeq ∧ x.entrySeq < 2 ^ 63 ∧
    s.mem.seg.words x.index = -(x.entrySeq : ℤ)
  nodup : s.readHandles.Nodup

theorem Pinned.ne {s : Session G ι} (h : s.Pinned) {x : ReadHandle G} (hx : x ∈ s.readHandles)
    {i : Slot G} (hi : 0 ≤ s.mem.seg.words i) : x.index ≠ i := by
  rintro rfl
  have := h.pin x hx
  omega

theorem Pinned.index_inj {s : Session G ι} (h : s.Pinned) {x y : ReadHandle G}
    (hx : x ∈ s.readHandles) (hy : y ∈ s.readHandles) (hxy : x.index = y.index) : x = y := by
  have h₁ := (h.pin x hx).2.2
  have h₂ := (h.pin y hy).2.2
  rcases x with ⟨i, n⟩
  rcases y with ⟨j, m⟩
  obtain rfl : i = j := hxy
  simp only at h₁ h₂
  have : n = m := by omega
  rw [this]

theorem wrote_words (s : Session G ι) (i j : Slot G) (data : List UInt8) :
    (s.wrote i data).mem.seg.words j =
      if j = i then asI64 (u64 (s.writer.lastEntrySeq + 1)) else s.mem.seg.words j :=
  (pastStore_published s.writer data s.mem i).words j

theorem acquired_words (s : Session G ι) (i j : Slot G) :
    (s.acquired i).mem.seg.words j = if j = i then 0 else s.mem.seg.words j :=
  Segment.setWord_words s.mem.seg i j 0

section
variable {s : Session G ι} (h : s.Pinned)
include h

/-- Storing in a slot that no reader holds. -/
theorem Pinned.store {i : Slot G} (hi : 0 ≤ s.mem.seg.words i) {v : ℤ} (hv : v < 2 ^ 63)
    {s' : Session G ι} (hr : s'.readHandles = s.readHandles)
    (hw : ∀ j, s'.mem.seg.words j = if j = i then v else s.mem.seg.words j) : s'.Pinned := by
  refine ⟨fun j => ?_, fun x hx => ?_, hr ▸ h.nodup⟩
  · rw [hw]
    split_ifs
    · exact hv
    · exact h.lt j
  · rw [hr] at hx
    rw [hw, if_neg (h.ne hx hi)]
    exact h.pin x hx

theorem Pinned.wrote {i : Slot G} (hi : 0 ≤ s.mem.seg.words i) (data : List UInt8) :
    (s.wrote i data).Pinned :=
  h.store hi (asI64_u64_lt _) rfl fun j => wrote_words s i j data

theorem Pinned.committed {x : WriteHandle G} (hx : 0 ≤ s.mem.seg.words x.index) :
    (s.committed x).Pinned :=
  h.store hx (asI64_u64_lt _) rfl fun j => Hist.published_words _ _ _ _ j

theorem Pinned.acquired {i : Slot G} (hi : 0 ≤ s.mem.seg.words i) : (s.acquired i).Pinned :=
  h.store hi (by norm_num) rfl (acquired_words s i)

theorem Pinned.pinned {i : Slot G} {n : ℕ} (hn : 0 < n) (hlt : n < 2 ^ 63)
    (hi : s.mem.seg.words i = n) (readers : ι → RawReader G) :
    Pinned { s with mem := s.mem.pinned ⟨i, n⟩, readers,
                    readHandles := s.readHandles ++ [⟨i, n⟩] } := by
  refine ⟨fun j => ?_, fun x hx => ?_, ?_⟩
  · simp only [Hist.pinned_words]
    split_ifs
    · omega
    · exact h.lt j
  · simp only [Hist.pinned_words]
    rcases List.mem_append.1 hx with hx | hx
    · rw [if_neg (h.ne hx (by omega))]
      exact h.pin x hx
    · obtain rfl := List.mem_singleton.1 hx
      exact ⟨hn, hlt, if_pos rfl⟩
  · refine List.nodup_append.2 ⟨h.nodup, List.nodup_singleton _, fun x hx y hy e => ?_⟩
    obtain rfl := List.mem_singleton.1 hy
    exact h.ne hx (i := i) (by omega) (e ▸ rfl)

theorem Pinned.released {x : ReadHandle G} (hx : x ∈ s.readHandles) :
    Pinned { s with mem := s.mem.released x, readHandles := s.readHandles.erase x } := by
  obtain ⟨hpos, hlt, hw⟩ := h.pin x hx
  refine ⟨fun j => ?_, fun y hy => ?_, h.nodup.erase x⟩
  · simp only [Hist.released_words]
    split_ifs
    · omega
    · exact h.lt j
  · obtain ⟨hne, hy⟩ := h.nodup.mem_erase_iff.1 hy
    simp only [Hist.released_words]
    rw [if_neg fun e => hne (h.index_inj hy hx e)]
    exact h.pin y hy

/-- Wherever a write is cut short, the outstanding handles still pin their slots. -/
theorem Pinned.crash {data : List UInt8} {o : Option (SegOp G)} {h' : Hist G}
    (hc : WriteAt s.writer data s.mem o h') : Pinned { s with mem := h' } := by
  cases hc with
  | claiming => exact ⟨h.lt, h.pin, h.nodup⟩
  | copying hf => exact h.store (free?_nonneg hf) (v := 0) (by norm_num) rfl fun j => by simp
  | stored hf =>
    exact h.store (free?_nonneg hf) (asI64_u64_lt _) rfl (pastStore_stored _ data _ _).words
  | indexed hf =>
    exact h.store (free?_nonneg hf) (asI64_u64_lt _) rfl (pastStore_indexed _ data _ _).words
  | done hf =>
    exact h.store (free?_nonneg hf) (asI64_u64_lt _) rfl (pastStore_published _ data _ _).words

end

/-- **The ways a call changes a session.** -/
inductive Effect [DecidableEq ι] (s : Session G ι) : Call G ι → Session G ι → Prop
  /-- the slots are left alone -/
  | quiet {c writer readers} : s.claims c = none → (writer = s.writer ∨ c = .reattach) →
      Effect s c { s with writer, readers }
  | write {i data} : data.length = G.payloadBytes → s.claims (.write data) = some i →
      Effect s (.write data) (s.wrote i data)
  | acquire {i} : s.claims .acquire = some i → Effect s .acquire (s.acquired i)
  | fill {x j b} : x ∈ s.writeHandles → Effect s (.fill x j b) (s.filled x j b)
  | commit {x} : x ∈ s.writeHandles → Effect s (.commit x) (s.committed x)
  | abandon {x} : x ∈ s.writeHandles →
      Effect s (.abandon x) { s with writeHandles := s.writeHandles.erase x }
  | tryAcquire {r f i} {n : ℕ} : 0 < n → n < 2 ^ 63 → s.mem.seg.words i = n →
      Effect s (.tryAcquire r f) { s with
        mem := s.mem.pinned ⟨i, n⟩, readers := Function.update s.readers r ⟨n, i⟩,
        readHandles := s.readHandles ++ [⟨i, n⟩] }
  | release {x} : x ∈ s.readHandles →
      Effect s (.release x) { s with
        mem := s.mem.released x, readHandles := s.readHandles.erase x }

/-- A step of a session is one of them. -/
theorem step_effect [DecidableEq ι] {s s' : Session G ι} {c : Call G ι} (hP : s.Pinned)
    (h : s.step c = some s') : Effect s c s' := by
  obtain ⟨⟨a, t⟩, hc, rfl⟩ := Option.map_eq_some_iff.1 h
  cases c with
  | write data =>
    rw [call_write] at hc
    split_ifs at hc with hlen
    · cases hf : free? s.mem.seg.words s.writer.currentIndex.val G.entryCount with
      | none =>
        rw [hf] at hc
        cases hc
        exact .quiet (by simp [claims, hlen, hf]) (Or.inl rfl)
      | some i =>
        rw [hf] at hc
        cases hc
        exact .write hlen (by simp [claims, hlen, hf])
    · cases hc
      exact .quiet (by simp [claims, hlen]) (Or.inl rfl)
  | acquire =>
    rw [call_acquire] at hc
    cases hf : free? s.mem.seg.words s.writer.currentIndex.val G.entryCount with
    | none =>
      rw [hf] at hc
      cases hc
      exact .quiet hf (Or.inl rfl)
    | some i =>
      rw [hf] at hc
      cases hc
      exact .acquire hf
  | fill x j b =>
    rw [call_fill] at hc
    split_ifs at hc with hx
    cases hc
    exact .fill hx
  | commit x =>
    rw [call_commit] at hc
    split_ifs at hc with hx
    cases hc
    exact .commit hx
  | abandon x =>
    simp only [call] at hc
    split_ifs at hc with hx
    cases hc
    exact .abandon hx
  | reattach =>
    rw [call_reattach] at hc
    split at hc
    · cases hc
      exact .quiet rfl (Or.inr rfl)
    · cases hc
  | attachReader r =>
    cases hc
    exact .quiet rfl (Or.inl rfl)
  | readInto r dst f =>
    rw [call_readInto s hP.lt] at hc
    split_ifs at hc
    · cases hc
      exact .quiet rfl (Or.inl rfl)
    · cases hc
      exact .quiet rfl (Or.inl rfl)
  | tryAcquire r f =>
    rw [call_tryAcquire s hP.lt] at hc
    rcases hl : (gate (s.mem.seg.hdr .lastEntrySeq) (s.readers r) f).bind
      (located s.mem.seg.words (s.readers r)) with _ | ⟨i, n⟩
    · rw [hl] at hc
      cases hc
      exact .quiet rfl (Or.inl rfl)
    · rw [hl] at hc
      cases hc
      obtain ⟨w, -, hw⟩ := Option.bind_eq_some_iff.1 hl
      obtain ⟨hw, hn, -⟩ := located_some hP.lt hw
      have := hP.lt i
      exact .tryAcquire (by omega) (by omega) hw
  | release x =>
    by_cases hx : x ∈ s.readHandles
    · rw [call_release s (hP.pin x hx).2.1, if_pos hx] at hc
      cases hc
      exact .release hx
    · simp [call, hx] at hc

end Session

end ZeroChannel
