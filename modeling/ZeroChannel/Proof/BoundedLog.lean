/-
  A channel is a bounded log.

  While no call is interrupted and no pin outlives its `try_acquire`, the ring is a
  window of the log (`Tracks`), and each call does to the log, and answers, what
  the specification says (`bounded_log`).  The slot of an entry being built in
  place is empty, so the window is then one entry shorter (`building_hides`).
-/
import ZeroChannel.Log
import ZeroChannel.Proof.Calls
import ZeroChannel.Proof.Ring
import ZeroChannel.Concur.Trace

namespace ZeroChannel

open Concur

variable {G : Geometry} {ι : Type}

namespace Session

section
variable [DecidableEq ι]

/-- The calls of the log, made on a session.  Between `acquire` and `commit` the
    writer makes no other call than `fill`. -/
def logCall (s : Session G ι) : LogCall G ι → Option (LogAnswer × Session G ι)
  | .write data => if s.writeHandles.isEmpty then
      match s.call (.write data) with
      | some (.write res, t) => some (.write res, t)
      | _ => none
    else none
  | .acquire => if s.writeHandles.isEmpty then
      match s.call .acquire with
      | some (.acquire res, t) => some (.acquire (res.map fun _ => ()), t)
      | _ => none
    else none
  | .fill j b => match s.writeHandles with
    | x :: _ => (s.call (.fill x j b)).map fun r => (.done, r.2)
    | [] => none
  | .commit => match s.writeHandles with
    | x :: _ => match s.call (.commit x) with
      | some (.commit seq, t) => some (.commit seq, t)
      | _ => none
    | [] => none
  | .reattach => if s.writeHandles.isEmpty then
      (s.call .reattach).map fun r => (.done, r.2)
    else none
  | .attachReader r => (s.call (.attachReader r)).map fun r => (.done, r.2)
  | .readInto r dst f => match s.call (.readInto r dst f) with
    | some (.readInto res dst', t) => some (.readInto res dst', t)
    | _ => none
  | .borrow r f => match s.call (.tryAcquire r f) with
    | some (.tryAcquire none, t) => some (.borrow none, t)
    | some (.tryAcquire (some x), t) => (t.call (.release x)).map fun u =>
        (.borrow (some (x.entrySeq, x.asBytes t.mem.seg)), u.2)
    | _ => none

end

/-! ## The relation -/

/-- The session and the log agree. -/
structure Tracks (s : Session G ι) (t : Log G ι) : Prop where
  log : s.mem.log = t.entries
  marks : ∀ r, (s.readers r).lastEntrySeq = t.marks r
  window : Window s.mem.seg.words t.oldest t.entries.length
  data : ∀ i (k : ℕ), 0 < k → s.mem.seg.words i = k →
    t.entries[k - 1]? = some (bytesOf (s.mem.seg.payload i))
  writer : s.writer = ⟨G.slot t.entries.length, t.entries.length⟩
  index : s.mem.seg.hdr .writeIndex = (G.slot t.entries.length).val
  last : s.mem.seg.hdr .lastEntrySeq = t.entries.length
  magic : s.mem.seg.hdr .magic = MAGIC_VERSION
  pins : s.readHandles = []
  idle : t.building = none → s.writeHandles = []
  busy : ∀ b, t.building = some b → s.writeHandles = [⟨G.slot t.entries.length⟩] ∧
    s.mem.seg.words (G.slot t.entries.length) = 0 ∧
    s.mem.seg.payload (G.slot t.entries.length) = b

theorem Tracks.init (dtype : Dtype) (owner : ℕ) :
    (init G ι dtype owner).Tracks Log.empty where
  log := rfl
  marks _ := rfl
  window := .empty G (by simp [Log.oldest])
  data i k hk hi := by simp [Session.init, start, Segment.init] at hi; omega
  writer := rfl
  index := by simp [Session.init, start, Segment.init, Log.empty]
  last := rfl
  magic := rfl
  pins := rfl
  idle _ := rfl
  busy b h := by cases h

namespace Tracks
variable {s : Session G ι} {t : Log G ι} (h : s.Tracks t)
include h

theorem not_building (hw : s.writeHandles.isEmpty) : t.building = none := by
  cases hb : t.building with
  | none => rfl
  | some b =>
    rw [(h.busy b hb).1] at hw
    cases hw

theorem free : free? s.mem.seg.words s.writer.currentIndex.val G.entryCount =
    some (G.slot t.entries.length) := by
  rw [h.writer]
  exact free?_cursor (h.window.range _).1

omit h in
theorem oldest_le (t : Log G ι) : t.oldest ≤ t.entries.length + 1 := by
  have := G.count_pos
  unfold Log.oldest
  split_ifs <;> omega

/-- **What a read finds** is what the log gives. -/
theorem read (hn : t.entries.length < 2 ^ 63) (r : ι) (f : Option ℕ) :
    (gate (s.mem.seg.hdr .lastEntrySeq) (s.readers r) f).bind
        (located s.mem.seg.words (s.readers r)) =
      (t.next? r f).map fun e => (G.slot (e - 1), e) := by
  have hlt := h.window.lt hn
  unfold gate Log.next? Log.mark
  rw [h.last, h.marks]
  dsimp only
  split_ifs with hw
  · rw [next?_eq_none.2 fun k _ hk => hk.trans hw]
    rfl
  · rw [Option.bind_some]
    rcases hl : located s.mem.seg.words (s.readers r) (f.getD (t.marks r)) with _ | ⟨i, n⟩
    · -- no word is above the watermark, so no survivor is
      have hall := (located_none hlt).1 hl
      rw [next?_eq_none.2 fun k hk hkn => ?_]
      · rfl
      · have := hall (G.slot (k - 1))
        rw [h.window.present k hk hkn] at this
        omega
    · obtain ⟨hi, hwn, hmin⟩ := located_some hlt hl
      obtain ⟨hlo, hhi, hslot⟩ := h.window.slot_of (by omega) hi
      have hleast : IsLeast {k | f.getD (t.marks r) < k ∧ t.oldest ≤ k ∧ k ≤ t.entries.length} n := by
        refine ⟨⟨hwn, hlo, hhi⟩, ?_⟩
        rintro k ⟨h₁, h₂, h₃⟩
        have hk := hmin (G.slot (k - 1))
        rw [h.window.present k h₂ h₃] at hk
        omega
      rw [next?_eq_some.2 hleast, hslot]
      rfl

/-- The entry a read finds is in the log, and in the slot it is found in. -/
theorem entry {r : ι} {f : Option ℕ} {n : ℕ} (hn : t.next? r f = some n) :
    0 < n ∧ s.mem.seg.words (G.slot (n - 1)) = n ∧
      t.entries[n - 1]? = some (bytesOf (s.mem.seg.payload (G.slot (n - 1)))) := by
  obtain ⟨⟨h₁, h₂, h₃⟩, -⟩ := next?_eq_some.1 hn
  have hw := h.window.present n h₂ h₃
  exact ⟨by omega, hw, h.data _ n (by omega) hw⟩

/-- Reading moves a bookmark and nothing else. -/
theorem mark [DecidableEq ι] {raw : RawReader G} {r : ι} {n : ℕ} (hraw : raw.lastEntrySeq = n) :
    Tracks { s with readers := Function.update s.readers r raw }
      { t with marks := Function.update t.marks r n } := by
  refine ⟨h.log, fun r' => ?_, h.window, h.data, h.writer, h.index, h.last, h.magic, h.pins,
    h.idle, h.busy⟩
  by_cases hr : r' = r
  · subst hr
    simp [hraw]
  · simp [hr, h.marks]

/-- A pin that is released at once leaves no trace. -/
theorem borrowed {i : Slot G} {n : ℕ} (hi : s.mem.seg.words i = n) :
    Tracks { s with mem := (s.mem.pinned ⟨i, n⟩).released ⟨i, n⟩,
                    readHandles := (s.readHandles ++ [(⟨i, n⟩ : ReadHandle G)]).erase ⟨i, n⟩ } t := by
  have hseg : ((s.mem.pinned ⟨i, n⟩).released ⟨i, n⟩).seg = s.mem.seg := by
    simp only [Hist.pinned, Hist.released, Segment.setWord_setWord, ← hi, Segment.setWord_eq_self]
  refine ⟨h.log, h.marks, ?_, ?_, h.writer, ?_, ?_, ?_, by simp [h.pins], h.idle, ?_⟩
  · rw [hseg]; exact h.window
  · rw [hseg]; exact h.data
  · rw [hseg]; exact h.index
  · rw [hseg]; exact h.last
  · rw [hseg]; exact h.magic
  · rw [hseg]; exact h.busy

theorem wrote {data : List UInt8} (hb : t.building = none) (hlen : data.length = G.payloadBytes)
    (hn : t.entries.length + 1 < 2 ^ 63) :
    (s.wrote (G.slot t.entries.length) data).Tracks { t with entries := t.entries ++ [data] } := by
  have hseq : u64 (s.writer.lastEntrySeq + 1) = t.entries.length + 1 := by
    rw [h.writer]
    exact u64_of_lt (n := t.entries.length + 1) (by omega)
  have hw : ∀ j, (s.wrote (G.slot t.entries.length) data).mem.seg.words j =
      if j = G.slot t.entries.length then ((t.entries.length + 1 : ℕ) : ℤ)
      else s.mem.seg.words j := by
    intro j
    simp only [Session.wrote, Hist.published_words, Hist.claimed_words, hseq, asI64_of_lt hn]
    split_ifs <;> rfl
  have hlo : ({ t with entries := t.entries ++ [data] } : Log G ι).oldest =
      max t.oldest (t.entries.length + 2 - G.entryCount) := by
    simp only [Log.oldest, hb, Option.isSome_none, Bool.false_eq_true, if_false,
      List.length_append, List.length_singleton]
    omega
  refine ⟨?_, h.marks, ?_, fun i k hk hi => ?_, ?_, ?_, ?_, h.magic, h.pins, h.idle, ?_⟩
  · simp [Session.wrote, h.log]
  · rw [List.length_append, List.length_singleton]
    exact h.window.write (oldest_le t) hlo hw
  · rw [hw] at hi
    simp only [Session.wrote, Hist.published_payload, Hist.claimed_payload]
    split_ifs at hi ⊢ with hs
    · obtain rfl : k = t.entries.length + 1 := by omega
      simp [bytesOf_blockOf hlen]
    · rw [List.getElem?_append_left (by have := (h.window.range i).2; omega)]
      exact h.data i k hk hi
  · simp [Session.wrote, RawWriter.next, hseq]
  · simp [Session.wrote]
  · simp [Session.wrote, hseq]
  · intro b hb'
    rw [hb] at hb'
    cases hb'

theorem acquired (hb : t.building = none) :
    (s.acquired (G.slot t.entries.length)).Tracks
      { t with building := some (s.mem.seg.payload (G.slot t.entries.length)) } := by
  have hw := acquired_words s (G.slot t.entries.length)
  have hlo : ({ t with building := some (s.mem.seg.payload (G.slot t.entries.length)) } :
      Log G ι).oldest = max t.oldest (t.entries.length + 2 - G.entryCount) := by
    simp only [Log.oldest, hb, Option.isSome_none, Option.isSome_some, Bool.false_eq_true,
      if_false, if_true]
    omega
  refine ⟨h.log, h.marks, h.window.clear hlo hw, fun i k hk hi => ?_, h.writer, h.index, h.last,
    h.magic, h.pins, fun hb' => by (cases hb'), ?_⟩
  · rw [hw] at hi
    split_ifs at hi
    · omega
    · exact h.data i k hk hi
  · intro b hb'
    obtain rfl := Option.some.inj hb'
    exact ⟨by simp [Session.acquired, h.idle hb], by rw [hw, if_pos rfl], rfl⟩

theorem filled {b : Block G} (hb : t.building = some b) (j : Fin G.payloadBytes) (v : UInt8) :
    (s.filled ⟨G.slot t.entries.length⟩ j v).Tracks
      { t with building := some (Function.update b j v) } := by
  obtain ⟨hh, h0, hp⟩ := h.busy b hb
  have hlo : ({ t with building := some (Function.update b j v) } : Log G ι).oldest =
      t.oldest := by
    simp [Log.oldest, hb]
  refine ⟨h.log, h.marks, hlo ▸ h.window, fun i k hk hi => ?_, h.writer, h.index, h.last, h.magic,
    h.pins, fun hb' => by (cases hb'), ?_⟩
  · have hne : i ≠ G.slot t.entries.length := by
      rintro rfl
      change s.mem.seg.words _ = _ at hi
      omega
    simp only [Session.filled, Segment.setByte_ne _ hne]
    exact h.data i k hk hi
  · intro b' hb'
    obtain rfl := Option.some.inj hb'
    refine ⟨hh, h0, ?_⟩
    simp only [Session.filled, Segment.setByte_eq, Segment.setBlock_self, hp]

theorem committed {b : Block G} (hb : t.building = some b) (hn : t.entries.length + 1 < 2 ^ 63) :
    (s.committed ⟨G.slot t.entries.length⟩).Tracks
      { t with entries := t.entries ++ [bytesOf b], building := none } := by
  obtain ⟨hh, h0, hp⟩ := h.busy b hb
  have hseq : u64 (s.writer.lastEntrySeq + 1) = t.entries.length + 1 := by
    rw [h.writer]
    exact u64_of_lt (n := t.entries.length + 1) (by omega)
  have hw : ∀ j, (s.committed ⟨G.slot t.entries.length⟩).mem.seg.words j =
      if j = G.slot t.entries.length then ((t.entries.length + 1 : ℕ) : ℤ)
      else s.mem.seg.words j := by
    intro j
    simp only [Session.committed, Hist.published_words, hseq, asI64_of_lt hn]
  have hlo : ({ t with entries := t.entries ++ [bytesOf b], building := none } : Log G ι).oldest =
      t.oldest := by
    simp only [Log.oldest, hb, Option.isSome_none, Option.isSome_some, Bool.false_eq_true,
      if_false, if_true, List.length_append, List.length_singleton]
  have hge : t.entries.length + 2 - G.entryCount ≤ t.oldest := by
    simp only [Log.oldest, hb, Option.isSome_some, if_true]
    omega
  refine ⟨?_, h.marks, ?_, fun i k hk hi => ?_, ?_, ?_, ?_, h.magic, h.pins, fun _ => ?_,
    fun b hb' => by (cases hb')⟩
  · simp [Session.committed, h.log, hp]
  · rw [hlo, List.length_append, List.length_singleton]
    exact h.window.publish hge hw (oldest_le t)
  · rw [hw] at hi
    simp only [Session.committed, Hist.published_payload]
    split_ifs at hi with hs
    · obtain rfl : k = t.entries.length + 1 := by omega
      simp [hs, hp]
    · rw [List.getElem?_append_left (by have := (h.window.range i).2; omega)]
      exact h.data i k hk hi
  · simp [Session.committed, RawWriter.next, hseq]
  · simp [Session.committed]
  · simp [Session.committed, hseq]
  · simp [Session.committed, hh]

/-- A new writer resumes where the last one stopped. -/
theorem resumed :
    ZeroChannel.resumed s.mem.seg.words (s.mem.seg.hdr .writeIndex) (s.mem.seg.hdr .lastEntrySeq) =
      s.writer := by
  have hcount : recoveredSeq s.mem.seg.words t.entries.length = t.entries.length := by
    refine recoveredSeq_eq le_rfl (fun i => ?_) (Or.inl rfl)
    have := h.window.range i
    omega
  unfold ZeroChannel.resumed
  rw [h.index, h.last, h.writer, hcount]
  dsimp only
  rw [G.slot_self]
  split_ifs with hat
  · -- the newest entry is at the cursor only in a ring of one slot
    obtain ⟨hne, he⟩ := hat
    have hr := h.window.range (G.slot t.entries.length)
    have hw : s.mem.seg.words (G.slot t.entries.length) = t.entries.length := by omega
    obtain ⟨-, -, hs⟩ := h.window.slot_of (by omega) hw
    rw [G.slot_val, slot_mod_add, slot_succ_of_eq (by omega) hs]
  · rfl

end Tracks

/-! ## The simulation -/

section
variable [DecidableEq ι] {s s' : Session G ι} {t : Log G ι}

/-- What a call of the log makes of a session that tracks it. -/
theorem Tracks.step (h : s.Tracks t) (hlt : t.entries.length < 2 ^ 63) {c : LogCall G ι}
    {a : LogAnswer} (hs : s.logCall c = some (a, s')) (hn : s'.mem.log.length < 2 ^ 63 - 1) :
    ∃ t', t.Step c a t' ∧ s'.Tracks t' := by
  cases c with
  | write data =>
    simp only [logCall, call_write, h.free] at hs
    split_ifs at hs with hw hlen
    · obtain ⟨rfl, rfl⟩ := Prod.mk.inj (Option.some.inj hs)
      have hb := h.not_building hw
      have hlog : (s.wrote (G.slot t.entries.length) data).mem.log.length =
          t.entries.length + 1 := by
        simp [Session.wrote, h.log]
      exact ⟨_, .write hb hlen, h.wrote hb hlen (by omega)⟩
    · obtain ⟨rfl, rfl⟩ := Prod.mk.inj (Option.some.inj hs)
      exact ⟨t, .writeLength (h.not_building hw) hlen, h⟩
  | acquire =>
    simp only [logCall, call_acquire, h.free] at hs
    split_ifs at hs with hw
    obtain ⟨rfl, rfl⟩ := Prod.mk.inj (Option.some.inj hs)
    have hb := h.not_building hw
    exact ⟨_, .acquire hb, h.acquired hb⟩
  | fill j v =>
    cases hb : t.building with
    | none => simp [logCall, h.idle hb] at hs
    | some b =>
      simp only [logCall, (h.busy b hb).1, call_fill, List.mem_singleton, if_true,
        Option.map_some] at hs
      obtain ⟨rfl, rfl⟩ := Prod.mk.inj (Option.some.inj hs)
      exact ⟨_, .fill hb, h.filled hb j v⟩
  | commit =>
    cases hb : t.building with
    | none => simp [logCall, h.idle hb] at hs
    | some b =>
      simp only [logCall, (h.busy b hb).1, call_commit, List.mem_singleton, if_true] at hs
      obtain ⟨rfl, rfl⟩ := Prod.mk.inj (Option.some.inj hs)
      have hlog : (s.committed ⟨G.slot t.entries.length⟩).mem.log.length =
          t.entries.length + 1 := by
        simp [Session.committed, h.log]
      have hseq : u64 (s.writer.lastEntrySeq + 1) = t.entries.length + 1 := by
        rw [h.writer]
        exact u64_of_lt (n := t.entries.length + 1) (by omega)
      rw [hseq]
      exact ⟨_, .commit hb, h.committed hb (by omega)⟩
  | reattach =>
    simp only [logCall, call_reattach, decodeHeader_ok h.magic, h.resumed] at hs
    split_ifs at hs with hw
    obtain ⟨rfl, rfl⟩ := Prod.mk.inj (Option.some.inj hs)
    exact ⟨t, .reattach (h.not_building hw), h⟩
  | attachReader r =>
    simp only [logCall, call, Option.map_some] at hs
    obtain ⟨rfl, rfl⟩ := Prod.mk.inj (Option.some.inj hs)
    exact ⟨_, .attachReader, h.mark rfl⟩
  | readInto r dst f =>
    simp only [logCall, call_readInto s (h.window.lt hlt), readAlone, h.read hlt] at hs
    split_ifs at hs with hlen
    · cases hf : t.next? r f with
      | none =>
        simp only [hf, Option.map_none, Function.update_eq_self] at hs
        obtain ⟨rfl, rfl⟩ := Prod.mk.inj (Option.some.inj hs)
        exact ⟨t, .readNone hlen hf, h⟩
      | some n =>
        simp only [hf, Option.map_some] at hs
        obtain ⟨rfl, rfl⟩ := Prod.mk.inj (Option.some.inj hs)
        exact ⟨_, .readSome hlen hf (h.entry hf).2.2, h.mark rfl⟩
    · obtain ⟨rfl, rfl⟩ := Prod.mk.inj (Option.some.inj hs)
      exact ⟨t, .readLength hlen, h⟩
  | borrow r f =>
    simp only [logCall, call_tryAcquire s (h.window.lt hlt), h.read hlt] at hs
    cases hf : t.next? r f with
    | none =>
      simp only [hf, Option.map_none] at hs
      obtain ⟨rfl, rfl⟩ := Prod.mk.inj (Option.some.inj hs)
      exact ⟨t, .borrowNone hf, h⟩
    | some n =>
      obtain ⟨hpos, hw, he⟩ := h.entry hf
      have hn63 : n < 2 ^ 63 := by have := h.window.lt hlt (G.slot (n - 1)); omega
      simp only [hf, Option.map_some] at hs
      rw [call_release _ hn63, if_pos (by simp), Option.map_some] at hs
      obtain ⟨rfl, rfl⟩ := Prod.mk.inj (Option.some.inj hs)
      exact ⟨_, .borrowSome hf he, (h.mark rfl).borrowed hw⟩

/-- A call the log admits can be made. -/
theorem Tracks.enabled (h : s.Tracks t) (hlt : t.entries.length < 2 ^ 63) {c : LogCall G ι}
    {a : LogAnswer} {t' : Log G ι} (hs : t.Step c a t') : (s.logCall c).isSome := by
  cases hs with
  | write hb hlen => simp [logCall, h.idle hb, call_write, hlen, h.free]
  | writeLength hb hlen => simp [logCall, h.idle hb, call_write, hlen]
  | acquire hb => simp [logCall, h.idle hb, call_acquire, h.free]
  | fill hb => simp [logCall, (h.busy _ hb).1, call_fill]
  | commit hb => simp [logCall, (h.busy _ hb).1, call_commit]
  | reattach hb => simp [logCall, h.idle hb, call_reattach, decodeHeader_ok h.magic]
  | attachReader => rfl
  | readNone | readSome | readLength => rfl
  | borrowNone hf => simp [logCall, call_tryAcquire s (h.window.lt hlt), h.read hlt, hf]
  | @borrowSome r f n bytes hf he =>
    obtain ⟨hpos, hw, -⟩ := h.entry hf
    have hn63 : n < 2 ^ 63 := by have := h.window.lt hlt (G.slot (n - 1)); omega
    have hx : (⟨G.slot (n - 1), n⟩ : ReadHandle G).entrySeq < 2 ^ 63 := hn63
    simp [logCall, call_tryAcquire s (h.window.lt hlt), h.read hlt, hf, call_release _ hx]

/-- A call of the log takes nothing back. -/
theorem logCall_log {c : LogCall G ι} {a : LogAnswer} (h : s.logCall c = some (a, s')) :
    s.mem.log.length ≤ s'.mem.log.length := by
  cases c with
  | write data =>
    simp only [logCall] at h
    split_ifs at h
    cases h
    exact (Hist.writer_run_log _ _ _).length_le
  | acquire =>
    simp only [logCall] at h
    split_ifs at h
    cases h
    exact (Hist.writer_run_log _ _ _).length_le
  | fill j b =>
    simp only [logCall] at h
    split at h
    · obtain ⟨⟨a', s₁⟩, hc, he⟩ := Option.map_eq_some_iff.1 h
      cases he
      exact (call_log hc).length_le
    · cases h
  | commit =>
    simp only [logCall] at h
    split at h
    · split at h
      · cases h
        exact (call_log ‹_›).length_le
      · cases h
    · cases h
  | reattach =>
    simp only [logCall] at h
    split_ifs at h
    obtain ⟨⟨a', s₁⟩, hc, he⟩ := Option.map_eq_some_iff.1 h
    cases he
    exact (call_log hc).length_le
  | attachReader r =>
    cases h
    exact le_rfl
  | readInto r dst f =>
    cases h
    exact (congrArg _ (Hist.reader_run_log _ _)).ge
  | borrow r f =>
    simp only [logCall] at h
    split at h
    · cases h
      exact (call_log ‹_›).length_le
    · obtain ⟨⟨a', s₁⟩, hc, he⟩ := Option.map_eq_some_iff.1 h
      cases he
      exact (call_log ‹_›).length_le.trans (call_log hc).length_le
    · cases h

/-- Read on without an override until there is nothing newer, at most `fuel` times. -/
def drained (s : Session G ι) (r : ι) (dst : List UInt8) : ℕ → List (ℕ × List UInt8)
  | 0 => []
  | fuel + 1 => match s.call (.readInto r dst none) with
    | some (.readInto (.ok (some n)) bytes, t) => (n, bytes) :: drained t r dst fuel
    | _ => []

theorem Tracks.drained (hlt : t.entries.length < 2 ^ 63) (r : ι) {dst : List UInt8}
    (hdst : dst.length = G.payloadBytes) : ∀ (fuel : ℕ) (s : Session G ι) (t' : Log G ι),
    s.Tracks t' → t'.entries = t.entries → t'.oldest = t.oldest →
    s.drained r dst fuel = (drain t.oldest t.entries.length fuel (t'.marks r)).map
      fun n => (n, t.entries.getD (n - 1) [])
  | 0, _, _, _, _, _ => rfl
  | fuel + 1, s, t', h, he, ho => by
    have hlt' : t'.entries.length < 2 ^ 63 := by rw [he]; exact hlt
    have hnext : t'.next? r none = Concur.next? t.oldest t.entries.length (t'.marks r) := by
      simp [Log.next?, Log.mark, he, ho]
    unfold Session.drained drain
    simp only [call_readInto s (h.window.lt hlt'), hdst, if_true, readAlone, h.read hlt']
    rw [← hnext]
    cases hf : t'.next? r none with
    | none => rfl
    | some n =>
      have hb := (h.entry hf).2.2
      have hm : Tracks { s with readers := Function.update s.readers r ⟨n, G.slot (n - 1)⟩ }
          { t' with marks := Function.update t'.marks r n } := h.mark rfl
      have ih := Tracks.drained hlt r hdst fuel _ _ hm he ho
      simp only [Option.map_some, List.map_cons, ih, Function.update_self]
      rw [List.getD_eq_getElem?_getD, ← he, hb]
      rfl

/-- **A channel refines the bounded log.**  Every run of calls has the trace of a
    run of the specification, which ends with the same entries, the same bookmarks
    and the watermark at the number of entries; the session makes every call the
    specification admits; and draining a reader returns every surviving entry newer
    than its bookmark, once, in order. -/
theorem bounded_log {dtype : Dtype} {owner : ℕ} {tr : List (LogCall G ι × LogAnswer)}
    (h : Trace (fun s c a s' => s.logCall c = some (a, s')) (init G ι dtype owner) tr s)
    (hn : s.mem.log.length < 2 ^ 63 - 1) :
    ∃ t, Trace Log.Step Log.empty tr t ∧ s.mem.log = t.entries ∧
      s.mem.seg.hdr .lastEntrySeq = t.entries.length ∧
      (∀ r, (s.readers r).lastEntrySeq = t.marks r) ∧
      (∀ c a t', t.Step c a t' → (s.logCall c).isSome) ∧
      ∀ r dst, dst.length = G.payloadBytes → s.drained r dst t.entries.length =
        (List.range' (max (t.marks r + 1) t.oldest)
          (t.entries.length + 1 - max (t.marks r + 1) t.oldest)).map
            fun n => (n, t.entries.getD (n - 1) []) := by
  obtain ⟨t, ht, hT⟩ : ∃ t, Trace Log.Step Log.empty tr t ∧ s.Tracks t := by
    refine h.simulate (I := fun s => s.mem.log.length < 2 ^ 63 - 1) (Tracks.init dtype owner) ?_ ?_ hn
    · intro s c a s' hs hn'
      exact lt_of_le_of_lt (logCall_log hs) hn'
    · intro s t c a s' hT hs hn'
      have hle := logCall_log hs
      exact hT.step (by rw [← hT.log]; omega) hs hn'
  have hlt : t.entries.length < 2 ^ 63 := by
    rw [← hT.log]
    omega
  refine ⟨t, ht, hT.log, hT.last, hT.marks, fun c a t' => hT.enabled hlt, fun r dst hdst => ?_⟩
  rw [Tracks.drained hlt r hdst _ s t hT rfl rfl, drain_eq _ _ _ _ (by omega)]

/-- A ring of two is lapped: the reader is given entry 2 of three. -/
theorem bounded_log_lapped : ∃ (s : Session (.tiny 1) Unit) (tr : List (LogCall (.tiny 1) Unit × LogAnswer)),
    tr.map Prod.snd = [.write (.ok ()), .write (.ok ()), .write (.ok ()),
      .readInto (.ok (some 2)) (List.replicate 8 2)] ∧
    ∃ t, Trace Log.Step Log.empty tr t ∧ s.mem.log = t.entries := by
  have hrun : (record logCall (init (.tiny 1) Unit .u8 7)
      [.write (List.replicate 8 1), .write (List.replicate 8 2), .write (List.replicate 8 3),
        .readInto () (List.replicate 8 0) none]).map
          (fun q => (q.1.map Prod.snd, q.2.mem.log.length)) =
      some ([.write (.ok ()), .write (.ok ()), .write (.ok ()),
        .readInto (.ok (some 2)) (List.replicate 8 2)], 3) := by decide +kernel
  obtain ⟨⟨tr, s⟩, hr, he⟩ := Option.map_eq_some_iff.1 hrun
  obtain ⟨h₁, h₂⟩ := Prod.mk.inj he
  obtain ⟨t, ht, hlog, -⟩ := bounded_log (trace_of_record hr) (by rw [h₂]; norm_num)
  exact ⟨s, tr, h₁, t, ht, hlog⟩

end

/-- **An entry under construction hides the one it recycles**: in a ring of one, a
    reader with bookmark `0` is told that there is nothing to read although one
    entry has been published. -/
theorem building_hides : ∃ (s : Session (.tiny 0) Unit) (tr : List (LogCall (.tiny 0) Unit × LogAnswer)),
    Trace (fun s c a s' => s.logCall c = some (a, s')) (init (.tiny 0) Unit .u8 7) tr s ∧
    s.mem.log.length = 1 ∧ (s.readers ()).lastEntrySeq = 0 ∧
    (s.logCall (.readInto () (List.replicate 8 0) none)).map Prod.fst =
      some (.readInto (.ok none) (List.replicate 8 0)) := by
  have hrun : (record logCall (init (.tiny 0) Unit .u8 7)
      [.write (List.replicate 8 1), .acquire]).map (fun q => (q.2.mem.log.length,
        (q.2.readers ()).lastEntrySeq,
        (q.2.logCall (.readInto () (List.replicate 8 0) none)).map Prod.fst)) =
      some (1, 0, some (.readInto (.ok none) (List.replicate 8 0))) := by decide +kernel
  obtain ⟨⟨tr, s⟩, hr, he⟩ := Option.map_eq_some_iff.1 hrun
  simp only [Prod.mk.injEq] at he
  exact ⟨s, tr, trace_of_record hr, he⟩

end Session

end ZeroChannel
