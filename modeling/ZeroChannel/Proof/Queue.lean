/-
  A channel is a rotating queue.

  Listed from the writer's cursor on, the slots of a session are the cells of a queue
  (`Session.queue`), and each call does to the queue, and answers, what the
  specification says (`queue_step`), whatever readers hold and whatever is dropped
  uncommitted.
-/
import ZeroChannel.Queue
import ZeroChannel.Proof.Represents
import ZeroChannel.Proof.Ring
import ZeroChannel.Concur.Turn
import ZeroChannel.Concur.Trace

namespace ZeroChannel

open Concur

variable {G : Geometry} {ι : Type}

/-- The call, as one of the queue. -/
def Call.inQueue : Call G ι → QueueCall G ι
  | .write data => .write data
  | .acquire => .acquire
  | .fill _ j b => .fill j b
  | .commit _ => .commit
  | .abandon _ => .abandon
  | .reattach => .reattach
  | .attachReader r => .attachReader r
  | .readInto r dst f => .readInto r dst f
  | .tryAcquire r f => .tryAcquire r f
  | .release x => .release x.entrySeq

/-- The answer, as one of the queue; a handle shows the bytes of its slot. -/
def Answer.inQueue (m : Segment G) : Answer G → QueueAnswer
  | .write res => .write res
  | .acquire res => .acquire (res.map fun _ => ())
  | .commit seq => .commit seq
  | .readInto res dst => .readInto res dst
  | .tryAcquire x => .tryAcquire (x.map fun x => (x.entrySeq, x.asBytes m))
  | .done => .done

/-- Positions less than a lap from one another are the same slot only if they are equal. -/
theorem slot_inj {c k d : ℕ} (hk : k < G.entryCount) (hd : d < G.entryCount) :
    G.slot (c + k) = G.slot (c + d) ↔ k = d := by
  constructor
  · intro h
    rcases lt_trichotomy k d with hlt | heq | hgt
    · exact absurd h (slot_ne (by omega) (by omega))
    · exact heq
    · exact absurd h.symm (slot_ne (by omega) (by omega))
  · rintro rfl
    rfl

namespace Session

/-- An orderly call, with its answer as one of the queue. -/
def queueCall [DecidableEq ι] (s : Session G ι) (c : Call G ι) :
    Option (QueueAnswer × Session G ι) :=
  if s.orderly c then (s.call c).map fun r => (r.1.inQueue r.2.mem.seg, r.2) else none

/-! ## The queue of a session -/

/-- What a slot is used for. -/
def useAt (s : Session G ι) (i : Slot G) : Use :=
  if 0 < s.mem.seg.words i then .entry (s.mem.seg.words i).toNat
  else if s.mem.seg.words i < 0 then .held (s.mem.seg.words i).natAbs
  else if ⟨i⟩ ∈ s.writeHandles then .building else .free

def cellAt (s : Session G ι) (i : Slot G) : Cell G := ⟨s.useAt i, s.mem.seg.payload i⟩

/-- The cells from a position on. -/
def cellsFrom (s : Session G ι) (c : ℕ) : List (Cell G) :=
  turn G.entryCount (fun k => s.cellAt (G.slot k)) c

def queue (s : Session G ι) : Queue G ι :=
  ⟨s.cellsFrom s.writer.currentIndex.val, s.mem.log.length, fun r => (s.readers r).lastEntrySeq⟩

section
variable {s : Session G ι} {i : Slot G}

theorem isHeld_useAt : (s.useAt i).isHeld ↔ s.mem.seg.words i < 0 := by
  unfold useAt
  split_ifs <;> simp [Use.isHeld] <;> omega

theorem useAt_entry {n : ℕ} (hn : 0 < n) : s.useAt i = .entry n ↔ s.mem.seg.words i = n := by
  unfold useAt
  split_ifs <;> simp <;> omega

theorem useAt_held {n : ℕ} (hn : 0 < n) : s.useAt i = .held n ↔ s.mem.seg.words i = -(n : ℤ) := by
  unfold useAt
  split_ifs <;> simp <;> omega

theorem useAt_building :
    s.useAt i = .building ↔ s.mem.seg.words i = 0 ∧ ⟨i⟩ ∈ s.writeHandles := by
  unfold useAt
  split_ifs with h₁ h₂ h₃
  · simp; omega
  · simp; omega
  · simp [h₃]; omega
  · simp [h₃]

theorem cellsFrom_mod (s : Session G ι) (c : ℕ) :
    s.cellsFrom (c % G.entryCount) = s.cellsFrom c := by
  simp [cellsFrom, turn]

theorem mem_cellsFrom {c : Slot G} {x : Cell G} : x ∈ s.cellsFrom c.val ↔ ∃ i, s.cellAt i = x := by
  unfold cellsFrom
  rw [mem_turn]
  constructor
  · rintro ⟨k, -, rfl⟩
    exact ⟨_, rfl⟩
  · rintro ⟨i, rfl⟩
    obtain ⟨d, hd, rfl⟩ := slot_ahead c i
    exact ⟨d, hd, rfl⟩

/-- A change that the cells undergo one by one. -/
theorem cellsFrom_map {s' : Session G ι} {f : Cell G → Cell G}
    (h : ∀ i, s'.cellAt i = f (s.cellAt i)) (c : ℕ) : s'.cellsFrom c = (s.cellsFrom c).map f := by
  simp only [cellsFrom, turn, List.map_map]
  exact List.map_congr_left fun k _ => h _

/-- A cell is stored. -/
theorem cellsFrom_set {s s' : Session G ι} {c d : ℕ} {x : Cell G} (hd : d < G.entryCount)
    (h : ∀ i, s'.cellAt i = if i = G.slot (c + d) then x else s.cellAt i) :
    s'.cellsFrom c = (s.cellsFrom c).take d ++ x :: (s.cellsFrom c).drop (d + 1) := by
  refine turn_set hd fun k hk => ?_
  simp only [h, slot_inj hk hd]

/-- A cell is stored, and the cursor passes it. -/
theorem cellsFrom_pass {s s' : Session G ι} {c d : ℕ} {x : Cell G} (hd : d < G.entryCount)
    (h : ∀ i, s'.cellAt i = if i = G.slot (c + d) then x else s.cellAt i) :
    s'.cellsFrom (G.slot ((G.slot (c + d)).val + 1)).val =
      (s.cellsFrom c).drop (d + 1) ++ (s.cellsFrom c).take d ++ [x] := by
  rw [G.slot_val, cellsFrom_mod, G.slot_val]
  have hcursor : s'.cellsFrom ((c + d) % G.entryCount + 1) = s'.cellsFrom (c + d + 1) := by
    rw [← cellsFrom_mod, Nat.mod_add_mod, cellsFrom_mod]
  rw [hcursor]
  refine turn_pass hd (fun k hk => ?_) fun k => by rw [slot_add_count]
  simp only [h, slot_inj hk hd]

end

/-- What the slots say of the queue. -/
theorem useAt_congr {s s' : Session G ι} {i : Slot G}
    (hw : s'.mem.seg.words i = s.mem.seg.words i)
    (hh : ⟨i⟩ ∈ s'.writeHandles ↔ ⟨i⟩ ∈ s.writeHandles) : s'.useAt i = s.useAt i := by
  simp only [useAt, hw, hh]

/-- The next entry is published in the cell `d` places ahead of the cursor. -/
theorem queue_publish {s s' : Session G ι} {d : ℕ} {b : Block G} (hd : d < G.entryCount)
    (hw : ∀ j, s'.mem.seg.words j = if j = G.slot (s.writer.currentIndex.val + d) then
      ((s.mem.log.length + 1 : ℕ) : ℤ) else s.mem.seg.words j)
    (hb : s'.mem.seg.payload (G.slot (s.writer.currentIndex.val + d)) = b)
    (hpay : ∀ j ≠ G.slot (s.writer.currentIndex.val + d),
      s'.mem.seg.payload j = s.mem.seg.payload j)
    (hh : ∀ j ≠ G.slot (s.writer.currentIndex.val + d),
      ⟨j⟩ ∈ s'.writeHandles ↔ ⟨j⟩ ∈ s.writeHandles)
    (hcur : s'.writer.currentIndex =
      G.slot ((G.slot (s.writer.currentIndex.val + d)).val + 1))
    (hlog : s'.mem.log.length = s.mem.log.length + 1) (hread : s'.readers = s.readers) :
    s'.queue = s.queue.publish (s.queue.cells.take d) (s.queue.cells.drop (d + 1)) b := by
  have hcell : ∀ j, s'.cellAt j = if j = G.slot (s.writer.currentIndex.val + d) then
      ⟨.entry (s.mem.log.length + 1), b⟩ else s.cellAt j := by
    intro j
    split_ifs with hj
    · have huse : s'.useAt j = .entry (s.mem.log.length + 1) :=
        (useAt_entry (Nat.succ_pos _)).2 (by rw [hw, if_pos hj])
      rw [cellAt, huse, hj, hb]
    · rw [cellAt, cellAt, useAt_congr (by rw [hw, if_neg hj]) (hh j hj), hpay j hj]
  unfold queue Queue.publish
  dsimp only
  rw [hcur, cellsFrom_pass hd hcell, hlog, hread]

/-- The cells in one use change where they stand. -/
theorem queue_change (s s' : Session G ι) {u : Use} {f : Cell G → Cell G}
    (hcell : ∀ i, s'.cellAt i = if s.useAt i = u then f (s.cellAt i) else s.cellAt i)
    (hw : s'.writer = s.writer) (hlog : s'.mem.log = s.mem.log) :
    s'.queue = { s.queue.change u f with marks := fun r => (s'.readers r).lastEntrySeq } := by
  unfold queue Queue.change
  dsimp only
  rw [hw, hlog, cellsFrom_map (f := fun c => if c.use = u then f c else c) hcell]

namespace Represents
variable {s : Session G ι} (h : s.Represents)
include h

theorem ready_queue : s.queue.ready = s.writeHandles.isEmpty := by
  rw [Bool.eq_iff_iff, Queue.ready, List.all_eq_true, List.isEmpty_iff]
  constructor
  · intro hall
    rcases h.handle with hh | ⟨i, hh, hi⟩
    · exact hh
    · -- the slot handed out is a cell being built
      have hb : s.useAt i = .building :=
        useAt_building.2 ⟨hi, by rw [hh]; exact List.mem_singleton_self _⟩
      have := hall (s.cellAt i) (mem_cellsFrom.2 ⟨i, rfl⟩)
      simp [cellAt, hb] at this
  · intro hnil x hx
    obtain ⟨i, rfl⟩ := mem_cellsFrom.1 hx
    refine decide_eq_true fun hb => ?_
    have := (useAt_building.1 hb).2
    rw [hnil] at this
    cases this

omit h in
/-- The cell the writer takes. -/
theorem queue_free {i : Slot G}
    (hf : free? s.mem.seg.words s.writer.currentIndex.val G.entryCount = some i) :
    ∃ d < G.entryCount, i = G.slot (s.writer.currentIndex.val + d) ∧
      s.queue.skipped = s.queue.cells.take d ∧
      s.queue.ahead = s.cellAt i :: s.queue.cells.drop (d + 1) := by
  obtain ⟨d, hd, rfl, hw, hneg⟩ := free?_some hf
  let p : Cell G → Bool := fun c => c.use.isHeld
  have hp : ∀ e < d, p (s.cellAt (G.slot (s.writer.currentIndex.val + e))) :=
    fun e he => isHeld_useAt.2 (hneg e he)
  have hn : ¬ p (s.cellAt (G.slot (s.writer.currentIndex.val + d))) :=
    fun hheld => absurd (isHeld_useAt.1 hheld) (not_lt.2 hw)
  exact ⟨d, hd, rfl, takeWhile_turn (f := fun k => s.cellAt (G.slot k)) hp hd hn,
    dropWhile_turn (f := fun k => s.cellAt (G.slot k)) hp hd hn⟩

omit h in
/-- Every cell is held. -/
theorem queue_full
    (hf : free? s.mem.seg.words s.writer.currentIndex.val G.entryCount = none) :
    s.queue.ahead = [] :=
  dropWhile_turn_nil (f := fun k => s.cellAt (G.slot k))
    fun e he => isHeld_useAt.2 (free?_none hf e he)

omit h in
theorem mem_newer {w n : ℕ} {b : Block G} :
    (n, b) ∈ s.queue.cells.filterMap (Queue.newer w) ↔
      ∃ i, s.mem.seg.words i = n ∧ w < n ∧ s.mem.seg.payload i = b := by
  rw [List.mem_filterMap]
  constructor
  · rintro ⟨x, hx, hn⟩
    obtain ⟨i, rfl⟩ := mem_cellsFrom.1 hx
    simp only [Queue.newer, cellAt] at hn
    split at hn
    · rename_i m hm
      split_ifs at hn with hw
      simp only [Option.some.injEq, Prod.mk.injEq] at hn
      obtain ⟨rfl, rfl⟩ := hn
      exact ⟨i, (useAt_entry (by omega)).1 hm, hw, rfl⟩
    · cases hn
  · rintro ⟨i, hi, hw, rfl⟩
    have huse : s.useAt i = .entry n := (useAt_entry (by omega)).2 hi
    refine ⟨s.cellAt i, mem_cellsFrom.2 ⟨i, rfl⟩, ?_⟩
    simp only [Queue.newer, cellAt, huse, if_pos hw]

/-- **What a read finds** is the oldest entry of the queue. -/
theorem queue_next (r : ι) (f : Option ℕ) :
    s.queue.next? (f.getD (s.queue.marks r)) =
      ((gate (s.mem.seg.hdr .lastEntrySeq) (s.readers r) f).bind
        (located s.mem.seg.words (s.readers r))).map fun x => (x.2, s.mem.seg.payload x.1) := by
  have hmark : s.queue.marks r = (s.readers r).lastEntrySeq := rfl
  rw [hmark]
  generalize hw : f.getD (s.readers r).lastEntrySeq = w
  cases hl : (gate (s.mem.seg.hdr .lastEntrySeq) (s.readers r) f).bind
      (located s.mem.seg.words (s.readers r)) with
  | none =>
    -- no word is above the watermark
    have hall : ∀ i, s.mem.seg.words i ≤ w := by
      intro i
      by_cases hle : s.mem.seg.hdr .lastEntrySeq ≤ w
      · have := h.marked.le i
        rw [h.last] at hle
        omega
      · have hgate : gate (s.mem.seg.hdr .lastEntrySeq) (s.readers r) f = some w :=
          gate_some.2 ⟨hw.symm, not_le.1 hle⟩
        rw [hgate] at hl
        exact (located_none h.lt).1 hl i
    have hnil : s.queue.cells.filterMap (Queue.newer w) = [] := by
      refine List.eq_nil_iff_forall_not_mem.2 fun x hx => ?_
      obtain ⟨i, hi, hlt, -⟩ := mem_newer.1 hx
      have := hall i
      omega
    rw [Queue.next?, hnil]
    rfl
  | some x =>
    obtain ⟨i, n⟩ := x
    obtain ⟨w', hgate, hloc⟩ := Option.bind_eq_some_iff.1 hl
    obtain ⟨rfl, -⟩ := gate_some.1 hgate
    rw [hw] at hloc
    obtain ⟨hi, hlt, hmin⟩ := located_some h.lt hloc
    have hmem : (n, s.mem.seg.payload i) ∈ s.queue.cells.filterMap (Queue.newer w) :=
      mem_newer.2 ⟨i, hi, hlt, rfl⟩
    rw [Queue.next?, Option.map_some]
    cases ho : (s.queue.cells.filterMap (Queue.newer w)).argmin Prod.fst with
    | none =>
      rw [List.argmin_eq_none.1 ho] at hmem
      cases hmem
    | some y =>
      obtain ⟨m, b⟩ := y
      obtain ⟨j, hj, hjlt, rfl⟩ := mem_newer.1 (List.argmin_mem ho)
      have hle : m ≤ n := List.le_of_mem_argmin hmem ho
      have hge := hmin j (by omega)
      obtain rfl : m = n := by omega
      have hij : i = j := h.marked.inj i j (by omega) (by rw [hi, hj])
      rw [hij]

end Represents

/-! ## The calls -/

section
variable [DecidableEq ι] {s s' : Session G ι} (h : s.Represents)
include h

theorem queue_write {data : List UInt8} {a : Answer G} (hs : s.call (.write data) = some (a, s'))
    (hc : s.writeHandles.isEmpty) (hlog : s'.mem.log.length < 2 ^ 63) :
    s.queue.call (.write data) = some (a.inQueue s'.mem.seg, s'.queue) := by
  rw [call_write] at hs
  simp only [Queue.call]
  rw [if_pos (h.ready_queue.trans hc)]
  split_ifs at hs ⊢ with hlen
  · cases hf : free? s.mem.seg.words s.writer.currentIndex.val G.entryCount with
    | none =>
      rw [hf] at hs
      cases hs
      rw [Represents.queue_full hf]
      rfl
    | some i =>
      rw [hf] at hs
      cases hs
      obtain ⟨d, hd, rfl, hskip, hahead⟩ := Represents.queue_free hf
      have hn : s.mem.log.length + 1 < 2 ^ 63 := by simpa [Session.wrote] using hlog
      have hseq := h.seq hn
      have hq : (s.wrote (G.slot (s.writer.currentIndex.val + d)) data).queue =
          s.queue.publish (s.queue.cells.take d) (s.queue.cells.drop (d + 1)) (blockOf data) := by
        refine queue_publish hd (fun j => ?_) ?_ (fun j hj => ?_) (fun _ _ => Iff.rfl) rfl ?_ rfl
        · rw [wrote_words, hseq, asI64_of_lt hn]
        · simp [Session.wrote]
        · simp [Session.wrote, hj]
        · simp [Session.wrote]
      rw [hahead, hskip, hq]
      rfl
  · cases hs
    rfl

theorem queue_acquire {a : Answer G} (hs : s.call .acquire = some (a, s'))
    (hc : s.writeHandles.isEmpty) :
    s.queue.call .acquire = some (a.inQueue s'.mem.seg, s'.queue) := by
  have hnil := List.isEmpty_iff.1 hc
  rw [call_acquire] at hs
  simp only [Queue.call]
  rw [if_pos (h.ready_queue.trans hc)]
  cases hf : free? s.mem.seg.words s.writer.currentIndex.val G.entryCount with
  | none =>
    rw [hf] at hs
    cases hs
    rw [Represents.queue_full hf]
    rfl
  | some i =>
    rw [hf] at hs
    cases hs
    obtain ⟨d, hd, rfl, hskip, hahead⟩ := Represents.queue_free hf
    let i := G.slot (s.writer.currentIndex.val + d)
    have hcell : ∀ j, (s.acquired i).cellAt j =
        if j = i then ⟨.building, s.mem.seg.payload i⟩ else s.cellAt j := by
      intro j
      split_ifs with hj
      · have hb : (s.acquired i).useAt i = .building :=
          useAt_building.2 ⟨by rw [acquired_words, if_pos rfl], by simp [Session.acquired]⟩
        rw [cellAt, hj, hb]
        rfl
      · have hmem : (⟨j⟩ : WriteHandle G) ∈ (s.acquired i).writeHandles ↔ ⟨j⟩ ∈ s.writeHandles := by
          simp [Session.acquired, hnil, hj]
        rw [cellAt, cellAt, useAt_congr (by rw [acquired_words, if_neg hj]) hmem]
        rfl
    have hq : (s.acquired i).queue = { s.queue with
        cells := s.queue.cells.take d ++
          ⟨.building, s.mem.seg.payload i⟩ :: s.queue.cells.drop (d + 1) } :=
      congrArg (fun cells => Queue.mk cells _ _) (cellsFrom_set hd hcell)
    rw [hahead, hskip]
    exact congrArg (fun q => some (QueueAnswer.acquire (.ok ()), q)) hq.symm

omit [DecidableEq ι] in
/-- The slot handed out is the cell being built. -/
theorem building_iff {x : WriteHandle G} (hx : x ∈ s.writeHandles) {i : Slot G} :
    s.useAt i = .building ↔ i = x.index := by
  rw [useAt_building]
  rcases h.handle with hh | ⟨k, hh, hk⟩
  · rw [hh] at hx
    cases hx
  · rw [hh] at hx ⊢
    obtain rfl := List.mem_singleton.1 hx
    constructor
    · rintro ⟨-, hi⟩
      exact congrArg WriteHandle.index (List.mem_singleton.1 hi)
    · rintro rfl
      exact ⟨hk, List.mem_singleton_self _⟩

omit [DecidableEq ι] in
theorem not_ready {x : WriteHandle G} (hx : x ∈ s.writeHandles) : s.queue.ready = false := by
  rw [h.ready_queue]
  exact List.isEmpty_eq_false_iff.2 (List.ne_nil_of_mem hx)

theorem queue_fill {x : WriteHandle G} {j : Fin G.payloadBytes} {b : UInt8} {a : Answer G}
    (hs : s.call (.fill x j b) = some (a, s')) :
    s.queue.call (.fill j b) = some (a.inQueue s'.mem.seg, s'.queue) := by
  rw [call_fill] at hs
  split_ifs at hs with hx
  cases hs
  have hq : (s.filled x j b).queue = s.queue.change .building fun c =>
      { c with payload := Function.update c.payload j b } := by
    refine queue_change s _ (fun i => ?_) rfl rfl
    rw [cellAt, useAt_congr rfl Iff.rfl]
    split_ifs with hi
    · obtain rfl := (building_iff h hx).1 hi
      exact congrArg (Cell.mk _) (Function.update_self ..)
    · have hi' : i ≠ x.index := fun e => hi ((building_iff h hx).2 e)
      exact congrArg (Cell.mk _) (Segment.setByte_ne _ hi' _ _)
  simp only [Queue.call, not_ready h hx, hq]
  rfl

theorem queue_abandon {x : WriteHandle G} {a : Answer G}
    (hs : s.call (.abandon x) = some (a, s')) :
    s.queue.call .abandon = some (a.inQueue s'.mem.seg, s'.queue) := by
  simp only [call] at hs
  split_ifs at hs with hx
  cases hs
  have hq : queue { s with writeHandles := s.writeHandles.erase x } =
      s.queue.change .building fun c => { c with use := .free } := by
    refine queue_change s _ (fun i => ?_) rfl rfl
    split_ifs with hi
    · obtain rfl := (building_iff h hx).1 hi
      obtain ⟨hw, -⟩ := useAt_building.1 hi
      have hgone : (⟨x.index⟩ : WriteHandle G) ∉ s.writeHandles.erase x := by
        rcases h.handle with hh | ⟨k, hh, -⟩
        · simp [hh]
        · rw [hh] at hx ⊢
          obtain rfl := List.mem_singleton.1 hx
          simp
      simp [cellAt, useAt, hw, hgone]
    · have hi' : (⟨i⟩ : WriteHandle G) ≠ x := by
        rintro rfl
        exact hi ((building_iff h hx).2 rfl)
      exact congrArg (Cell.mk · _) (useAt_congr rfl (List.mem_erase_of_ne hi'))
  simp only [Queue.call, not_ready h hx, hq]
  rfl

theorem queue_commit {x : WriteHandle G} {a : Answer G} (hs : s.call (.commit x) = some (a, s'))
    (hlog : s'.mem.log.length < 2 ^ 63) :
    s.queue.call .commit = some (a.inQueue s'.mem.seg, s'.queue) := by
  rw [call_commit] at hs
  split_ifs at hs with hx
  cases hs
  have hn : s.mem.log.length + 1 < 2 ^ 63 := by simpa [Session.committed] using hlog
  have hseq := h.seq hn
  obtain ⟨d, hd, hxd⟩ := slot_ahead s.writer.currentIndex x.index
  -- the cell being built is `d` places ahead of the cursor
  let p : Cell G → Bool := fun c => c.use ≠ .building
  have hp : ∀ e < d, p (s.cellAt (G.slot (s.writer.currentIndex.val + e))) := by
    refine fun e he => decide_eq_true fun hb => ?_
    have := (building_iff h hx).1 hb
    rw [hxd, slot_inj (he.trans hd) hd] at this
    omega
  have hpd : ¬ p (s.cellAt (G.slot (s.writer.currentIndex.val + d))) := by
    rw [← hxd]
    exact fun hb => of_decide_eq_true hb ((building_iff h hx).2 rfl)
  have hbefore : s.queue.cells.takeWhile p = s.queue.cells.take d :=
    takeWhile_turn (f := fun k => s.cellAt (G.slot k)) hp hd hpd
  have hrest : s.queue.cells.dropWhile p = s.cellAt x.index :: s.queue.cells.drop (d + 1) := by
    rw [hxd]
    exact dropWhile_turn (f := fun k => s.cellAt (G.slot k)) hp hd hpd
  have hq : (s.committed x).queue = s.queue.publish (s.queue.cells.take d)
      (s.queue.cells.drop (d + 1)) (s.mem.seg.payload x.index) := by
    refine queue_publish hd (fun j => ?_) ?_ (fun _ _ => rfl) (fun j hj => ?_) ?_ ?_ rfl
    · rw [← hxd, ← asI64_of_lt hn, ← hseq]
      exact Hist.published_words _ _ _ _ j
    · rw [← hxd]
      rfl
    · refine List.mem_erase_of_ne ?_
      rintro rfl
      exact hj hxd
    · rw [← hxd]
      rfl
    · simp [Session.committed]
  have hanswer : u64 (s.writer.lastEntrySeq + 1) = s.queue.published + 1 := hseq
  simp only [Queue.call]
  rw [hrest, hbefore, hq, hanswer]
  rfl

theorem queue_reattach {a : Answer G} (hs : s.call .reattach = some (a, s'))
    (hc : s.writeHandles.isEmpty) :
    s.queue.call .reattach = some (a.inQueue s'.mem.seg, s'.queue) := by
  have hstep : s.step .reattach = some s' := by rw [Session.step, hs]; rfl
  rw [h.reattach hstep]
  rw [call_reattach, decodeHeader_ok h.magic] at hs
  cases hs
  simp only [Queue.call]
  rw [if_pos (h.ready_queue.trans hc)]
  rfl

omit h in
theorem queue_attachReader {r : ι} {a : Answer G} (hs : s.call (.attachReader r) = some (a, s')) :
    s.queue.call (.attachReader r) = some (a.inQueue s'.mem.seg, s'.queue) := by
  cases hs
  have hmarks : (fun r' => (Function.update s.readers r .attach r').lastEntrySeq) =
      Function.update s.queue.marks r 0 :=
    Function.comp_update RawReader.lastEntrySeq s.readers r .attach
  exact congrArg (fun marks => some (QueueAnswer.done, Queue.mk _ _ marks)) hmarks.symm

theorem queue_readInto {r : ι} {dst : List UInt8} {f : Option ℕ} {a : Answer G}
    (hs : s.call (.readInto r dst f) = some (a, s')) :
    s.queue.call (.readInto r dst f) = some (a.inQueue s'.mem.seg, s'.queue) := by
  rw [call_readInto s h.lt] at hs
  simp only [Queue.call, h.queue_next]
  split_ifs at hs ⊢
  · unfold readAlone at hs
    rcases hl : (gate (s.mem.seg.hdr .lastEntrySeq) (s.readers r) f).bind
      (located s.mem.seg.words (s.readers r)) with _ | ⟨i, n⟩
    · simp only [hl, Function.update_eq_self] at hs
      cases hs
      rfl
    · simp only [hl] at hs
      cases hs
      have hmarks : (fun r' => (Function.update s.readers r ⟨n, i⟩ r').lastEntrySeq) =
          Function.update s.queue.marks r n :=
        Function.comp_update RawReader.lastEntrySeq s.readers r ⟨n, i⟩
      exact congrArg (fun marks => some (QueueAnswer.readInto (.ok (some n)) _,
        Queue.mk _ _ marks)) hmarks.symm
  · cases hs
    rfl

theorem queue_tryAcquire {r : ι} {f : Option ℕ} {a : Answer G}
    (hs : s.call (.tryAcquire r f) = some (a, s')) :
    s.queue.call (.tryAcquire r f) = some (a.inQueue s'.mem.seg, s'.queue) := by
  rw [call_tryAcquire s h.lt] at hs
  simp only [Queue.call, h.queue_next]
  rcases hl : (gate (s.mem.seg.hdr .lastEntrySeq) (s.readers r) f).bind
    (located s.mem.seg.words (s.readers r)) with _ | ⟨i, n⟩ <;> rw [hl] at hs
  · cases hs
    rfl
  · cases hs
    obtain ⟨w, -, hloc⟩ := Option.bind_eq_some_iff.1 hl
    obtain ⟨hi, hlt, -⟩ := located_some h.lt hloc
    have hn : 0 < n := by omega
    have hq : queue { s with
        mem := s.mem.pinned ⟨i, n⟩, readers := Function.update s.readers r ⟨n, i⟩,
        readHandles := s.readHandles ++ [⟨i, n⟩] } =
        { s.queue.change (.entry n) fun c => { c with use := .held n } with
          marks := Function.update s.queue.marks r n } := by
      refine (queue_change s { s with
        mem := s.mem.pinned ⟨i, n⟩, readers := Function.update s.readers r ⟨n, i⟩,
        readHandles := s.readHandles ++ [⟨i, n⟩] } (u := .entry n)
        (f := fun c => { c with use := .held n }) (fun j => ?_) rfl rfl).trans ?_
      · -- the number stands in one slot only
        split_ifs with hj
        · have hj := (useAt_entry hn).1 hj
          have hji : j = i := h.marked.inj j i (by omega) (by rw [hi, hj])
          exact congrArg (Cell.mk · _) ((useAt_held hn).2 (by simp [hji]))
        · have hji : j ≠ i := by
            rintro rfl
            exact hj ((useAt_entry hn).2 hi)
          exact congrArg (Cell.mk · _) (useAt_congr (by simp [hji]) Iff.rfl)
      · exact congrArg (Queue.mk _ _)
          (Function.comp_update RawReader.lastEntrySeq s.readers r ⟨n, i⟩)
    rw [hq]
    rfl

theorem queue_release {x : ReadHandle G} {a : Answer G}
    (hs : s.call (.release x) = some (a, s')) :
    s.queue.call (.release x.entrySeq) = some (a.inQueue s'.mem.seg, s'.queue) := by
  by_cases hx : x ∈ s.readHandles
  · obtain ⟨hn, hlt, hw⟩ := h.pin x hx
    rw [call_release s hlt, if_pos hx] at hs
    cases hs
    have hheld : ∃ c ∈ s.queue.cells, c.use = .held x.entrySeq :=
      ⟨s.cellAt x.index, mem_cellsFrom.2 ⟨_, rfl⟩, (useAt_held hn).2 hw⟩
    have hq : queue { s with mem := s.mem.released x, readHandles := s.readHandles.erase x } =
        s.queue.change (.held x.entrySeq) fun c => { c with use := .entry x.entrySeq } := by
      refine queue_change s _ (fun j => ?_) rfl rfl
      split_ifs with hj
      · have hj := (useAt_held hn).1 hj
        have hjx : j = x.index := h.marked.inj j x.index (by omega) (by rw [hj, hw])
        exact congrArg (Cell.mk · _) ((useAt_entry hn).2 (by simp [hjx]))
      · have hjx : j ≠ x.index := by
          rintro rfl
          exact hj ((useAt_held hn).2 hw)
        exact congrArg (Cell.mk · _) (useAt_congr (by simp [hjx]) Iff.rfl)
    simp only [Queue.call]
    rw [if_pos hheld, hq]
    rfl
  · simp [call, hx] at hs

/-- **One call.** -/
theorem queue_step {c : Call G ι} {a : Answer G} (hs : s.call c = some (a, s')) (hc : s.orderly c)
    (hlog : s'.mem.log.length < 2 ^ 63) :
    s.queue.call c.inQueue = some (a.inQueue s'.mem.seg, s'.queue) := by
  cases c with
  | write data => exact queue_write h hs hc hlog
  | acquire => exact queue_acquire h hs hc
  | fill x j b => exact queue_fill h hs
  | commit x => exact queue_commit h hs hlog
  | abandon x => exact queue_abandon h hs
  | reattach => exact queue_reattach h hs hc
  | attachReader r => exact queue_attachReader hs
  | readInto r dst f => exact queue_readInto h hs
  | tryAcquire r f => exact queue_tryAcquire h hs
  | release x => exact queue_release h hs

/-- The session makes every call that the queue admits. -/
theorem queue_enabled {c : QueueCall G ι} (hc : (s.queue.call c).isSome) :
    ∃ c₀ : Call G ι, c₀.inQueue = c ∧ s.orderly c₀ ∧ (s.call c₀).isSome := by
  have hready : s.queue.ready → s.writeHandles.isEmpty := fun hr => h.ready_queue.symm.trans hr
  -- while a cell is being built its slot is handed out
  have hbuilding : s.queue.ready = false → ∃ x, x ∈ s.writeHandles := by
    intro hr
    rw [h.ready_queue] at hr
    exact List.exists_mem_of_ne_nil _ (List.isEmpty_eq_false_iff.1 hr)
  cases c with
  | write data =>
    have hr : s.queue.ready := by
      by_contra hr
      simp [Queue.call, hr] at hc
    exact ⟨.write data, rfl, hready hr, rfl⟩
  | acquire =>
    have hr : s.queue.ready := by
      by_contra hr
      simp [Queue.call, hr] at hc
    exact ⟨.acquire, rfl, hready hr, rfl⟩
  | fill j b =>
    have hr : s.queue.ready = false := by
      by_contra hr
      simp [Queue.call, hr] at hc
    obtain ⟨x, hx⟩ := hbuilding hr
    exact ⟨.fill x j b, rfl, rfl, by simp [call_fill, hx]⟩
  | commit =>
    have hr : s.queue.ready = false := by
      refine Bool.eq_false_iff.2 fun hr => ?_
      have hnil : (s.queue.cells.dropWhile fun c => c.use ≠ .building) = [] :=
        List.dropWhile_eq_nil_iff.2 (List.all_eq_true.1 hr)
      simp only [Queue.call] at hc
      rw [hnil] at hc
      cases hc
    obtain ⟨x, hx⟩ := hbuilding hr
    exact ⟨.commit x, rfl, rfl, by simp [call_commit, hx]⟩
  | abandon =>
    have hr : s.queue.ready = false := by
      by_contra hr
      simp [Queue.call, hr] at hc
    obtain ⟨x, hx⟩ := hbuilding hr
    exact ⟨.abandon x, rfl, rfl, by simp [call, hx]⟩
  | reattach =>
    have hr : s.queue.ready := by
      by_contra hr
      simp [Queue.call, hr] at hc
    exact ⟨.reattach, rfl, hready hr, by rw [call_reattach, decodeHeader_ok h.magic]; rfl⟩
  | attachReader r => exact ⟨.attachReader r, rfl, rfl, rfl⟩
  | readInto r dst f => exact ⟨.readInto r dst f, rfl, rfl, rfl⟩
  | tryAcquire r f => exact ⟨.tryAcquire r f, rfl, rfl, rfl⟩
  | release n =>
    have hheld : ∃ c ∈ s.queue.cells, c.use = .held n := by
      by_contra hheld
      simp [Queue.call, hheld] at hc
    obtain ⟨y, hy, hyn⟩ := hheld
    obtain ⟨i, rfl⟩ := mem_cellsFrom.1 hy
    -- a held cell is in the hands of a reader
    have hneg : s.mem.seg.words i < 0 := isHeld_useAt.1 (by rw [show s.useAt i = _ from hyn]; rfl)
    obtain ⟨x, hx, rfl⟩ := h.neg i hneg
    obtain ⟨hn, -, hw⟩ := h.pin x hx
    have huse : s.useAt x.index = .held x.entrySeq := (useAt_held hn).2 hw
    have hxn : x.entrySeq = n := Use.held.inj (huse.symm.trans hyn)
    refine ⟨.release x, congrArg _ hxn, rfl, ?_⟩
    simp only [call, if_pos hx]
    rfl

/-- A call publishes at most one entry. -/
theorem log_succ {c : Call G ι} (hs : s.step c = some s') :
    s'.mem.log.length ≤ s.mem.log.length + 1 := by
  cases step_effect h.toPinned hs with
  | write => simp [Session.wrote]
  | commit => simp [Session.committed]
  | _ => exact Nat.le_succ _

end

section
variable [DecidableEq ι] {s : Session G ι}

theorem queueCall_some {s' : Session G ι} {c : Call G ι} {a : QueueAnswer} :
    s.queueCall c = some (a, s') ↔
      s.orderly c ∧ ∃ a₀, s.call c = some (a₀, s') ∧ a₀.inQueue s'.mem.seg = a := by
  unfold queueCall
  constructor
  · intro h
    split_ifs at h with hc
    obtain ⟨⟨a₀, t⟩, hs, he⟩ := Option.map_eq_some_iff.1 h
    cases he
    exact ⟨hc, a₀, hs, rfl⟩
  · rintro ⟨hc, a₀, hs, rfl⟩
    rw [if_pos hc, hs]
    rfl

omit [DecidableEq ι] in
theorem queue_init (dtype : Dtype) (owner : ℕ) :
    (init G ι dtype owner).queue = Queue.empty G ι := by
  have hcell : ∀ i, (init G ι dtype owner).cellAt i = ⟨.free, fun _ => 0⟩ := fun _ => rfl
  have hcells : ∀ c, (init G ι dtype owner).cellsFrom c =
      List.replicate G.entryCount ⟨.free, fun _ => 0⟩ := by
    intro c
    simp only [cellsFrom, turn, hcell]
    exact List.map_const' .. |>.trans (by rw [List.length_range])
  exact congrArg (fun cells => Queue.mk cells 0 fun _ => 0) (hcells _)

/-- **A channel is a rotating queue.**  Every run of orderly calls is, answer for
    answer, a run of the queue, and the session makes every call that the queue admits. -/
theorem rotating_queue {dtype : Dtype} {owner : ℕ} {tr : List (Call G ι × QueueAnswer)}
    (h : Trace (fun s c a s' => s.queueCall c = some (a, s')) (init G ι dtype owner) tr s)
    (hn : s.mem.log.length < 2 ^ 63 - 1) :
    Trace (fun q c a q' => q.call (Call.inQueue c) = some (a, q')) (Queue.empty G ι) tr s.queue ∧
    ∀ c a q, s.queue.call c = some (a, q) →
      ∃ c₀ s', Call.inQueue c₀ = c ∧ s.queueCall c₀ = some (a, s') ∧ s'.queue = q := by
  obtain ⟨q, hq, hR, rfl⟩ : ∃ q : Queue G ι,
      Trace (fun q c a q' => q.call (Call.inQueue c) = some (a, q')) (Queue.empty G ι) tr q ∧
        s.Represents ∧ s.queue = q := by
    refine h.simulate (R := fun s q => s.Represents ∧ s.queue = q)
      (I := fun s => s.mem.log.length < 2 ^ 63 - 1) ⟨.init dtype owner, queue_init dtype owner⟩
      ?_ ?_ hn
    · intro s c a s' hs hn'
      obtain ⟨-, a₀, hs, -⟩ := queueCall_some.1 hs
      exact lt_of_le_of_lt (call_log hs).length_le hn'
    · rintro s q c a s' ⟨hR, rfl⟩ hs hn'
      obtain ⟨hc, a₀, hcall, rfl⟩ := queueCall_some.1 hs
      have hlog : s'.mem.log.length < 2 ^ 63 := by omega
      have hstep : s.step c = some s' := by rw [Session.step, hcall]; rfl
      exact ⟨s'.queue, queue_step hR hcall hc hlog, hR.step hstep hc hlog, rfl⟩
  refine ⟨hq, fun c a q hcall => ?_⟩
  obtain ⟨c₀, rfl, hc, hsome⟩ := queue_enabled hR (c := c) (by rw [hcall]; rfl)
  obtain ⟨⟨a₀, s'⟩, hs⟩ := Option.isSome_iff_exists.1 hsome
  have hstep : s.step c₀ = some s' := by rw [Session.step, hs]; rfl
  have hlog := log_succ hR hstep
  -- the queue answers what the session answers
  have heq := queue_step hR hs hc (by omega)
  rw [hcall] at heq
  cases heq
  exact ⟨c₀, s', rfl, queueCall_some.2 ⟨hc, a₀, hs, rfl⟩, rfl⟩

/-- Entry 2 is held while the writer goes round: it is skipped, and entry 3 is the
    oldest one left when it is let go. -/
theorem rotating_queue_held : ∃ (s : Session (.tiny 2) Unit)
    (tr : List (Call (.tiny 2) Unit × QueueAnswer)),
    tr.map Prod.snd = [.write (.ok ()), .write (.ok ()),
      .tryAcquire (some (2, List.replicate 8 2)), .write (.ok ()), .write (.ok ()), .done] ∧
    Trace (fun q c a q' => q.call (Call.inQueue c) = some (a, q')) (Queue.empty _ _) tr s.queue ∧
    s.queue.cells.map (fun c => c.use) = [.entry 2, .entry 3, .entry 4] := by
  have hrun : (record queueCall (init (.tiny 2) Unit .u8 7)
      [.write (List.replicate 8 1), .write (List.replicate 8 2), .tryAcquire () (some 1),
        .write (List.replicate 8 3), .write (List.replicate 8 4),
        .release ⟨Geometry.slot _ 1, 2⟩]).map
          (fun q => (q.1.map Prod.snd, q.2.mem.log.length, q.2.queue.cells.map (fun c => c.use))) =
      some ([.write (.ok ()), .write (.ok ()), .tryAcquire (some (2, List.replicate 8 2)),
        .write (.ok ()), .write (.ok ()), .done], 4, [.entry 2, .entry 3, .entry 4]) := by
    decide +kernel
  obtain ⟨⟨tr, s⟩, hr, he⟩ := Option.map_eq_some_iff.1 hrun
  simp only [Prod.mk.injEq] at he
  obtain ⟨h₁, h₂, h₃⟩ := he
  exact ⟨s, tr, h₁, (rotating_queue (trace_of_record hr) (by rw [h₂]; norm_num)).1, h₃⟩

end

end Session

end ZeroChannel
