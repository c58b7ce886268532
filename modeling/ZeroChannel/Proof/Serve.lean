/-
  The calls of a connected end.

  An end works on the bytes of its segment.  As long as these hold a session in which the
  end has its place, a call does to the session what the queue is asked for
  (`serve_writer`, `serve_reader`), and gives the queue's answer.
-/
import ZeroChannel.Directory
import ZeroChannel.Proof.Queue
import ZeroChannel.Proof.Bytes

namespace ZeroChannel

open Concur

variable {G : Geometry} {ι α : Type}

/-! ## Programs on the bytes -/

theorem ringExec_reads : Reads (Region.decode G) (Region.ringExec G) :=
  ⟨fun i r => by simp only [Region.ringExec, Region.decode_words], fun _ _ _ => rfl, fun _ _ => rfl⟩

/-- Decoding commutes with a program that stores machine integers. -/
theorem Region.Fits.run_bytes {r : Region} (hf : r.Fits G) {Q : α → Region → Prop}
    {p : SegProg G α} (hp : Valid (Region.ringExec G) (onBytes G) Q p r) :
    (p.run (Region.ringExec G) r).1 = (p.run Segment.exec (r.decode G)).1 ∧
      (p.run (Region.ringExec G) r).2.Fits G ∧
      (p.run (Region.ringExec G) r).2.decode G = (p.run Segment.exec (r.decode G)).2 := by
  induction p generalizing r with
  | pure a => exact ⟨rfl, hf, rfl⟩
  | op o k ih =>
    obtain ⟨⟨ho, hl, -⟩, hk⟩ := hp r rfl trivial
    obtain ⟨ha, hm⟩ := hf.exec_decode ho
    rw [Prog.run_op, Prog.run_op, ← ha, ← hm]
    exact ih _ (hf.of_len hl) hk

theorem reader_run_seg (p : SegProg G α) (h : Hist G) : p.run Segment.exec h.seg =
    ((p.run Hist.readerExec h).1, (p.run Hist.readerExec h).2.seg) := by
  induction p generalizing h with
  | pure a => rfl
  | op o k ih =>
    have ho : Segment.exec o h.seg = ((Hist.readerExec o h).1, (Hist.readerExec o h).2.seg) := by
      cases o with
      | casSeq i old new =>
        simp only [Hist.readerExec, Segment.exec]
        split_ifs <;> rfl
      | _ => rfl
    simp only [Prog.run_op, ho, ih]

section
variable {r : Region} {h : Hist G} (hs : Stores r h) {p : SegProg G α}
include hs

theorem Stores.writer (data : List UInt8) (hp : p.All SegOp.Ranged) :
    (p.run (Region.ringExec G) r).1 = (p.run (Hist.writerExec data) h).1 ∧
      Stores (p.run (Region.ringExec G) r).2 (p.run (Hist.writerExec data) h).2 := by
  obtain ⟨ha, hf, hd⟩ := hs.1.run_bytes (ranged_valid hp r)
  rw [hs.2, writer_run_seg data p h] at ha hd
  exact ⟨ha, hf, hd⟩

theorem Stores.reader {Q : α → Region → Prop}
    (hp : Valid (Region.ringExec G) (onBytes G) Q p r) :
    (p.run (Region.ringExec G) r).1 = (p.run Hist.readerExec h).1 ∧
      Stores (p.run (Region.ringExec G) r).2 (p.run Hist.readerExec h).2 := by
  obtain ⟨ha, hf, hd⟩ := hs.1.run_bytes hp
  rw [hs.2, reader_run_seg p h] at ha hd
  exact ⟨ha, hf, hd⟩

end

/-! ## What a call leaves -/

namespace Session

/-- The words of the header that a session changes. -/
theorem call_hdr [DecidableEq ι] {s s' : Session G ι} {c : Call G ι} (h : s.Pinned)
    (hs : s.step c = some s') {w : HeaderWord} (hi : w ≠ .writeIndex) (hl : w ≠ .lastEntrySeq) :
    s'.mem.seg.hdr w = s.mem.seg.hdr w := by
  have hpub : ∀ (m : Hist G) i seq data, (m.published i seq data).seg.hdr w = m.seg.hdr w := by
    intro m i seq data
    simp only [Hist.published, Hist.advertised, Hist.indexed, Hist.stored, Hist.put_seg]
    rw [Segment.setHdr_ne _ hl, Segment.setHdr_ne _ hi, Segment.setWord_hdr]
  cases step_effect h hs with
  | write => exact hpub _ _ _ _
  | commit => exact hpub _ _ _ _
  | _ => rfl

/-- The session goes on, and the header keeps what is not the writer's. -/
structure Goes (s s' : Session G ι) : Prop where
  rep : s'.Represents
  hdr : ∀ w, w ≠ .writeIndex → w ≠ .lastEntrySeq → s'.mem.seg.hdr w = s.mem.seg.hdr w

section
variable [DecidableEq ι] {s s' : Session G ι} (h : s.Represents)
include h

theorem goes {c : Call G ι} {a : Answer G} (hs : s.call c = some (a, s')) (hc : s.orderly c)
    (hlog : s.mem.log.length < 2 ^ 63 - 1) :
    s.Goes s' ∧ s.queue.call c.inQueue = some (a.inQueue s'.mem.seg, s'.queue) := by
  have hstep : s.step c = some s' := by rw [Session.step, hs]; rfl
  have hsucc := log_succ h hstep
  exact ⟨⟨h.step hstep hc (by omega), fun w => call_hdr h.toPinned hstep⟩,
    queue_step h hs hc (by omega)⟩

/-- The queue refuses what the session refuses. -/
theorem queue_none {c : QueueCall G ι} (hc : ∀ c₀ : Call G ι, c₀.inQueue = c → s.call c₀ = none) :
    s.queue.call c = none := by
  by_contra hne
  obtain ⟨c₀, hc₀, -, hsome⟩ := queue_enabled h (Option.isSome_iff_ne_none.2 hne)
  rw [hc c₀ hc₀] at hsome
  cases hsome

omit [DecidableEq ι] in
theorem goes_refl : s.Goes s := ⟨h, fun _ _ _ => rfl⟩

omit [DecidableEq ι] in
/-- An entry that is held. -/
theorem bytesAt_held {x : ReadHandle G} (hx : x ∈ s.readHandles) :
    s.queue.bytesAt (.held x.entrySeq) = x.asBytes s.mem.seg := by
  obtain ⟨hn, -, hw⟩ := h.pin x hx
  have hfind : s.queue.cells.find? (fun c => c.use = .held x.entrySeq) = some (s.cellAt x.index) := by
    cases hf : s.queue.cells.find? (fun c => c.use = .held x.entrySeq) with
    | none =>
      have hmem : s.cellAt x.index ∈ s.queue.cells := mem_cellsFrom.2 ⟨_, rfl⟩
      have := List.find?_eq_none.1 hf _ hmem
      exact absurd (decide_eq_true ((useAt_held hn).2 hw)) this
    | some y =>
      obtain ⟨i, rfl⟩ := mem_cellsFrom.1 (List.mem_of_find?_eq_some hf)
      have huse := List.find?_some hf
      have hi := (useAt_held hn).1 (of_decide_eq_true huse)
      rw [h.marked.inj i x.index (by omega) (by rw [hi, hw])]
  unfold Queue.bytesAt
  rw [hfind]
  rfl

end

end Session

/-! ## The writer -/

section
variable {E : Type} [DecidableEq E] {l : Line E} {s : Session l.geometry E} {r : Region}

/-- The slots handed out. -/
def Session.slots (s : Session G ι) : List ℕ := s.writeHandles.map fun x => x.index.val

/-- A call of the writer has been served, on the bytes and in the queue. -/
structure ServedWriter (l : Line E) (s : Session l.geometry E) (held : List ℕ) (r : Region)
    (prog : SegProg l.geometry (PortAnswer × RawWriter l.geometry × List ℕ))
    (x : PortAnswer × Queue l.geometry E × List ℕ) (s' : Session l.geometry E) : Prop where
  goes : s.Goes s'
  answer : (prog.run (Region.ringExec _) r).1 = (x.1, s'.writer, s'.slots)
  stores : Stores (prog.run (Region.ringExec _) r).2 s'.mem
  queue : x.2 = (s'.queue, held)
  readers : s'.readers = s.readers
  handles : s'.readHandles = s.readHandles

/-- A call of the writer that runs the program `p`. -/
theorem served_writer (h : s.Represents) (hq : s.queue = l.queue) (hs : Stores r s.mem)
    (hlog : s.mem.log.length < 2 ^ 63 - 1) {held : List ℕ} {c : Call l.geometry E}
    {a : Answer l.geometry} {s' : Session l.geometry E} (hc : s.orderly c)
    (hcall : s.call c = some (a, s')) {β : Type} {p : SegProg l.geometry β} (data : List UInt8)
    {k : β → SegProg l.geometry (PortAnswer × RawWriter l.geometry × List ℕ)}
    (hp : p.All SegOp.Ranged) (hmem : s'.mem = (p.run (Hist.writerExec data) s.mem).2)
    (hk : k (p.run (Hist.writerExec data) s.mem).1 =
      pure ((a.inQueue s'.mem.seg).toPort, s'.writer, s'.slots))
    (hreaders : s'.readers = s.readers) (hhandles : s'.readHandles = s.readHandles) :
    Option.Rel (fun prog x => ∃ s', ServedWriter l s held r prog x s') (some (p >>= k))
      ((l.queue.call c.inQueue).map fun x => (x.1.toPort, x.2, held)) := by
  obtain ⟨ha, hr⟩ := hs.writer data hp
  obtain ⟨hgoes, hqueue⟩ := Session.goes h hcall hc hlog
  rw [← hq, hqueue]
  refine .some ⟨s', hgoes, ?_, ?_, rfl, hreaders, hhandles⟩
  · rw [Prog.run_bind, ha, hk]
    rfl
  · rw [Prog.run_bind, ha, hk, hmem]
    exact hr

/-- **A call of the writer.** -/
theorem serve_writer (h : s.Represents) (hq : s.queue = l.queue) (hs : Stores r s.mem)
    (hlog : s.mem.log.length < 2 ^ 63 - 1) (e : E) (held : List ℕ) {c : PortCall}
    (hk : Kind.writer.has c) (hc : c.claims → s.writeHandles = []) :
    Option.Rel (fun prog x => ∃ s', ServedWriter l s held r prog x s')
      (s.writer.serve s.slots c) (l.call .writer e held c) := by
  have hN := hs.1.count_lt
  -- a program that ends at once
  have hidle : ∀ n : ℕ, Option.Rel (fun prog x => ∃ s', ServedWriter l s held r prog x s')
      (some (pure (.number n, s.writer, s.slots))) (some (.number n, l.queue, held)) :=
    fun n => .some ⟨s, Session.goes_refl h, rfl, hs, by rw [hq], rfl, rfl⟩
  cases c with
  | write data =>
    have hnil := hc rfl
    exact served_writer h hq hs hlog (c := .write data) (by simp [Session.orderly, hnil]) rfl data
      (write_ranged s.writer hN data) rfl rfl rfl rfl
  | acquire =>
    have hnil := hc rfl
    have hp : s.writer.tryAcquire.All SegOp.Ranged :=
      (claimFrom_ranged s.writer _ 0).bind fun a => by cases a <;> trivial
    refine served_writer h hq hs hlog (c := .acquire) (by simp [Session.orderly, hnil]) rfl []
      hp rfl ?_ rfl rfl
    dsimp only [Answer.inQueue, QueueAnswer.toPort, Session.slots]
    rw [List.map_append]
    rcases (s.writer.tryAcquire.run (Hist.writerExec []) s.mem).1 with er | x <;> rfl
  | fill j b =>
    cases hw : s.writeHandles with
    | nil =>
      have hnone : ∀ j' : Fin l.geometry.payloadBytes, l.queue.call (.fill j' b) = none := by
        intro j'
        rw [← hq]
        refine Session.queue_none h fun c₀ hc₀ => ?_
        cases c₀ <;> cases hc₀
        simp [Session.call_fill, hw]
      simp only [Line.call, RawWriter.serve, Session.slots, hw, List.map_nil, hnone]
      split_ifs <;> exact .none
    | cons x rest =>
      have hslots : s.slots = x.index.val :: rest.map fun x => x.index.val := by
        simp [Session.slots, hw]
      have hx : x ∈ s.writeHandles := by simp [hw]
      simp only [Line.call, RawWriter.serve, hslots, Geometry.slot_self]
      split_ifs with hj
      · refine served_writer h hq hs hlog (c := .fill x ⟨j, hj⟩ b) rfl
          ((Session.call_fill s ..).trans (if_pos hx)) [] ⟨trivial, fun _ => trivial⟩ rfl ?_ rfl rfl
        rw [← hslots]
        rfl
      · exact .none
  | commit =>
    cases hw : s.writeHandles with
    | nil =>
      have hnone : l.queue.call .commit = none := by
        rw [← hq]
        refine Session.queue_none h fun c₀ hc₀ => ?_
        cases c₀ <;> cases hc₀
        simp [Session.call_commit, hw]
      simp only [Line.call, RawWriter.serve, Session.slots, hw, List.map_nil, hnone]
      exact .none
    | cons x rest =>
      have hx : x ∈ s.writeHandles := by simp [hw]
      have hrest : (s.committed x).slots = rest.map fun x => x.index.val := by
        simp [Session.slots, Session.committed, hw]
      simp only [Line.call, RawWriter.serve, Session.slots, hw, List.map_cons, Geometry.slot_self]
      refine served_writer h hq hs hlog (c := .commit x) rfl
        ((Session.call_commit s x).trans (if_pos hx)) _ (publish_ranged s.writer hN x.index) rfl ?_
        rfl rfl
      rw [hrest]
      rfl
  | abandon =>
    cases hw : s.writeHandles with
    | nil =>
      have hnone : l.queue.call .abandon = none := by
        rw [← hq]
        refine Session.queue_none h fun c₀ hc₀ => ?_
        cases c₀ <;> cases hc₀
        simp [Session.call, hw]
      simp only [Line.call, RawWriter.serve, Session.slots, hw, List.map_nil, hnone]
      exact .none
    | cons x rest =>
      have hx : x ∈ s.writeHandles := by simp [hw]
      simp only [Line.call, RawWriter.serve, Session.slots, hw, List.map_cons]
      refine served_writer h hq hs hlog (c := .abandon x) (p := pure ())
        (k := fun _ => pure (.done, s.writer, rest.map fun x => x.index.val)) rfl (if_pos hx) []
        trivial rfl ?_ rfl rfl
      simp [Session.slots, hw, Answer.inQueue, QueueAnswer.toPort]
  | payloadBytes => exact hidle _
  | lastEntrySeq =>
    have hn : s.writer.lastEntrySeq = l.queue.published := by
      rw [h.count, ← hq]
      rfl
    simp only [Line.call, RawWriter.serve, hn]
    exact hidle _
  | _ => cases hk

/-! ## A reader -/

/-- The handles as the end keeps them. -/
def handlesOf (xs : List (ReadHandle G)) : List (ℕ × ℕ) := xs.map fun x => (x.index.val, x.entrySeq)

/-- The entries they hold. -/
def entriesOf (xs : List (ReadHandle G)) : List ℕ := xs.map fun x => x.entrySeq

theorem handlesOf_snd (xs : List (ReadHandle G)) : (handlesOf xs).map Prod.snd = entriesOf xs := by
  simp [handlesOf, entriesOf]

theorem find?_handlesOf (xs : List (ReadHandle G)) (n : ℕ) :
    (handlesOf xs).find? (fun x => x.2 = n) =
      (xs.find? fun x => x.entrySeq = n).map fun x => (x.index.val, x.entrySeq) := by
  unfold handlesOf
  rw [List.find?_map]
  rfl

/-- Of the handles on an entry the first goes. -/
theorem erase_map_of_find? {β : Type} [BEq β] [LawfulBEq β] {xs : List (ReadHandle G)} {n : ℕ}
    {x : ReadHandle G} (hx : xs.find? (fun x => x.entrySeq = n) = some x) (f : ReadHandle G → β)
    (hf : ∀ y, f y = f x → y.entrySeq = n) : (xs.map f).erase (f x) = (xs.erase x).map f := by
  induction xs with
  | nil => cases hx
  | cons y xs ih =>
    by_cases hy : y.entrySeq = n
    · rw [List.find?_cons_of_pos (by simp [hy])] at hx
      cases hx
      simp
    · rw [List.find?_cons_of_neg (by simp [hy])] at hx
      have hne : f y ≠ f x := fun he => hy (hf y he)
      have hyx : y ≠ x := fun he => hne (by rw [he])
      rw [List.map_cons, List.erase_cons_tail (by simp [hne]), List.erase_cons_tail (by simp [hyx]),
        List.map_cons, ih hx]

theorem mem_entriesOf {xs : List (ReadHandle G)} {n : ℕ} :
    n ∈ entriesOf xs ↔ (xs.find? fun x => x.entrySeq = n).isSome := by
  rw [List.find?_isSome]
  simp [entriesOf]

/-- The call `c` of the reader `e` has been served, which had the handles `xs₀` and has the
    handles `xs` then; those of others are left alone. -/
structure ServedReader (l : Line E) (s : Session l.geometry E) (e : E) (c : PortCall) (r : Region)
    (xs₀ : List (ReadHandle l.geometry))
    (prog : SegProg l.geometry (PortAnswer × RawReader l.geometry × List (ℕ × ℕ)))
    (x : PortAnswer × Queue l.geometry E × List ℕ) (s' : Session l.geometry E)
    (xs : List (ReadHandle l.geometry)) : Prop where
  goes : s.Goes s'
  answer : (prog.run (Region.ringExec _) r).1 = (x.1, s'.readers e, handlesOf xs)
  stores : Stores (prog.run (Region.ringExec _) r).2 s'.mem
  queue : x.2 = (s'.queue, entriesOf xs)
  nodup : xs.Nodup
  held : ∀ y ∈ xs, y ∈ s'.readHandles
  acquired : c.inPlace = false → ∀ y ∈ xs, y ∈ xs₀
  others : ∀ y ∈ s.readHandles, y ∉ xs₀ → y ∈ s'.readHandles
  writer : s'.writer = s.writer
  handles : s'.writeHandles = s.writeHandles
  readers : ∀ e', e' ≠ e → s'.readers e' = s.readers e'

/-- A call of a reader that runs the program `p`. -/
theorem served_reader (h : s.Represents) (hq : s.queue = l.queue) (hs : Stores r s.mem)
    (hlog : s.mem.log.length < 2 ^ 63 - 1) {e : E} {c₀ : PortCall} {c : Call l.geometry E}
    {a : Answer l.geometry} {s' : Session l.geometry E} {xs₀ : List (ReadHandle l.geometry)}
    (xs : List (ReadHandle l.geometry)) {β : Type} {p : SegProg l.geometry β}
    {Q : β → Region → Prop} {b : PortAnswer}
    {k : β → SegProg l.geometry (PortAnswer × RawReader l.geometry × List (ℕ × ℕ))}
    {f : QueueAnswer × Queue l.geometry E → PortAnswer × Queue l.geometry E × List ℕ}
    (hc : s.orderly c) (hcall : s.call c = some (a, s'))
    (hp : Valid (Region.ringExec _) (onBytes _) Q p r)
    (hmem : s'.mem = (p.run Hist.readerExec s.mem).2)
    (hk : k (p.run Hist.readerExec s.mem).1 = pure (b, s'.readers e, handlesOf xs))
    (hf : f (a.inQueue s'.mem.seg, s'.queue) = (b, s'.queue, entriesOf xs))
    (hxs : xs.Nodup ∧ ∀ y ∈ xs, y ∈ s'.readHandles)
    (hacquired : c₀.inPlace = false → ∀ y ∈ xs, y ∈ xs₀)
    (hothers : ∀ y ∈ s.readHandles, y ∉ xs₀ → y ∈ s'.readHandles)
    (hsame : s'.writer = s.writer ∧ s'.writeHandles = s.writeHandles ∧
      ∀ e', e' ≠ e → s'.readers e' = s.readers e') :
    Option.Rel (fun prog x => ∃ s' xs, ServedReader l s e c₀ r xs₀ prog x s' xs) (some (p >>= k))
      ((l.queue.call c.inQueue).map f) := by
  obtain ⟨ha, hr⟩ := hs.reader hp
  obtain ⟨hgoes, hqueue⟩ := Session.goes h hcall hc hlog
  rw [← hq, hqueue, Option.map_some, hf]
  refine .some ⟨s', xs, hgoes, ?_, ?_, rfl, hxs.1, hxs.2, hacquired, hothers, hsame.1,
    hsame.2.1, hsame.2.2⟩
  · rw [Prog.run_bind, ha, hk]
    rfl
  · rw [Prog.run_bind, ha, hk, hmem]
    exact hr

/-- **A call of a reader.** -/
theorem serve_reader (h : s.Represents) (hq : s.queue = l.queue) (hs : Stores r s.mem)
    (hlog : s.mem.log.length < 2 ^ 63 - 1) {zc : Bool} {e : E} {xs : List (ReadHandle l.geometry)}
    (hxs : xs.Nodup ∧ ∀ y ∈ xs, y ∈ s.readHandles) {c : PortCall} (hk : (Kind.reader zc).has c) :
    Option.Rel (fun prog x => ∃ s' xs', ServedReader l s e c r xs prog x s' xs')
      ((s.readers e).serve (handlesOf xs) c) (l.call (.reader zc) e (entriesOf xs) c) := by
  -- a program that leaves the session as it is
  have hidle : ∀ (prog : SegProg l.geometry (PortAnswer × RawReader l.geometry × List (ℕ × ℕ))) a,
      prog.run (Region.ringExec _) r = ((a, s.readers e, handlesOf xs), r) →
      Option.Rel (fun prog x => ∃ s' xs', ServedReader l s e c r xs prog x s' xs') (some prog)
        (some (a, l.queue, entriesOf xs)) := by
    intro prog a hrun
    refine .some ⟨s, xs, Session.goes_refl h, ?_, ?_, ?_, hxs.1, hxs.2, fun _ _ hy => hy,
      fun _ hy _ => hy, rfl, rfl, fun _ _ => rfl⟩
    · rw [hrun]
    · rw [hrun]
      exact hs
    · rw [hq]
  have hother : ∀ (rd : RawReader l.geometry) e', e' ≠ e →
      Function.update s.readers e rd e' = s.readers e' := fun rd e' he => Function.update_of_ne he ..
  cases c with
  | connect => exact hidle _ _ rfl
  | readInto dst f =>
    refine served_reader h hq hs hlog (c := .readInto e dst f) _ rfl rfl
      (readInto_ranged (s.readers e) dst f r) rfl ?_ rfl hxs (fun _ _ hy => hy)
      (fun _ hy _ => hy) ⟨rfl, rfl, hother _⟩
    simp only [Function.update_self]
    rfl
  | readAs elem f =>
    -- every element type divides the payload
    have hdvd : l.geometry.payloadBytes % elem.size = 0 := by
      have := l.geometry.aligned
      unfold SLOT_ALIGN at this
      cases elem <;> simp only [Dtype.size] <;> omega
    have hbuf : l.geometry.payloadBytes / elem.size * elem.size = l.geometry.payloadBytes :=
      Nat.div_mul_cancel (Nat.dvd_of_mod_eq_zero hdvd)
    have hread : (s.readers e).readAs elem f = (do
        let (res, r', buf') ← (s.readers e).readInto (List.replicate l.geometry.payloadBytes 0) f
        pure (res.map fun seq => seq.map fun n => (n, buf'), r')) := by
      unfold RawReader.readAs
      rw [if_neg (by simp [hdvd]), hbuf]
    simp only [RawReader.serve, hread, Prog.bind_assoc]
    refine served_reader h hq hs hlog (c := .readInto e (List.replicate _ 0) f) _ rfl rfl
      (readInto_ranged (s.readers e) (List.replicate _ 0) f r) rfl ?_ rfl hxs (fun _ _ hy => hy)
      (fun _ hy _ => hy) ⟨rfl, rfl, hother _⟩
    simp only [Function.update_self]
    rfl
  | tryAcquire f =>
    rcases hrun : ((s.readers e).tryAcquire f).run Hist.readerExec s.mem with ⟨⟨x, rd⟩, m⟩
    have hcall : s.call (.tryAcquire e f) = some (.tryAcquire x, { s with
        mem := m, readers := Function.update s.readers e rd,
        readHandles := s.readHandles ++ x.toList }) := by
      simp only [Session.call, hrun]
    have hnodup := (Session.goes h hcall rfl hlog).1.rep.nodup
    refine served_reader h hq hs hlog (c := .tryAcquire e f) (xs ++ x.toList)
      (b := .tryAcquire (.ok (x.map fun x => x.entrySeq))) rfl hcall
      (tryAcquire_ranged (s.readers e) f r) (by rw [hrun]) ?_ ?_ ⟨?_, fun y hy => ?_⟩
      (fun hc => by cases hc) (fun y hy _ => List.mem_append_left _ hy)
      ⟨rfl, rfl, hother _⟩
    · rw [hrun]
      simp only [Function.update_self, handlesOf, List.map_append]
    · cases x <;> simp [entriesOf, Answer.inQueue, QueueAnswer.toPort, QueueAnswer.number?]
    · refine List.nodup_append.2 ⟨hxs.1, (List.nodup_append.1 hnodup).2.1, fun y hy z hz => ?_⟩
      exact (List.nodup_append.1 hnodup).2.2 y (hxs.2 y hy) z hz
    · rcases List.mem_append.1 hy with hy | hy
      · exact List.mem_append_left _ (hxs.2 y hy)
      · exact List.mem_append_right _ hy
  | asBytes n =>
    simp only [Line.call, RawReader.serve, find?_handlesOf, mem_entriesOf]
    cases hf : xs.find? fun x => x.entrySeq = n with
    | none => exact .none
    | some x =>
      have hx := hxs.2 x (List.mem_of_find?_eq_some hf)
      have hn : x.entrySeq = n := by simpa using List.find?_some hf
      subst hn
      rw [if_pos Option.isSome_some, ← hq, Session.bytesAt_held h hx, hq]
      refine hidle _ _ ?_
      simp only [Geometry.slot_self, Prog.run_bind,
        copyOut_run ringExec_reads x.index (List.length_replicate ..), hs.2]
      rfl
  | release n =>
    simp only [Line.call, RawReader.serve, find?_handlesOf, mem_entriesOf]
    cases hf : xs.find? fun x => x.entrySeq = n with
    | none => exact .none
    | some x =>
      have hxm := List.mem_of_find?_eq_some hf
      have hx := hxs.2 x hxm
      have hn : x.entrySeq = n := by simpa using List.find?_some hf
      have hlt := (h.pin x hx).2.1
      rw [if_pos Option.isSome_some, ← hn]
      simp only [Option.map_some, Geometry.slot_self]
      have hp : (RawReader.release x).All SegOp.Ranged := ⟨asI64_in (by omega), fun _ => trivial⟩
      refine served_reader h hq hs hlog (c := .release x) (xs.erase x) (b := .done) rfl
        (if_pos hx) (ranged_valid hp r) rfl ?_ ?_ ⟨hxs.1.erase _, fun y hy => ?_⟩
        (fun _ y hy => List.mem_of_mem_erase hy)
        (fun y hy hy' => (List.mem_erase_of_ne (ne_of_mem_of_not_mem hxm hy').symm).2 hy)
        ⟨rfl, rfl, fun _ _ => rfl⟩
      · have he := erase_map_of_find? (hn ▸ hf) (fun x => (x.index.val, x.entrySeq))
          fun y hy => (Prod.mk.inj hy).2
        unfold handlesOf
        rw [he]
      · have he := erase_map_of_find? (hn ▸ hf) (fun x => x.entrySeq) fun y hy => hy
        unfold entriesOf
        rw [he]
        rfl
      · exact (List.mem_erase_of_ne ((hxs.1.mem_erase_iff.1 hy).1)).2 (hxs.2 y (List.mem_of_mem_erase hy))
  | payloadBytes => exact hidle _ _ rfl
  | lastEntrySeq =>
    have hn : (s.readers e).lastEntrySeq = l.queue.marks e := by
      rw [← hq]
      rfl
    simp only [Line.call, RawReader.serve, hn]
    exact hidle _ _ rfl
  | writerEntrySeq =>
    have hn : r.hdr .lastEntrySeq = l.queue.published := by
      have hhdr : r.hdr .lastEntrySeq = s.mem.seg.hdr .lastEntrySeq := congrArg (·.hdr .lastEntrySeq) hs.2
      rw [hhdr, h.last, ← hq]
      rfl
    simp only [Line.call, ← hn]
    exact hidle _ _ rfl
  | _ => cases hk

end

end ZeroChannel
