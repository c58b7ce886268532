/-
  What generations of zero-copy readers leave behind.

  A reader that ends takes its handles with it, and their slots stay held: the
  negative words belong to the handles of the living reader and to the lost ones.
  A role is adopted, but nothing is handed back with it (`slot_retired`).
-/
import ZeroChannel.Succession
import ZeroChannel.Proof.Represents
import ZeroChannel.Proof.Lifecycle

namespace ZeroChannel

open Concur

variable {G : Geometry} {α : Type}

/-! ## Opening leaves the ring alone -/

/-- The operations on the words of the owners. -/
def SegOp.Owning : SegOp G → Prop
  | load _ => True
  | cas w _ _ => w = .segmentOwner ∨ w = .zcReaderOwner
  | _ => False

/-- Nothing but an owner has changed. -/
structure Hist.SameRing (h h' : Hist G) : Prop where
  words : h'.seg.words = h.seg.words
  payload : h'.seg.payload = h.seg.payload
  log : h'.log = h.log
  hdr : ∀ w, w ≠ .segmentOwner → w ≠ .zcReaderOwner → h'.seg.hdr w = h.seg.hdr w

theorem Hist.SameRing.refl (h : Hist G) : h.SameRing h := ⟨rfl, rfl, rfl, fun _ _ _ => rfl⟩

theorem Hist.SameRing.trans {h h' h'' : Hist G} (h₁ : h.SameRing h') (h₂ : h'.SameRing h'') :
    h.SameRing h'' :=
  ⟨h₂.words.trans h₁.words, h₂.payload.trans h₁.payload, h₂.log.trans h₁.log,
    fun w hw hw' => (h₂.hdr w hw hw').trans (h₁.hdr w hw hw')⟩

theorem owning_exec {o : SegOp G} (ho : o.Owning) (h : Hist G) :
    h.SameRing (Hist.readerExec o h).2 := by
  cases o with
  | load w => exact .refl h
  | cas w old new =>
    simp only [Hist.readerExec, Segment.exec]
    split_ifs
    · refine ⟨rfl, rfl, rfl, fun w' hw hw' => Segment.setHdr_ne _ ?_ _⟩
      rintro rfl
      rcases ho with rfl | rfl
      · exact hw rfl
      · exact hw' rfl
    · exact .refl h
  | _ => exact ho.elim

theorem owning_run {p : SegProg G α} (hp : p.All SegOp.Owning) (h : Hist G) :
    h.SameRing (p.run Hist.readerExec h).2 := by
  induction p generalizing h with
  | pure a => exact .refl h
  | op o k ih => exact (owning_exec hp.1 h).trans (ih _ (hp.2 _) _)

theorem segMapping_owning (alive : ℕ → Bool) : (segMapping G alive).Uses SegOp.Owning
    fun w => w = .segmentOwner ∨ w = .zcReaderOwner :=
  ⟨fun _ => ⟨trivial, fun _ => trivial⟩, fun _ _ _ hw => ⟨hw, fun _ => trivial⟩, fun _ => trivial⟩

theorem Bid.constructReader_owning (bid : Bid) (me : Pid) (name : String) (enableZeroCopy : Bool) :
    (bid.constructReader G me name enableZeroCopy).All SegOp.Owning := by
  have hM := segMapping_owning (G := G) bid.alive
  have hbind : ∀ header, (do
      let r ← bindReader (segMapping G bid.alive) (fun _ => pure RawReader.attach) me name
        enableZeroCopy header bid.fuel
      pure (r.map fun e => e.map some) :
        SegProg G (Option (Except ZeroChannelError (Option (RawReader G))))).All SegOp.Owning :=
    fun header => (bindReader_all hM (fun h => show (pure RawReader.attach : SegProg G _).All _ from
      trivial) (Or.inr rfl) me name _ header _).bind fun _ => trivial
  unfold Bid.constructReader
  dsimp only
  rcases bid.geometry with _ | ⟨pb, n⟩
  · refine (attachHeader_all hM _).bind fun r => ?_
    rcases r with _ | _ | header
    · trivial
    · trivial
    · exact hbind header
  · dsimp only
    rcases checkGeometry pb n with _ | ⟨⟩
    · trivial
    · refine (acceptHeader_all hM _ _ _).bind fun r => ?_
      rcases r with _ | _ | header
      · trivial
      · trivial
      · refine (claimSegment_all hM (Or.inl rfl) me _).bind fun r => ?_
        rcases r with _ | _
        · trivial
        · exact hbind header

theorem releaseRole_owning (alive : ℕ → Bool) (me : Pid) :
    (releaseRole (segMapping G alive) me .zcReaderOwner).All SegOp.Owning :=
  ((segMapping_owning alive).cas _ _ _ (Or.inr rfl)).bind fun _ => trivial

/-- A ring is represented whoever owns what. -/
theorem Session.Represents.sameRing {ι : Type} {s : Session G ι} (h : s.Represents) {mem : Hist G}
    (hm : s.mem.SameRing mem) (readers : ι → RawReader G) :
    Session.Represents { s with mem, readers } := by
  have hw := hm.words
  refine ⟨⟨?_, ?_, h.nodup⟩, ?_, ?_, ?_, ?_, ?_, ?_, ?_, ?_, ?_, ?_⟩
  · simpa only [hw] using h.lt
  · simpa only [hw] using h.pin
  · simpa only [hw, hm.log] using h.marked
  · exact (hm.hdr _ (by decide) (by decide)).trans h.magic
  · simpa only [hm.log] using h.count
  · simpa only [hm.log, hm.hdr .lastEntrySeq (by decide) (by decide)] using h.last
  · exact (hm.hdr _ (by decide) (by decide)).trans h.index
  · simpa only [hw, hm.log] using h.newest
  · simpa only [hw] using h.neg
  · simpa only [hw, hm.payload, hm.log] using h.data
  · simpa only [ReadHandle.asBytes, hm.payload, hm.log] using h.view
  · simpa only [hw] using h.handle

/-! ## Generations -/

namespace Succession

/-- All handles, those that nobody can release any more included. -/
def session (s : Succession G) : Session G Unit where
  mem := s.mem
  writer := s.writer
  writeHandles := []
  readers _ := (s.reader.map Prod.snd).getD .attach
  readHandles := s.lost ++ s.held

/-- An end is as good as no end: the slots stay held. -/
theorem ended_represents {s : Succession G} (h : s.session.Represents) {mem : Hist G}
    (hm : s.mem.SameRing mem) : (ended { s with mem }).session.Represents := by
  have hs := h.sameRing hm fun _ => RawReader.attach
  simpa only [session, ended, List.append_nil, Option.map_none, Option.getD_none] using hs

/-- One step. -/
theorem step_represents {name : String} {s s' : Succession G} {a : SuccessionAct G}
    (h : s.session.Represents) (hs : s.step name a = some s') (hlog : s'.mem.log.length < 2 ^ 63) :
    s'.session.Represents := by
  cases a with
  | write data =>
    cases hs
    exact h.step (c := .write data) rfl rfl hlog
  | construct me bid =>
    rcases hr : s.reader with _ | r
    · simp only [step, hr] at hs
      cases hs
      exact h.sameRing (owning_run (bid.constructReader_owning me name true) s.mem) _
    · simp only [step, hr] at hs
      cases hs
  | tryAcquire f =>
    rcases hr : s.reader with _ | ⟨me, r⟩
    · simp only [step, hr] at hs
      cases hs
    · simp only [step, hr] at hs
      obtain rfl := Option.some.inj hs
      refine h.step (c := .tryAcquire () f) ?_ rfl hlog
      have hone : ∀ raw : RawReader G, Function.update (fun _ => r) () raw = fun _ => raw :=
        fun raw => funext fun u => by simp
      simp [Session.step, Session.call, session, hr, hone, List.append_assoc]
  | release x =>
    simp only [step] at hs
    split_ifs at hs with hx
    obtain rfl := Option.some.inj hs
    have hlost : x ∉ s.lost := fun hl => (List.nodup_append.1 h.nodup).2.2 x hl x hx rfl
    have hmem : x ∈ s.lost ++ s.held := List.mem_append_right _ hx
    refine h.step (c := .release x) ?_ rfl hlog
    simp only [Session.step, Session.call, session, List.erase_append_right _ hlost]
    rw [if_pos hmem]
    rfl
  | drop =>
    rcases hr : s.reader with _ | ⟨me, r⟩
    · simp only [step, hr] at hs
      cases hs
    · simp only [step, hr] at hs
      cases hs
      exact ended_represents h (owning_run (releaseRole_owning _ me) s.mem)
  | crash =>
    rcases hr : s.reader with _ | ⟨me, r⟩
    · simp only [step, hr] at hs
      cases hs
    · simp only [step, hr] at hs
      cases hs
      exact ended_represents h (.refl _)

theorem step_log {name : String} {s s' : Succession G} {a : SuccessionAct G}
    (hs : s.step name a = some s') : s.mem.log.length ≤ s'.mem.log.length := by
  suffices h : s.mem.log <+: s'.mem.log from h.length_le
  cases a with
  | write data =>
    cases hs
    exact Hist.writer_run_log _ _ _
  | construct me bid =>
    simp only [step] at hs
    split at hs
    · cases hs
    · cases hs
      exact Hist.reader_run_grows _ _
  | tryAcquire f =>
    simp only [step] at hs
    split at hs
    · cases hs
      exact Hist.reader_run_grows _ _
    · cases hs
  | release x =>
    simp only [step] at hs
    split_ifs at hs
    cases hs
    exact Hist.reader_run_grows _ _
  | drop =>
    simp only [step] at hs
    split at hs
    · cases hs
      exact Hist.reader_run_grows _ _
    · cases hs
  | crash =>
    simp only [step] at hs
    split at hs
    · cases hs
      exact List.prefix_rfl
    · cases hs

/-- The writer is `Busy` when every word is negative. -/
theorem busy_words {w : RawWriter G} {m : Hist G} {data : List UInt8} {msg : String}
    (hb : ((w.write data).run (Hist.writerExec data) m).1.1 = .error (.busy msg)) (i : Slot G) :
    m.seg.words i < 0 := by
  by_cases hlen : data.length = G.payloadBytes
  · rw [write_run data w m hlen] at hb
    rcases hf : free? m.seg.words w.currentIndex.val G.entryCount with _ | j
    · exact free?_eq_none.1 hf i
    · rw [hf] at hb
      cases hb
  · rw [write_len data w hlen] at hb
    cases hb

/-- The handles that hold slots: those of the living reader, and the lost ones. -/
def holders (s : Succession G) : List (ReadHandle G) := s.lost ++ s.held

/-- **Handles must be released.**  In every run of fewer than `2 ^ 63` publishes the negative
    words belong, one to one, to the handles of the living reader and to those that readers
    before it never released; so they are all the living reader's if and only if nothing was
    lost, and the writer is `Busy` only while these handles hold every slot. -/
theorem slots_held {name : String} {dtype : Dtype} {owner : ℕ} {s : Succession G}
    (h : Reach (step name) (fun _ _ _ => True) (init G dtype owner) s)
    (hlog : s.mem.log.length < 2 ^ 63) :
    (∀ i, s.mem.seg.words i < 0 ↔ ∃! x, x ∈ s.holders ∧ x.index = i) ∧
    s.holders.Nodup ∧
    ((∀ i, s.mem.seg.words i < 0 → ∃ x ∈ s.held, x.index = i) ↔ s.lost = []) ∧
    ∀ data msg, ((s.writer.write data).run (Hist.writerExec data) s.mem).1.1 = .error (.busy msg) →
      ∀ i, ∃ x ∈ s.holders, x.index = i := by
  have hR : s.session.Represents := by
    refine (h.bounded (fun s => s.mem.log.length) (fun _ _ _ => step_log) hlog).inv
      (I := fun s => s.session.Represents) (.init dtype owner) ?_
    rintro s a s' hI hs ⟨-, hn⟩
    exact step_represents hI hs hn
  have hneg : ∀ x ∈ s.holders, s.mem.seg.words x.index < 0 := by
    intro x hx
    have hp := hR.pin x hx
    have hw : s.mem.seg.words x.index = -(x.entrySeq : ℤ) := hp.2.2
    have := hp.1
    omega
  have huniq : ∀ i, s.mem.seg.words i < 0 ↔ ∃! x, x ∈ s.holders ∧ x.index = i := by
    intro i
    constructor
    · intro hi
      obtain ⟨x, hx, hxi⟩ := hR.neg i hi
      refine ⟨x, ⟨hx, hxi⟩, ?_⟩
      rintro y ⟨hy, hyi⟩
      exact hR.index_inj hy hx (hyi.trans hxi.symm)
    · rintro ⟨x, ⟨hx, rfl⟩, -⟩
      exact hneg x hx
  refine ⟨huniq, hR.nodup, ⟨fun hall => ?_, fun hnone i hi => ?_⟩, fun data msg hb i => ?_⟩
  · by_contra hne
    obtain ⟨x, hx⟩ := List.exists_mem_of_ne_nil _ hne
    obtain ⟨y, hy, hyx⟩ := hall x.index (hneg x (List.mem_append_left _ hx))
    have hxy : y = x := hR.index_inj (List.mem_append_right _ hy) (List.mem_append_left _ hx) hyx
    exact (List.nodup_append.1 hR.nodup).2.2 x hx y hy hxy.symm
  · obtain ⟨x, ⟨hx, hxi⟩, -⟩ := (huniq i).1 hi
    rw [holders, hnone] at hx
    exact ⟨x, hx, hxi⟩
  · obtain ⟨x, ⟨hx, hxi⟩, -⟩ := (huniq i).1 (busy_words hb i)
    exact ⟨x, hx, hxi⟩

/-- A bid without geometry that finds nobody alive. -/
def deadBid : Bid := ⟨none, .u8, fun _ => false, 2⟩

/-- Two readers one after the other, the first of which crashes with the oldest entry in
    its hands. -/
def twoReaders : List (SuccessionAct (.tiny 0)) :=
  [.write (List.replicate 8 1), .construct ⟨9, by decide, by decide⟩ deadBid, .tryAcquire none,
    .crash, .construct ⟨10, by decide, by decide⟩ deadBid]

theorem slots_held_lost : ∃ s : Succession (.tiny 0),
    s.lost = [⟨Geometry.slot _ 0, 1⟩] ∧ s.held = [] ∧
      ¬ ∀ i, s.mem.seg.words i < 0 → ∃ x ∈ s.held, x.index = i := by
  have hrun : (steps (step "ch") (fun _ _ => true) (init (.tiny 0) .u8 7) twoReaders).map (fun s =>
      (s.lost, s.held, s.mem.log.length)) = some ([⟨Geometry.slot _ 0, 1⟩], [], 1) := by
    decide +kernel
  obtain ⟨s, hs, he⟩ := reach_eval hrun
  simp only [Prod.mk.injEq] at he
  obtain ⟨h₁, h₂, h₃⟩ := he
  have h := slots_held (hs.mono fun _ _ _ _ => trivial) (by rw [h₃]; norm_num)
  refine ⟨s, h₁, h₂, fun hall => ?_⟩
  have hlost := h.2.2.1.1 hall
  rw [h₁] at hlost
  cases hlost

/-- The successor is bound without a conflict and holds nothing, but the slot stays negative
    and the writer `Busy`. -/
theorem slot_retired : ∃ s : Succession (.tiny 0),
    Reach (step "ch") (fun _ _ _ => True) (init (.tiny 0) .u8 7) s ∧ s.reader.isSome ∧
      s.held = [] ∧ s.mem.seg.words (Geometry.slot _ 0) < 0 ∧
      ((s.writer.write (List.replicate 8 2)).run (Hist.writerExec (List.replicate 8 2)) s.mem).1.1 =
        .error (busyError (.tiny 0)) := by
  have hrun : (steps (step "ch") (fun _ _ => true) (init (.tiny 0) .u8 7) twoReaders).map (fun s =>
      (s.reader.isSome, s.held, s.mem.seg.words (Geometry.slot _ 0),
        ((s.writer.write (List.replicate 8 2)).run (Hist.writerExec (List.replicate 8 2)) s.mem).1.1)) =
      some (true, [], -1, .error (busyError (.tiny 0))) := by decide +kernel
  obtain ⟨s, hs, he⟩ := reach_eval hrun
  simp only [Prod.mk.injEq] at he
  obtain ⟨h₁, h₂, h₃, h₄⟩ := he
  exact ⟨s, hs.mono fun _ _ _ _ => trivial, h₁, h₂, by rw [h₃]; decide, h₄⟩

end Succession

end ZeroChannel
