/-
  A channel in use, on the bytes of its region.

  The parties of a channel make the same calls on a region, byte by byte, as on a
  segment.  They store machine integers only, so every run on the bytes is a run on the
  segment decoded from them (`bytes_refine`), and what is proved of a channel holds of
  its bytes: a reader is given the data of the call that wrote it (`bytes_delivery`).
-/
import ZeroChannel.Proof.Refine
import ZeroChannel.Proof.Seqlock
import ZeroChannel.Concur.Refine

namespace ZeroChannel

open Concur

variable {G : Geometry}

/-! ## The operations of the parties -/

/-- What a party does to a region: it stores machine integers, in the parts of the
    segment. -/
def onBytes (G : Geometry) : Contract (segSig G) Region where
  ok _ := True
  rely _ r r' := r'.len = r.len
  guar o r r' := o.Ranged ∧ r'.len = r.len ∧
    ∀ off, (∀ q : Part G, ¬ q.Covers off) → r'.byte off = r.byte off

theorem SegOp.Ranged.guar {o : SegOp G} (ho : o.Ranged) (r : Region) :
    (onBytes G).guar o r (Region.ringExec G o r).2 :=
  ⟨ho, Region.ringExec_len o r, fun _ h => Region.ringExec_byte o r h⟩

theorem SegOp.IsLoad.ranged {o : SegOp G} (ho : o.IsLoad) : o.Ranged := by
  cases o <;> trivial

theorem ranged_valid {α : Type} {p : SegProg G α} (hp : p.All SegOp.Ranged) (r : Region) :
    Valid (Region.ringExec G) (onBytes G) (fun _ _ => True) p r := by
  induction p generalizing r with
  | pure a => trivial
  | op o k ih => exact fun r' _ _ => ⟨hp.1.guar r', ih _ (hp.2 _) _⟩

theorem onBytes_loads : Loads (Region.decode G) (Region.ringExec G) (onBytes G) where
  seq i r := by simp only [Region.ringExec, Region.decode_words]
  byte _ _ _ := rfl
  hdr _ _ := rfl
  guar _ _ _ ho _ := ⟨ho.ranged, rfl, fun _ _ => rfl⟩

theorem decode_lt (r : Region) (i : Slot G) : (r.decode G).words i < 2 ^ 63 := by
  rw [Region.decode_words]
  exact (asI64_in (r.word_lt _)).2

/-! ## The calls of a reader -/

/-- What `locate` returns fits into a slot word. -/
theorem locate_ranged (rd : RawReader G) (w : ℕ) (r : Region) :
    Valid (Region.ringExec G) (onBytes G) (fun a _ => ∀ i n, a = some (i, n) → n < 2 ^ 63)
      (rd.locate w) r := by
  refine (valid_locate onBytes_loads (J := fun _ => True) (K := fun _ n _ => n < 2 ^ 63)
    (fun _ _ _ _ _ => trivial) (fun _ _ _ _ _ _ h => h) (fun r i _ => decode_lt r i)
    (fun r i _ _ _ => ?_) rd trivial).mono fun a r' h i n ha => (h.2 i n ha).2
  have := decode_lt r i
  omega

theorem readInto_ranged (rd : RawReader G) (dst : List UInt8) (f : Option ℕ) (r : Region) :
    Valid (Region.ringExec G) (onBytes G) (fun _ _ => True) (rd.readInto dst f) r :=
  (valid_readInto onBytes_loads (J := fun _ => True) (K := fun _ _ _ => True)
    (C := fun _ _ _ _ _ => True) (fun _ _ _ _ _ => trivial) (fun _ _ _ _ _ _ _ => trivial)
    (fun r i _ => decode_lt r i) (fun _ _ _ _ => trivial) (fun _ _ _ _ _ _ _ _ _ => trivial)
    (fun _ _ _ _ _ _ => trivial) rd dst f trivial).mono fun _ _ _ => trivial

theorem casSeq_ranged {Q : Bool → Region → Prop} {i : Slot G} {old new : ℤ} {r : Region}
    (hnew : InI64 new) (h : ∀ b r, Q b r) :
    Valid (Region.ringExec G) (onBytes G) Q (casSeq i old new) r :=
  fun r' _ _ => ⟨SegOp.Ranged.guar (o := .casSeq i old new) hnew r', h _ _⟩

theorem acquireAttempts_ranged (rd : RawReader G) (w : ℕ) : ∀ (k : ℕ) (r : Region),
    Valid (Region.ringExec G) (onBytes G) (fun a _ => ∀ x, a.1 = some x → x.entrySeq < 2 ^ 64)
      (rd.acquireAttempts w k) r
  | 0, _ => fun _ h => by cases h
  | k + 1, r => by
    refine ((locate_ranged rd w r).mono fun a r₁ ha => ?_).bind
    match a with
    | none => exact fun _ h => by cases h
    | some (i, n) =>
      have hn := ha i n rfl
      have hnew : InI64 (-asI64 n) := by
        rw [asI64_of_lt hn]
        unfold InI64
        omega
      refine (casSeq_ranged hnew fun b r₂ => ?_).bind
      cases b with
      | true =>
        rintro x ⟨⟩
        exact hn.trans (by norm_num)
      | false => exact acquireAttempts_ranged rd w k r₂

theorem tryAcquire_ranged (rd : RawReader G) (f : Option ℕ) (r : Region) :
    Valid (Region.ringExec G) (onBytes G) (fun a _ => ∀ x, a.1 = some x → x.entrySeq < 2 ^ 64)
      (rd.tryAcquire f) r := by
  refine ((valid_watermark onBytes_loads (J := fun _ => True) (fun _ _ _ _ _ => trivial) rd f
    trivial).mono fun a r₁ _ => ?_).bind
  match a with
  | none => exact fun _ h => by cases h
  | some w => exact acquireAttempts_ranged rd w READ_RETRIES r₁

/-! ## What the writer has published -/

/-- The data of the calls of `write` that succeeded. -/
def written (hs : List (List UInt8 × Except ZeroChannelError Unit)) : List (List UInt8) :=
  (hs.filter fun c => c.2.isOk).map Prod.fst

theorem written_snoc (hs : List (List UInt8 × Except ZeroChannelError Unit)) (data : List UInt8)
    (o : Except ZeroChannelError Unit) :
    written (hs ++ [(data, o)]) = if o.isOk then written hs ++ [data] else written hs := by
  unfold written
  rw [List.filter_append, List.map_append]
  cases o <;> simp [Except.isOk, Except.toBool]

/-- The data of the calls of `write` that succeeded, and of the call on its way. -/
def begun (hs : List (List UInt8 × Except ZeroChannelError Unit)) (c : Option (List UInt8)) :
    List (List UInt8) := written hs ++ c.toList

theorem written_begun (hs : List (List UInt8 × Except ZeroChannelError Unit)) (data : List UInt8)
    (o : Except ZeroChannelError Unit) : written (hs ++ [(data, o)]) <+: begun hs (some data) := by
  rw [written_snoc]
  split_ifs
  · exact List.prefix_rfl
  · exact List.prefix_append _ _

/-- The writer alone publishes. -/
def publishing (G : Geometry) : Contract (segSig G) (Hist G) where
  ok _ := True
  rely _ h h' := h'.log = h.log
  guar _ _ _ := True

/-- Readers publish nothing. -/
def silent (G : Geometry) : Contract (segSig G) (Hist G) where
  ok _ := True
  rely _ _ _ := True
  guar _ h h' := h'.log = h.log

theorem silent_valid {α : Type} (p : SegProg G α) (h : Hist G) :
    Valid Hist.readerExec (silent G) (fun _ _ => True) p h := by
  induction p generalizing h with
  | pure a => trivial
  | op o k ih => exact fun h' _ _ => ⟨Hist.readerExec_log o h', ih _ _⟩

section
variable (w : RawWriter G) {data : List UInt8} {L : List (List UInt8)}

theorem claimFrom_log : ∀ (k n : ℕ) (h : Hist G), h.log = L →
    Valid (Hist.writerExec data) (publishing G) (fun _ h' => h'.log = L) (w.claimFrom n k) h
  | 0, _, _, hL => hL
  | k + 1, n, h, hL => by
    refine (writer_loadSeq fun h₁ hr _ => ⟨trivial, ?_⟩).bind
    have hL₁ : h₁.log = L := hr.trans hL
    split_ifs
    · exact claimFrom_log k (n + 1) h₁ hL₁
    · exact (writer_clearSeq fun h₂ hr _ => ⟨trivial, Eq.trans hr hL₁⟩).bind

theorem copyIn_log (i : Slot G) (b : Block G) (h : Hist G) (hL : h.log = L) :
    Valid (Hist.writerExec data) (publishing G) (fun _ h' => h'.log = L)
      (RawWriter.copyIn i b) h :=
  Valid.foldlM (I := fun _ _ h => h.log = L)
    (fun _ _ _ _ hL => writer_storeByte fun _ hr _ => ⟨trivial, Eq.trans hr hL⟩) _ _ _ hL

theorem publish_log (i : Slot G) (h : Hist G) (hL : h.log = L) :
    Valid (Hist.writerExec data) (publishing G) (fun _ h' => h'.log = L ++ [data])
      (w.publish i) h := by
  refine (writer_storeSeq fun h₁ hr _ => ⟨trivial, ?_⟩).bind
  have hL₁ : (h₁.put i (asI64 (u64 (w.lastEntrySeq + 1))) data).log = L ++ [data] := by
    rw [Hist.put_log, hr, hL]
  refine (writer_storeHdr fun h₂ hr _ => ⟨trivial, ?_⟩).bind
  exact (writer_storeHdr fun h₃ hr' _ => ⟨trivial, Eq.trans hr' (hr.trans hL₁)⟩).bind

/-- `write` publishes its data if it succeeds, and nothing otherwise. -/
theorem write_log (h : Hist G) (hL : h.log = L) :
    Valid (Hist.writerExec data) (publishing G)
      (fun a h' => h'.log = if a.1.isOk then L ++ [data] else L) (w.write data) h := by
  unfold RawWriter.write
  split_ifs
  · exact hL
  · refine ((claimFrom_log w _ 0 h hL).mono fun a h₁ hL₁ => ?_).bind
    match a with
    | .error e => exact hL₁
    | .ok i =>
      refine ((copyIn_log i _ h₁ hL₁).mono fun _ h₂ hL₂ => ?_).bind
      exact ((publish_log w i h₂ hL₂).mono fun _ _ h => h).bind

end

/-! ## The pool -/

section
variable {ι : Type} [DecidableEq ι] {zc : Option ι}

/-- The pool of the parties of a channel, on the bytes of a region. -/
def bytes (G : Geometry) (ι : Type) [DecidableEq ι] (zc : Option ι) :
    Pool (segSig G) Region (Party ι) :=
  (channel G ι zc).onto fun _ _ => Region.ringExec G

/-- Every party bound to the region. -/
def bytesInit (G : Geometry) (ι : Type) [DecidableEq ι] (zc : Option ι) (r : Region) :
    (bytes G ι zc).Conf where
  mem := r
  ctl
    | .writer => .idle ⟨G.slot 0, 0⟩
    | .reader _ => .idle ⟨.attach, []⟩
  hist _ := []

/-- What holds of a party between its calls. -/
def bytesIdle : ∀ t, (bytes G ι zc).Loc t → Prop
  | .writer, _ => True
  | .reader _, l => ∀ x ∈ l.handles, x.entrySeq < 2 ^ 64

theorem enter_ranged {r : ι} {l : ReaderLoc G} {c : ReaderCall G}
    {p : SegProg G (ReaderOut G × ReaderLoc G)} (hl : ∀ x ∈ l.handles, x.entrySeq < 2 ^ 64)
    (hp : l.enter (decide (zc = some r)) c = some p) (m : Region) :
    Valid (Region.ringExec G) (onBytes G) (fun a _ => ∀ x ∈ a.2.handles, x.entrySeq < 2 ^ 64)
      p m := by
  cases c with
  | readInto dst f =>
    cases hp
    exact ((readInto_ranged l.raw dst f m).mono fun _ _ _ => hl).bind
  | tryAcquire f =>
    simp only [ReaderLoc.enter] at hp
    split_ifs at hp
    cases hp
    refine ((tryAcquire_ranged l.raw f m).mono fun a _ ha x hx => ?_).bind
    rcases List.mem_append.1 hx with hx | hx
    · exact hl x hx
    · exact ha x (Option.mem_toList.1 hx)
  | release y =>
    simp only [ReaderLoc.enter] at hp
    split_ifs at hp with hy
    cases hp
    have hr : (RawReader.release y).All SegOp.Ranged := ⟨asI64_in (hl y hy), fun _ => trivial⟩
    exact ((ranged_valid hr m).mono fun _ _ _ x hx => hl x (List.mem_of_mem_erase hx)).bind

/-- The parties store machine integers, in the parts of the segment. -/
def bytesOutline (G : Geometry) (ι : Type) [DecidableEq ι] (zc : Option ι) :
    (bytes G ι zc).Outline fun _ _ _ => True where
  glob r := r.Fits G
  con _ := onBytes G
  idle t _ l _ := bytesIdle t l
  post t _ _ a _ := bytesIdle t a.2
  refl _ _ _ _ := rfl
  trans _ _ _ _ _ h h' := h'.trans h
  keep _ _ _ _ h hf := hf.of_len h.2.1
  enter
    | .writer, _, data, w, p, r, hf, _, hp => by
      cases hp
      exact (ranged_valid (write_ranged w hf.count_lt data) r).mono fun _ _ _ => trivial
    | .reader i, _, c, l, p, r, _, hl, hp => enter_ranged hl hp r
  ret _ _ _ _ _ h := h
  idle_env _ _ _ _ _ h _ := h
  post_env _ _ _ _ _ _ h _ := h
  ok _ _ _ _ _ := trivial
  compat _ _ _ _ _ _ _ _ _ _ _ h := h.2.1

/-! ## The runs -/

/-- The histories beside the segment are read by nobody. -/
theorem exec_seg (t : Party ι) (c : (channel G ι zc).Call t) (o : SegOp G) (h : Hist G) :
    ((channel G ι zc).exec t c o h).1 = (Segment.exec o h.seg).1 ∧
      ((channel G ι zc).exec t c o h).2.seg = (Segment.exec o h.seg).2 := by
  cases t with
  | writer => cases o <;> exact ⟨rfl, rfl⟩
  | reader r =>
    cases o with
    | casSeq i old new =>
      simp only [channel, Hist.readerExec, Segment.exec]
      split_ifs <;> exact ⟨rfl, rfl⟩
    | _ => exact ⟨rfl, rfl⟩

/-- The region holds the segment. -/
def Stores (r : Region) (h : Hist G) : Prop := r.Fits G ∧ r.decode G = h.seg

theorem bytes_agrees {r : Region} {o : SegOp G} (ho : o.Ranged) (t : Party ι)
    (c : (channel G ι zc).Call t) :
    (channel G ι zc).Agrees (fun _ _ => Region.ringExec G) Stores t c o r := by
  rintro h ⟨hf, hseg⟩
  obtain ⟨ha, hm⟩ := hf.exec_decode ho
  obtain ⟨ha', hm'⟩ := exec_seg t c o h
  rw [hseg] at ha hm
  exact ⟨ha'.trans ha.symm, hf.of_len (Region.ringExec_len o r), hm.trans hm'.symm⟩

theorem bytesOutline_init {r : Region} (hf : r.Fits G) :
    (bytesOutline G ι zc).Holds (bytesInit G ι zc r) := by
  refine ⟨hf, fun t => ?_⟩
  cases t with
  | writer => trivial
  | reader i => exact fun x hx => absurd hx List.not_mem_nil

/-- A run on the bytes is a run on the segment. -/
theorem bytes_back {r : Region} (hf : r.Fits G) (h : Hist G) (hdec : r.decode G = h.seg)
    {s : (bytes G ι zc).Conf} (hr : Reach Pool.step (fun _ _ _ => True) (bytesInit G ι zc r) s) :
    ∃ m, s.mem.decode G = m.seg ∧
      Reach Pool.step (fun _ _ _ => True) ((bytesInit G ι zc r).back h) (s.back m) := by
  let L := bytesOutline G ι zc
  have hop : ∀ (s : (bytes G ι zc).Conf) t c o k, L.Holds s → s.ctl t = .busy c (.op o k) →
      (channel G ι zc).Agrees (fun _ _ => Region.ringExec G) Stores t c o s.mem :=
    fun s t c o k hL hl => bytes_agrees (L.at_busy (hL.2 t) hl s.mem rfl trivial).1.1 t c
  obtain ⟨m, hm, hb⟩ := Pool.reach_back (I := L.Holds) (fun _ _ _ => L.step) hop
    (bytesOutline_init hf) ⟨hf, hdec⟩ hr
  exact ⟨m, hm.2, hb⟩

theorem bytesInit_back (r : Region) (dtype : Dtype) (owner : ℕ) :
    (bytesInit G ι zc r).back ⟨.init G dtype owner, [], [], []⟩ = channelInit G ι zc dtype owner := by
  have hctl : ∀ t, ((bytesInit G ι zc r).ctl t).back = (channelInit G ι zc dtype owner).ctl t := by
    intro t
    cases t <;> rfl
  exact congrArg (fun ctl => (⟨⟨.init G dtype owner, [], [], []⟩, ctl, fun _ => []⟩ :
    (channel G ι zc).Conf)) (funext hctl)

/-- **The bytes of a channel.**  Let any parties of a channel, their calls interleaved
    operation by operation, run on the bytes of a region that `init_header` has
    initialised.  Then there is a run of the channel on the segment in which every party
    made the same calls, was given the same answers and is where it is now; the bytes decode
    to the segment it has reached, and those behind the segment are as they were before the
    initialisation. -/
theorem bytes_refine {r : Region} (hf : r.Fits G) (dtype : Dtype) (owner : Pid)
    {s : (bytes G ι zc).Conf} (h : Reach Pool.step (fun _ _ _ => True) (bytesInit G ι zc
      ((initRegion G.payloadBytes G.entryCount dtype owner.val).run Region.rawExec r).2) s) :
    (∃ s' : (channel G ι zc).Conf,
      Reach Pool.step (fun _ _ _ => True) (channelInit G ι zc dtype owner.val) s' ∧
      s'.hist = s.hist ∧ (∀ t, s'.ctl t = (s.ctl t).back) ∧ s'.mem.seg = s.mem.decode G) ∧
    s.mem.len = r.len ∧
    ∀ off, exactBytes G.payloadBytes G.entryCount ≤ off → s.mem.byte off = r.byte off := by
  obtain ⟨hdec, hlen, hbyte⟩ := hf.init_implements dtype owner
  have hf' := hf.of_len hlen
  constructor
  · obtain ⟨m, hm, hr⟩ := bytes_back hf' ⟨.init G dtype owner.val, [], [], []⟩ hdec h
    refine ⟨s.back m, ?_, rfl, fun _ => rfl, hm.symm⟩
    rwa [bytesInit_back] at hr
  · have hch := (bytesOutline G ι zc).changes (R := fun m m' => m'.len = m.len ∧
        ∀ off, (∀ q : Part G, ¬ q.Covers off) → m'.byte off = m.byte off)
      (fun _ => ⟨rfl, fun _ _ => rfl⟩)
      (fun _ _ _ h h' => ⟨h'.1.trans h.1, fun off ho => (h'.2 off ho).trans (h.2 off ho)⟩)
      (fun _ _ _ _ hg => hg.2) (bytesOutline_init hf') h
    refine ⟨hch.1.trans hlen, fun off ho => (hch.2 off fun q hq => ?_).trans (hbyte off ho)⟩
    have := hf.inside q
    unfold Part.Covers at hq
    omega

/-- A write and an acquire, on bytes that were `0` before. -/
theorem bytes_refine_pinned : ∃ s : (bytes (.tiny 0) Unit (some ())).Conf,
    s.hist (.reader ()) = [(.tryAcquire none, .tryAcquire (some ⟨Geometry.slot _ 0, 1⟩))] ∧
    ∃ s' : (channel (.tiny 0) Unit (some ())).Conf,
      Reach Pool.step (fun _ _ _ => True) (channelInit (.tiny 0) Unit (some ()) .u8 7) s' ∧
      s'.hist = s.hist ∧ s'.mem.seg = s.mem.decode (.tiny 0) := by
  let r := ((initRegion 8 1 .u8 7).run Region.rawExec (Region.zeroed 88)).2
  have hrun : (steps Pool.step (fun _ _ => true) (bytesInit (.tiny 0) Unit (some ()) r)
      (Pool.burst .writer (List.replicate 8 1) 14 ++
        Pool.burst (.reader ()) (ReaderCall.tryAcquire none) 4)).map (fun s =>
          (s.hist (.reader ()) : List (ReaderCall (.tiny 0) × ReaderOut (.tiny 0)))) =
      some [(.tryAcquire none, .tryAcquire (some ⟨Geometry.slot _ 0, 1⟩))] := by
    decide +kernel
  obtain ⟨s, hs, he⟩ := reach_eval hrun
  obtain ⟨⟨s', hr, hh, -, hseg⟩, -⟩ := bytes_refine (G := .tiny 0) (r := Region.zeroed 88)
    ⟨by decide, by decide⟩ .u8 ⟨7, by decide, by decide⟩ (hs.mono fun _ _ _ _ => trivial)
  exact ⟨s, he, s', hr, hh, hseg⟩

/-- The writer publishes the data of its calls. -/
def publishOutline (G : Geometry) (ι : Type) [DecidableEq ι] (zc : Option ι) :
    (channel G ι zc).Outline fun _ _ _ => True where
  glob _ := True
  con
    | .writer => publishing G
    | .reader _ => silent G
  idle
    | .writer, hs, _, h => h.log = written hs
    | .reader _, _, _, _ => True
  post
    | .writer, hs, data, a, h => h.log = written (hs ++ [(data, a.1)])
    | .reader _, _, _, _, _ => True
  refl
    | .writer, _, _, _ => rfl
    | .reader _, _, _, _ => trivial
  trans
    | .writer, _, _, _, _, h, h' => h'.trans h
    | .reader _, _, _, _, _, _, _ => trivial
  keep _ _ _ _ _ _ := trivial
  enter
    | .writer, hs, data, w, p, h, _, hi, hp => by
      cases hp
      exact (write_log w h hi).mono fun a _ ha => ha.trans (written_snoc hs data a.1).symm
    | .reader _, _, _, _, p, h, _, _, _ => silent_valid p h
  ret
    | .writer, _, _, _, _, h => h
    | .reader _, _, _, _, _, _ => trivial
  idle_env
    | .writer, _, _, _, _, h, hr => Eq.trans hr h
    | .reader _, _, _, _, _, _, _ => trivial
  post_env
    | .writer, _, _, _, _, _, h, hr => Eq.trans hr h
    | .reader _, _, _, _, _, _, _, _ => trivial
  ok
    | _, .writer, _, _, _ => trivial
    | _, .reader _, _, _, _ => trivial
  compat
    | _, .writer, _, .writer, _, _, _, hu, _, _, _, _ => absurd rfl hu
    | _, .writer, _, .reader _, _, _, _, _, _, _, _, _ => trivial
    | _, .reader _, _, .writer, _, _, _, _, _, _, _, hg => hg
    | _, .reader _, _, .reader _, _, _, _, _, _, _, _, _ => trivial

theorem publishOutline_init (dtype : Dtype) (owner : ℕ) :
    (publishOutline G ι zc).Holds (channelInit G ι zc dtype owner) := by
  refine ⟨trivial, fun t => ?_⟩
  cases t with
  | writer => rfl
  | reader r => trivial

/-- Nothing is published but the data of the calls of `write`, one by one. -/
theorem log_begun {dtype : Dtype} {owner : ℕ} {s : (channel G ι zc).Conf}
    (h : Reach Pool.step (fun _ _ _ => True) (channelInit G ι zc dtype owner) s) :
    s.mem.log <+: begun (s.hist .writer) (s.ctl .writer).call? := by
  have hL := (publishOutline G ι zc).reach (publishOutline_init dtype owner) h
  cases hc : s.ctl .writer with
  | idle w =>
    have hlog : s.mem.log = written (s.hist .writer) := (publishOutline G ι zc).at_idle (hL.2 _) hc
    rw [hlog]
    exact List.prefix_append _ _
  | busy data p =>
    -- what the call still publishes if it is left alone
    have hv := (publishOutline G ι zc).at_busy (hL.2 _) hc
    have hlog : (p.run (Hist.writerExec data) s.mem).2.log = _ :=
      (hv.to_alone (fun _ _ => rfl) fun _ => trivial).run
    have hgrow := Hist.writer_run_log data p s.mem
    rw [hlog] at hgrow
    exact hgrow.trans (written_begun _ _ _)

/-- **Delivery, from bytes to bytes.**  In every run of a writer and any number of one-copy
    readers on the bytes of an initialised region, their calls interleaved operation by
    operation, with fewer than `2 ^ 63 - 1` writes: a reader that is given entry `n` is
    given the data of the `n`-th successful call of `write`, byte for byte, and what a reader
    reads without an override is newer than what it read before. -/
theorem bytes_delivery {r : Region} (hf : r.Fits G) (dtype : Dtype) (owner : Pid)
    {s : (bytes G ι none).Conf} (h : Reach Pool.step (fun _ _ _ => True) (bytesInit G ι none
      ((initRegion G.payloadBytes G.entryCount dtype owner.val).run Region.rawExec r).2) s)
    (hn : (begun (s.hist .writer) (s.ctl .writer).call?).length < 2 ^ 63 - 1) (i : ι) :
    (∀ dst fromEntrySeq n dst',
      (.readInto dst fromEntrySeq, .readInto (.ok (some n)) dst') ∈ s.hist (.reader i) →
        0 < n ∧ (begun (s.hist .writer) (s.ctl .writer).call?)[n - 1]? = some dst') ∧
    ∀ pre dst₁ from₁ n₁ dst₁' mid dst₂ n₂ dst₂' post, s.hist (.reader i) =
        pre ++ (.readInto dst₁ from₁, .readInto (.ok (some n₁)) dst₁') :: mid ++
          (.readInto dst₂ none, .readInto (.ok (some n₂)) dst₂') :: post →
      (∀ dst f o, (.readInto dst (some f), o) ∉ mid) → n₁ < n₂ := by
  obtain ⟨hdec, hlen, -⟩ := hf.init_implements dtype owner
  obtain ⟨m, -, hr⟩ := bytes_back (hf.of_len hlen) ⟨.init G dtype owner.val, [], [], []⟩
    hdec h
  rw [bytesInit_back] at hr
  -- the log of the run on the segment
  have hlog : m.log <+: begun (s.hist .writer) (s.ctl .writer).call? := by
    have hcall : ((s.ctl .writer).back).call? = (s.ctl .writer).call? := by
      cases s.ctl .writer <;> rfl
    rw [← hcall]
    exact log_begun hr
  have hb := (hr.bounded (fun s => s.mem.log.length) (fun _ _ _ hs => (log_grows hs).length_le)
    (hlog.length_le.trans_lt hn)).mono fun _ _ _ h => h.2
  have hreads := readsOk_reach hb i
  refine ⟨fun dst f n dst' hm => ?_, fun _ _ _ _ _ _ _ _ _ _ he hm => hreads.increasing he hm⟩
  obtain ⟨hpos, hentry⟩ : 0 < n ∧ m.log[n - 1]? = some dst' := hreads.entry dst f n dst' hm
  obtain ⟨rest, hrest⟩ := hlog
  rw [← hrest, List.getElem?_append_left (List.getElem?_eq_some_iff.1 hentry).1]
  exact ⟨hpos, hentry⟩

/-- A write and a read, on bytes that were `255` before. -/
theorem bytes_delivery_dirty : ∃ s : (bytes (.tiny 0) Unit none).Conf,
    s.hist (.reader ()) = [(.readInto (List.replicate 8 0) none,
      .readInto (.ok (some 1)) [1, 2, 3, 4, 5, 6, 7, 8])] ∧
    (begun (s.hist .writer) (s.ctl .writer).call?)[1 - 1]? = some [1, 2, 3, 4, 5, 6, 7, 8] := by
  let r := ((initRegion 8 1 .u8 7).run Region.rawExec ⟨88, fun _ => 255⟩).2
  have hrun : (steps Pool.step (fun _ _ => true) (bytesInit (.tiny 0) Unit none r)
      (Pool.burst .writer [1, 2, 3, 4, 5, 6, 7, 8] 14 ++
        Pool.burst (.reader ()) (ReaderCall.readInto (List.replicate 8 0) none) 12)).map (fun s =>
          ((s.hist (.reader ()) : List (ReaderCall (.tiny 0) × ReaderOut (.tiny 0))),
            (begun (s.hist .writer) (s.ctl .writer).call?).length)) =
      some ([(.readInto (List.replicate 8 0) none,
        .readInto (.ok (some 1)) [1, 2, 3, 4, 5, 6, 7, 8])], 1) := by
    decide +kernel
  obtain ⟨s, hs, he⟩ := reach_eval hrun
  obtain ⟨hh, hlen⟩ := Prod.mk.inj he
  have hd := bytes_delivery (G := .tiny 0) (r := ⟨88, fun _ => 255⟩) ⟨by decide, by decide⟩ .u8
    ⟨7, by decide, by decide⟩ (hs.mono fun _ _ _ _ => trivial) (by rw [hlen]; norm_num) ()
  exact ⟨s, hh, (hd.1 _ _ _ _ (by rw [hh]; exact List.mem_cons_self)).2⟩

end

end ZeroChannel
