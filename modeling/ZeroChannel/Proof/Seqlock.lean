/-
  The seqlock of the one-copy path.

  A slot word goes from a number to `0` to a larger number and never back: a
  number that has left a slot does not return to it.  So if `read_into` finds the
  number it located still in place after its copy, the slot held that entry
  throughout the copy.
-/
import ZeroChannel.Proof.Ops

namespace ZeroChannel

open Concur

variable {G : Geometry}

/-! ## The invariant -/

/-- Words are numbers of published entries, on the payload published as them. -/
structure SeqInv (h : Hist G) : Prop where
  bound : h.log.length < 2 ^ 63
  range : ∀ i, 0 ≤ h.seg.words i ∧ h.seg.words i ≤ h.log.length
  data : ∀ i (n : ℕ), 0 < n → h.seg.words i = n →
    h.log[n - 1]? = some (bytesOf (h.seg.payload i))

/-- What the writer does between two moments: the log grows, and a number that is
    not in a slot does not come back to it. -/
structure Forward (h h' : Hist G) : Prop where
  inv : SeqInv h'
  log : h.log <+: h'.log
  gone : ∀ i (n : ℕ), 0 < n → n ≤ h.log.length → h.seg.words i ≠ n → h'.seg.words i ≠ n

theorem Forward.refl {h : Hist G} (hI : SeqInv h) : Forward h h :=
  ⟨hI, List.prefix_rfl, fun _ _ _ _ h => h⟩

theorem Forward.trans {h₁ h₂ h₃ : Hist G} (h : Forward h₁ h₂) (h' : Forward h₂ h₃) :
    Forward h₁ h₃ :=
  ⟨h'.inv, h.log.trans h'.log, fun i n hn hl hw =>
    h'.gone i n hn (hl.trans h.log.length_le) (h.gone i n hn hl hw)⟩

namespace SeqInv
variable {h : Hist G} (hI : SeqInv h)
include hI

theorem setHdr (w : HeaderWord) (v : ℕ) : Forward h { h with seg := h.seg.setHdr w v } :=
  ⟨⟨hI.bound, hI.range, hI.data⟩, List.prefix_rfl, fun _ _ _ _ h => h⟩

theorem clear (i : Slot G) : Forward h { h with seg := h.seg.setWord i 0 } := by
  refine ⟨⟨hI.bound, fun j => ?_, fun j n hn hj => ?_⟩, List.prefix_rfl, fun j n hn _ hj => ?_⟩
  · simp only [Segment.setWord_words]
    split_ifs
    · omega
    · exact hI.range j
  · simp only [Segment.setWord_words] at hj
    split_ifs at hj
    · omega
    · exact hI.data j n hn hj
  · simp only [Segment.setWord_words]
    split_ifs
    · omega
    · exact hj

theorem byte {i : Slot G} (hi : h.seg.words i = 0) (j : Fin G.payloadBytes) (b : UInt8) :
    Forward h { h with seg := h.seg.setByte i j b } := by
  refine ⟨⟨hI.bound, hI.range, fun k n hn hk => ?_⟩, List.prefix_rfl, fun _ _ _ _ h => h⟩
  have hki : k ≠ i := by rintro rfl; rw [Segment.setByte_words, hi] at hk; omega
  rw [Segment.setByte_ne _ hki]; exact hI.data k n hn hk

theorem publish {i : Slot G} {data : List UInt8} (hd : bytesOf (h.seg.payload i) = data)
    (hb : h.log.length + 1 < 2 ^ 63) :
    Forward h (h.put i ↑(h.log.length + 1) data) := by
  refine ⟨⟨by simpa using hb, fun j => ?_, fun j n hn hj => ?_⟩, List.prefix_append _ _,
    fun j n hn hl hj => ?_⟩
  · have := hI.range j
    simp only [Hist.put_seg, Hist.put_log, Segment.setWord_words, List.length_append,
      List.length_singleton]
    split_ifs <;> omega
  · simp only [Hist.put_seg, Hist.put_log, Segment.setWord_words, Segment.setWord_payload] at hj ⊢
    split_ifs at hj with hji
    · subst hji hd
      obtain rfl : n = h.log.length + 1 := by omega
      simp
    · have := hI.range j
      rw [List.getElem?_append_left (by omega)]
      exact hI.data j n hn hj
  · simp only [Hist.put_seg, Segment.setWord_words]
    split_ifs
    · omega
    · exact hj

end SeqInv

/-! ## The writer -/

/-- The writer is the only party that changes anything. -/
def seqWriter (G : Geometry) : Contract (segSig G) (Hist G) where
  ok h := h.log.length < 2 ^ 63 - 1
  rely _ h h' := h' = h
  guar _ := Forward

section
variable (data : List UInt8)

theorem claimFrom_seq (w : RawWriter G) : ∀ (k n : ℕ) (h : Hist G), SeqInv h →
    Valid (Hist.writerExec data) (seqWriter G)
      (fun a h' => SeqInv h' ∧ h'.log = h.log ∧ ∀ i, a = .ok i → h'.seg.words i = 0)
      (w.claimFrom n k) h := by
  intro k
  induction k with
  | zero =>
    intro n h hI
    exact ⟨hI, rfl, fun _ h => by cases h⟩
  | succ k ih =>
    intro n h hI
    refine (writer_loadSeq fun h₁ hr _ => ?_).bind
    obtain rfl := hr
    refine ⟨Forward.refl hI, ?_⟩
    split_ifs with hneg
    · exact ih (n + 1) _ hI
    · refine (writer_clearSeq fun h₂ hr₂ _ => ?_).bind
      obtain rfl := hr₂
      have hF := hI.clear (G.slot (w.currentIndex.val + n))
      exact ⟨hF, hF.inv, rfl, fun i hi => by cases hi; exact Segment.setWord_self ..⟩

theorem copyIn_seq {i : Slot G} (b : Block G) {h : Hist G} (hI : SeqInv h)
    (hi : h.seg.words i = 0) :
    Valid (Hist.writerExec data) (seqWriter G)
      (fun _ h' => SeqInv h' ∧ h'.log = h.log ∧ h'.seg.payload i = b)
      (RawWriter.copyIn i b) h := by
  refine (Valid.foldlM (I := fun js _ h' => SeqInv h' ∧ h'.log = h.log ∧ h'.seg.words i = 0 ∧
    ∀ j, j ∉ js → h'.seg.payload i j = b j) (fun j js _ h₁ hA => ?_) _ _ _
      ⟨hI, rfl, hi, fun j hj => absurd (List.mem_finRange j) hj⟩).mono
    fun _ h hA => ⟨hA.1, hA.2.1, funext fun j => hA.2.2.2 j List.not_mem_nil⟩
  obtain ⟨hI, hlog, hi, hb⟩ := hA
  refine writer_storeByte fun h₂ hr _ => ?_
  obtain rfl := hr
  have hF := hI.byte hi j (b j)
  refine ⟨hF, hF.inv, hlog, hi, fun j' hj' => ?_⟩
  rw [Segment.setByte_self]
  split_ifs with hjj
  · rw [hjj]
  · exact hb j' fun hm => (List.mem_cons.1 hm).elim hjj hj'

theorem publish_seq {w : RawWriter G} {i : Slot G} {h : Hist G} (hI : SeqInv h)
    (hw : w.lastEntrySeq = h.log.length) (hd : bytesOf (h.seg.payload i) = data) :
    Valid (Hist.writerExec data) (seqWriter G)
      (fun a h => a.2.lastEntrySeq = h.log.length) (w.publish i) h := by
  refine (writer_storeSeq fun h₁ hr ho => ?_).bind
  obtain rfl := hr
  have hb : h₁.log.length + 1 < 2 ^ 63 - 1 := by simpa [seqWriter] using ho
  have hn : u64 (w.lastEntrySeq + 1) = h₁.log.length + 1 := by rw [hw, u64_of_lt (by omega)]
  have hF := hI.publish hd (by omega)
  rw [hn, asI64_of_lt (by omega)]
  refine ⟨hF, ?_⟩
  refine (writer_storeHdr fun h₂ hr₂ _ => ?_).bind
  obtain rfl := hr₂
  have hF₂ := hF.inv.setHdr .writeIndex (G.slot (i.val + 1)).val
  refine ⟨hF₂, ?_⟩
  refine (writer_storeHdr fun h₃ hr₃ _ => ?_).bind
  obtain rfl := hr₃
  refine ⟨hF₂.inv.setHdr _ _, ?_⟩
  simp

theorem write_seq {w : RawWriter G} {h : Hist G} (hI : SeqInv h)
    (hw : w.lastEntrySeq = h.log.length) :
    Valid (Hist.writerExec data) (seqWriter G)
      (fun a h => a.2.lastEntrySeq = h.log.length) (w.write data) h := by
  unfold RawWriter.write
  split_ifs with hlen
  · exact hw
  · refine ((claimFrom_seq data w _ 0 h hI).mono fun a h₁ ⟨hI₁, hl₁, ha⟩ => ?_).bind
    match a with
    | .error e => exact hw.trans (by rw [hl₁])
    | .ok i =>
      refine ((copyIn_seq data (blockOf data) hI₁ (ha i rfl)).mono
        fun _ h₂ ⟨hI₂, hl₂, hb⟩ => ?_).bind
      refine ((publish_seq data hI₂ (hw.trans (by rw [hl₂, hl₁])) ?_).mono fun a h hw => hw).bind
      rw [hb]; exact bytesOf_blockOf (not_not.1 hlen)

end

/-! ## The readers -/

/-- A one-copy reader changes nothing. -/
def seqReader (G : Geometry) : Contract (segSig G) (Hist G) where
  ok _ := True
  rely _ := Forward
  guar _ h h' := h' = h

/-- The number a completed call has read. -/
def entryRead : ReaderCall G × ReaderOut G → Option ℕ
  | (.readInto _ _, .readInto (.ok (some n)) _) => some n
  | _ => none

/-- The number read last. -/
def lastRead (hs : List (ReaderCall G × ReaderOut G)) : ℕ := (hs.filterMap entryRead).getLastD 0

@[simp] theorem lastRead_nil : lastRead ([] : List (ReaderCall G × ReaderOut G)) = 0 := rfl

@[simp] theorem lastRead_snoc (hs : List (ReaderCall G × ReaderOut G)) (x) :
    lastRead (hs ++ [x]) = (entryRead x).getD (lastRead hs) := by
  unfold lastRead
  cases h : entryRead x <;> simp [h]

/-- Entry `n` was published as `bytes`. -/
def IsEntry (log : List (List UInt8)) (n : ℕ) (bytes : List UInt8) : Prop :=
  0 < n ∧ log[n - 1]? = some bytes

/-- What is known of the calls a reader has completed: each entry read is the one
    published under its number, and is newer than the watermark of its call. -/
structure ReadsOk (log : List (List UInt8)) (hs : List (ReaderCall G × ReaderOut G)) : Prop where
  entry : ∀ dst fromEntrySeq n dst',
    (.readInto dst fromEntrySeq, .readInto (.ok (some n)) dst') ∈ hs → IsEntry log n dst'
  newer : ∀ pre dst n dst' post,
    hs = pre ++ (.readInto dst none, .readInto (.ok (some n)) dst') :: post → lastRead pre < n

namespace ReadsOk
variable {log log' : List (List UInt8)} {hs : List (ReaderCall G × ReaderOut G)}

theorem nil : ReadsOk log ([] : List (ReaderCall G × ReaderOut G)) :=
  ⟨nofun, fun pre _ _ _ _ h => by cases pre <;> cases h⟩

theorem log_mono (h : ReadsOk log hs) (hl : log <+: log') : ReadsOk log' hs := by
  refine ⟨fun dst f n dst' hm => ?_, h.newer⟩
  obtain ⟨hn, hd⟩ := h.entry dst f n dst' hm
  obtain ⟨t, rfl⟩ := hl
  exact ⟨hn, by rw [List.getElem?_append_left (List.getElem?_eq_some_iff.1 hd).1, hd]⟩

/-- One more call. -/
theorem snoc (h : ReadsOk log hs) {x : ReaderCall G × ReaderOut G}
    (hx : ∀ dst fromEntrySeq n dst', x = (.readInto dst fromEntrySeq, .readInto (.ok (some n)) dst') →
      IsEntry log n dst' ∧ (fromEntrySeq = none → lastRead hs < n)) : ReadsOk log (hs ++ [x]) := by
  refine ⟨fun dst f n dst' hm => ?_, fun pre dst n dst' post he => ?_⟩
  · rcases List.mem_append.1 hm with hm | hm
    · exact h.entry dst f n dst' hm
    · exact (hx dst f n dst' (List.mem_singleton.1 hm).symm).1
  · rcases List.eq_nil_or_concat post with rfl | ⟨post, y, rfl⟩
    · obtain ⟨rfl, hy⟩ := List.append_inj' he rfl
      exact (hx dst none n dst' (List.cons.inj hy).1).2 rfl
    · rw [List.concat_eq_append, ← List.cons_append, ← List.append_assoc] at he
      exact h.newer pre dst n dst' post (List.append_inj' he rfl).1

/-- Calls without an override never lower the bookmark. -/
theorem lastRead_mono (h : ReadsOk log hs) : ∀ (mid pre post : List (ReaderCall G × ReaderOut G)),
    hs = pre ++ mid ++ post → (∀ dst f o, (.readInto dst (some f), o) ∉ mid) →
      lastRead pre ≤ lastRead (pre ++ mid)
  | [], pre, _, _, _ => by simp
  | x :: mid, pre, post, he, hm => by
    have hx : lastRead pre ≤ lastRead (pre ++ [x]) := by
      rw [lastRead_snoc]
      match x, he, hm with
      | (.readInto dst none, .readInto (.ok (some n)) dst'), he, _ =>
        exact (h.newer pre dst n dst' (mid ++ post) (by simpa using he)).le
      | (.readInto dst (some f), o), _, hm => exact absurd List.mem_cons_self (hm dst f o)
      | (.readInto _ none, .readInto (.ok none) _), _, _ => exact le_rfl
      | (.readInto _ none, .readInto (.error _) _), _, _ => exact le_rfl
      | (.readInto _ none, .tryAcquire _), _, _ => exact le_rfl
      | (.readInto _ none, .release), _, _ => exact le_rfl
      | (.tryAcquire _, _), _, _ => exact le_rfl
      | (.release _, _), _, _ => exact le_rfl
    have := lastRead_mono h mid (pre ++ [x]) post (by simpa using he)
      fun dst f o ho => hm dst f o (List.mem_cons_of_mem _ ho)
    exact hx.trans (by simpa using this)

/-- What is read without an override is newer than what was read before. -/
theorem increasing (h : ReadsOk log hs) {pre mid post : List (ReaderCall G × ReaderOut G)}
    {dst₁ dst₁' dst₂ dst₂' : List UInt8} {from₁ : Option ℕ} {n₁ n₂ : ℕ}
    (he : hs = pre ++ (.readInto dst₁ from₁, .readInto (.ok (some n₁)) dst₁') :: mid ++
      (.readInto dst₂ none, .readInto (.ok (some n₂)) dst₂') :: post)
    (hm : ∀ dst f o, (.readInto dst (some f), o) ∉ mid) : n₁ < n₂ := by
  have h₁ := h.lastRead_mono mid (pre ++ [(.readInto dst₁ from₁, .readInto (.ok (some n₁)) dst₁')])
    ((.readInto dst₂ none, .readInto (.ok (some n₂)) dst₂') :: post) (by rw [he]; simp) hm
  have h₂ := h.newer _ _ _ _ _ he
  rw [lastRead_snoc, List.append_assoc] at h₁
  exact h₁.trans_lt h₂

end ReadsOk

/-- What is known of a reader between two operations. -/
def SeqAt (hs : List (ReaderCall G × ReaderOut G)) (h : Hist G) : Prop :=
  SeqInv h ∧ ReadsOk h.log hs

theorem SeqAt.rely {hs : List (ReaderCall G × ReaderOut G)} {h h' : Hist G} (hr : Forward h h')
    (ha : SeqAt hs h) : SeqAt hs h' := ⟨hr.inv, ha.2.log_mono hr.log⟩

/-- A byte of slot `i` loaded as byte `j` of entry `n`: the slot no longer holds
    the entry, or the byte is that of the entry. -/
def ByteOf (i : Slot G) (n : ℕ) (j : Fin G.payloadBytes) (b : UInt8) (h : Hist G) : Prop :=
  0 < n ∧ n ≤ h.log.length ∧
    (h.seg.words i = n → ∃ d, h.log[n - 1]? = some d ∧ d[j.val]? = some b)

theorem ByteOf.rely {i : Slot G} {n : ℕ} {j : Fin G.payloadBytes} {b : UInt8} {h h' : Hist G}
    (hr : Forward h h') (hb : ByteOf i n j b h) : ByteOf i n j b h' := by
  obtain ⟨hn, hl, hd⟩ := hb
  refine ⟨hn, hl.trans hr.log.length_le, fun hw => ?_⟩
  obtain ⟨d, hd, hj⟩ := hd (by_contra fun hne => hr.gone i n hn hl hne hw)
  obtain ⟨t, ht⟩ := hr.log
  exact ⟨d, by rw [← ht, List.getElem?_append_left (by omega), hd], hj⟩

theorem readInto_seq {hs : List (ReaderCall G × ReaderOut G)} (r : RawReader G) (dst : List UInt8)
    (fromEntrySeq : Option ℕ) {h : Hist G} (ha : SeqAt hs h) :
    Valid Hist.readerExec (seqReader G)
      (fun a h => SeqAt hs h ∧ ((∀ n, a.1 ≠ .ok (some n)) → a.2.1 = r) ∧
        ∀ n, a.1 = .ok (some n) → a.2.1.lastEntrySeq = n ∧
          fromEntrySeq.getD r.lastEntrySeq < n ∧ IsEntry h.log n a.2.2)
      (r.readInto dst fromEntrySeq) h := by
  have hlt : ∀ (h : Hist G) i, SeqAt hs h → h.seg.words i < 2 ^ 63 := fun h i ha => by
    have := ha.1.range i; have := ha.1.bound; omega
  refine (valid_readInto (K := fun _ n h => 0 < n ∧ n ≤ h.log.length) (C := ByteOf)
    (reader_loads fun _ _ _ _ _ => rfl) (fun _ _ _ => SeqAt.rely)
    (fun _ _ _ _ _ (hr : Forward _ _) h => ⟨h.1, h.2.trans hr.log.length_le⟩) hlt
    (fun h i ha h₁ => ⟨by omega, by have := ha.1.range i; omega⟩)
    (fun _ _ _ _ _ _ _ => ByteOf.rely) (fun h i n j ha hn => ?_) r dst fromEntrySeq ha).mono
    fun a h' ⟨ha', hlen, hnone, hsome⟩ => ⟨ha', hnone, fun n hn => ?_⟩
  · exact ⟨hn.1, hn.2, fun hw => ⟨_, ha.1.data i n hn.1 hw, by simp [bytesOf]⟩⟩
  · obtain ⟨hdst, i, hr, hw, ⟨hpos, hl⟩, hword, hbytes⟩ := hsome n hn
    rw [asI64_of_lt (by have := ha'.1.bound; omega)] at hword
    refine ⟨by rw [hr], hw, hpos, ?_⟩
    rw [ha'.1.data i n hpos hword]
    refine congrArg some (List.ext_getElem (by simp [bytesOf, hlen, hdst]) fun j hj hj' => ?_)
    -- the slot holds the entry, so each byte loaded is that of the entry
    obtain ⟨-, -, hb⟩ := hbytes ⟨j, by simpa [bytesOf] using hj⟩ _ (List.getElem?_eq_getElem hj')
    obtain ⟨d, hd, hdj⟩ := hb hword
    rw [ha'.1.data i n hpos hword, Option.some.injEq] at hd
    subst hd
    rw [List.getElem?_eq_getElem hj, Option.some.injEq] at hdj
    exact hdj

/-! ## Runs -/

section
variable {ι : Type} [DecidableEq ι]

/-- What holds of a party between its calls. -/
def seqIdle : ∀ t, List ((channel G ι none).Call t × (channel G ι none).Out t) →
    (channel G ι none).Loc t → Hist G → Prop
  | .writer, _, w, h => w.lastEntrySeq = h.log.length
  | .reader _, hs, l, h => l.handles = [] ∧ l.raw.lastEntrySeq = lastRead hs ∧ SeqAt hs h

/-- **The proof outline**, for runs of fewer than `2 ^ 63 - 1` writes. -/
def seqOutline (G : Geometry) (ι : Type) [DecidableEq ι] :
    (channel G ι none).Outline fun _ _ s' => s'.mem.log.length < 2 ^ 63 - 1 where
  glob := SeqInv
  con
    | .writer => seqWriter G
    | .reader _ => seqReader G
  idle := seqIdle
  post t hs c r := seqIdle t (hs ++ [(c, r.1)]) r.2
  refl
    | .writer, _, _, _ => rfl
    | .reader _, _, _, h => Forward.refl h
  trans
    | .writer, _, _, _, _, h, h' => h'.trans h
    | .reader _, _, _, _, _, h, h' => h.trans h'
  keep
    | .writer, _, _, _, h, _ => h.inv
    | .reader _, _, _, _, h, hg => h ▸ hg
  enter
    | .writer, _, data, w, p, h, hI, hi, hp => by cases hp; exact write_seq data hI hi
    | .reader r, hs, c, l, p, h, hI, ⟨hnil, hmark, ha⟩, hp => by
      cases c with
      | readInto dst fromEntrySeq =>
        cases hp
        refine ((readInto_seq l.raw dst fromEntrySeq ha).mono
          fun a h' ⟨ha', hnone, hsome⟩ => ?_).bind
        obtain ⟨res, raw, dst'⟩ := a
        refine ⟨hnil, ?_, ha'.1, ha'.2.snoc fun dst₁ f n dst₁' he => ?_⟩
        · refine Eq.trans ?_ (lastRead_snoc hs (.readInto dst fromEntrySeq, .readInto res dst')).symm
          match res, hnone, hsome with
          | .ok (some n), _, hsome => exact (hsome n rfl).1
          | .ok none, hnone, _ => exact (congrArg _ (hnone (by simp))).trans hmark
          | .error e, hnone, _ => exact (congrArg _ (hnone (by simp))).trans hmark
        · cases he
          obtain ⟨-, hlt, hentry⟩ := hsome n rfl
          exact ⟨hentry, fun hf => by subst hf; rwa [← hmark]⟩
      | tryAcquire fromEntrySeq => simp [channel, ReaderLoc.enter] at hp
      | release x => simp [channel, ReaderLoc.enter, hnil] at hp
  ret _ _ _ _ _ h := h
  idle_env
    | .writer, _, _, _, _, hi, hr => hr ▸ hi
    | .reader _, _, _, _, _, hi, hr => ⟨hi.1, hi.2.1, hi.2.2.rely hr⟩
  post_env
    | .writer, _, _, _, _, _, hi, hr => hr ▸ hi
    | .reader _, _, _, _, _, _, hi, hr => ⟨hi.1, hi.2.1, hi.2.2.rely hr⟩
  ok
    | _, .writer, _, _, h => h
    | _, .reader _, _, _, _ => trivial
  compat
    | _, .writer, _, .writer, _, _, _, hu, _, _, _, _ => absurd rfl hu
    | _, .writer, _, .reader _, _, _, _, _, _, _, _, hr => hr
    | _, .reader _, _, .writer, _, _, _, _, _, _, _, hr => hr
    | _, .reader _, _, .reader _, _, _, _, _, _, hg, _, hr => by rw [hr]; exact Forward.refl hg

theorem seqOutline_init (dtype : Dtype) (owner : ℕ) :
    (seqOutline G ι).Holds (channelInit G ι none dtype owner) := by
  have hI : SeqInv (channelInit G ι none dtype owner).mem :=
    ⟨by norm_num [channelInit], fun _ => by simp [channelInit, Segment.init],
      fun _ _ hn h => by simp [channelInit, Segment.init] at h; omega⟩
  refine ⟨hI, fun t => ?_⟩
  cases t with
  | writer => rfl
  | reader r => exact ⟨rfl, rfl, hI, .nil⟩

/-- The log only grows. -/
theorem log_grows {zc : Option ι} {s s' : (channel G ι zc).Conf} {a : (channel G ι zc).Act}
    (h : Pool.step s a = some s') : s.mem.log <+: s'.mem.log := by
  rcases Pool.step_cases h with ⟨_, _, _, _, -, -, -, rfl⟩ | ⟨_, _, _, _, -, -, rfl⟩ |
    ⟨t, c, o, k, -, -, rfl⟩
  · exact List.prefix_rfl
  · exact List.prefix_rfl
  · cases t with
    | writer => exact Hist.writerExec_log c o s.mem
    | reader r => exact (Hist.readerExec_log o s.mem).symm ▸ List.prefix_rfl

/-- Throughout a run, every completed call is as it should be. -/
theorem readsOk_reach {dtype : Dtype} {owner : ℕ} {s : (channel G ι none).Conf}
    (h : Reach Pool.step (fun _ _ s' => s'.mem.log.length < 2 ^ 63 - 1)
      (channelInit G ι none dtype owner) s) (r : ι) :
    ReadsOk s.mem.log (s.hist (.reader r)) := by
  induction h with
  | refl => exact .nil
  | tail h hs hp ih =>
    have hL := (seqOutline G ι).reach (seqOutline_init dtype owner) h
    rcases Pool.step_cases hs with ⟨_, _, _, _, -, -, -, rfl⟩ | ⟨t, c, o, l, -, hl, rfl⟩ |
      ⟨_, _, _, _, -, -, rfl⟩
    · exact ih
    · by_cases ht : .reader r = t
      · subst ht
        simpa only [Function.update_self] using ((seqOutline G ι).returned hL hl).2.2.2
      · simpa only [Function.update_of_ne ht] using ih
    · exact ih.log_mono (log_grows hs)

/-- **Integrity of the one-copy path.**  In every run of fewer than `2 ^ 63 - 1`
    writes, an entry a reader has read is the one published under its number, and
    what a reader reads without an override is newer than what it read before. -/
theorem seqlock_integrity {dtype : Dtype} {owner : ℕ} {s : (channel G ι none).Conf}
    (h : Reach Pool.step (fun _ _ _ => True) (channelInit G ι none dtype owner) s)
    (hlog : s.mem.log.length < 2 ^ 63 - 1) (r : ι) :
    (∀ dst fromEntrySeq n dst',
      (.readInto dst fromEntrySeq, .readInto (.ok (some n)) dst') ∈ s.hist (.reader r) →
        0 < n ∧ s.mem.log[n - 1]? = some dst') ∧
    ∀ pre dst₁ from₁ n₁ dst₁' mid dst₂ n₂ dst₂' post, s.hist (.reader r) =
        pre ++ (.readInto dst₁ from₁, .readInto (.ok (some n₁)) dst₁') :: mid ++
          (.readInto dst₂ none, .readInto (.ok (some n₂)) dst₂') :: post →
      (∀ dst f o, (.readInto dst (some f), o) ∉ mid) → n₁ < n₂ := by
  have hR := h.bounded (fun s => s.mem.log.length) (fun _ _ _ hs => (log_grows hs).length_le) hlog
  have hreads := readsOk_reach (hR.mono fun _ _ _ h => h.2) r
  exact ⟨hreads.entry, fun _ _ _ _ _ _ _ _ _ _ he hm => hreads.increasing he hm⟩

/-- A second write recycles the slot between the reader's scan and its copy; the
    reader returns the second entry. -/
theorem seqlock_integrity_overrun : ∃ s : (channel (.tiny 0) Unit none).Conf,
    s.hist (.reader ()) = [(.readInto (List.replicate 8 0) none,
      .readInto (.ok (some 2)) (List.replicate 8 2))] ∧
    s.mem.log[2 - 1]? = some (List.replicate 8 2) := by
  have hrun : (steps Pool.step (fun _ _ => true) (channelInit (.tiny 0) Unit none .u8 7)
      (List.flatten [Pool.burst .writer (List.replicate 8 1) 14,
        Pool.burst (.reader ()) (.readInto (List.replicate 8 0) none) 2,
        Pool.burst .writer (List.replicate 8 2) 14,
        List.replicate 21 (.move (.reader ()))])).map (fun s =>
          ((s.hist (.reader ()) : List (ReaderCall (.tiny 0) × ReaderOut (.tiny 0))),
            s.mem.log.length)) =
      some ([(.readInto (List.replicate 8 0) none,
        .readInto (.ok (some 2)) (List.replicate 8 2))], 2) := by
    decide +kernel
  obtain ⟨s, hs, he⟩ := reach_eval hrun
  obtain ⟨hh, hl⟩ := Prod.mk.inj he
  refine ⟨s, hh, ?_⟩
  exact ((seqlock_integrity (hs.mono fun _ _ _ _ => trivial) (by rw [hl]; norm_num) ()).1
    (List.replicate 8 0) none 2 (List.replicate 8 2) (by rw [hh]; exact List.mem_cons_self)).2

end

end ZeroChannel
