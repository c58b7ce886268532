/-
  A header is read whole or not at all.

  As long as the magic is missing, no initialisation has been completed; the one that
  stores it has stored the rest before, and nobody stores anything afterwards.
-/
import ZeroChannel.Latch
import ZeroChannel.Proof.Decode

namespace ZeroChannel

open Concur

/-- The header that the initialisation leaves. -/
structure InitArgs.Stored (a : InitArgs) (r : Region) : Prop where
  magic : r.hdr .magic = MAGIC_VERSION
  payload : r.hdr .payloadBytes = a.geometry.payloadBytes
  count : r.hdr .entryCount = a.geometry.entryCount
  dtype : r.hdr .dtype = a.dtype.code
  owner : r.hdr .segmentOwner = a.owner.val

/-- The header describes the geometry and the type of the initialisation. -/
structure InitArgs.Describes (a : InitArgs) (h : Header) : Prop where
  payload : h.payloadBytes = a.geometry.payloadBytes
  count : h.entryCount = a.geometry.entryCount
  dtype : h.dtype = a.dtype.code

theorem Dtype.code_lt (d : Dtype) : d.code < 2 ^ 64 := by
  cases d <;> decide

namespace Latch

/-- Nothing is completed while there is no magic, and then one initialisation is. -/
def Sound (m : Latch) : Prop :=
  (m.done = [] ∧ m.region.hdr .magic = 0) ∨ ∃ a, m.done = [a] ∧ a.Stored m.region

/-- What a completed initialisation leaves to others. -/
def Later (m m' : Latch) : Prop := (m.done ≠ [] → m' = m) ∧ (m.Sound → m'.Sound)

theorem Later.refl (m : Latch) : Later m m := ⟨fun _ => rfl, id⟩

theorem Later.trans {m m' m'' : Latch} (h : Later m m') (h' : Later m' m'') : Later m m'' := by
  refine ⟨fun hd => ?_, h'.2 ∘ h.2⟩
  have he := h.1 hd
  rw [h'.1 (he ▸ hd), he]

/-- The header of a segment without magic may be prepared. -/
theorem Later.prepare {m : Latch} {r : Region} (hd : m.done = []) (hr : r.hdr .magic = 0) :
    Later m ⟨r, m.done⟩ := ⟨fun h => absurd hd h, fun _ => Or.inl ⟨hd, hr⟩⟩

/-- An answer to a reader: nothing, or the header of the completed initialisation. -/
def Answer (m : Latch) : Except ZeroChannelError (Option Header) → Prop
  | .ok none => True
  | .ok (some h) => ∃ a, m.done = [a] ∧ a.Describes h
  | .error _ => False

theorem Answer.later {m m' : Latch} {o : Except ZeroChannelError (Option Header)} (h : m.Answer o)
    (hl : Later m m') : m'.Answer o := by
  rcases o with e | _ | x
  · exact h
  · trivial
  · obtain ⟨a, ha, hx⟩ := h
    obtain rfl := hl.1 (by rw [ha]; exact List.cons_ne_nil _ _)
    exact ⟨a, ha, hx⟩

end Latch

open Latch

/-! ## Reading -/

/-- The contract of a reader. -/
def readCon : Contract rawSig Latch where
  ok _ := True
  rely _ m m' := Later m m'
  guar _ m m' := m' = m

section
variable {α : Type} {w : HeaderWord} {m : Latch}

/-- A load sees the header as the initialiser has left it by then. -/
theorem load_read {f : ℕ → Prog rawSig α} {Q : α → Latch → Prop}
    (hk : ∀ m' v, Later m m' → m'.region.hdr w = v → Valid Latch.exec readCon Q (f v) m') :
    Valid Latch.exec readCon Q ((Prog.op (.load w) .pure : Prog rawSig ℕ) >>= f) m := by
  rw [Prog.op_bind, valid_op]
  intro m' h _
  have hex : Latch.exec (.load w) m' = (m'.region.hdr w, m') := rfl
  rw [hex]
  exact ⟨rfl, hk m' _ h rfl⟩

end

/-- **Reading a header.**  Once an initialisation is completed, the answer is its
    header. -/
theorem read_valid {m : Latch} (hm : m.Sound) :
    Valid Latch.exec readCon (fun o m' => m'.Answer o ∧ (m.done ≠ [] → o ≠ .ok none))
      readRegion m := by
  unfold readRegion readHeader
  refine load_read fun m₁ v h₁ hv => ?_
  rcases h₁.2 hm with ⟨hd, hz⟩ | ⟨a, hd, ha⟩
  · rw [if_pos (hv.symm.trans hz)]
    refine ⟨trivial, fun hne => absurd hd ?_⟩
    rw [h₁.1 hne]
    exact hne
  · have hne : m₁.done ≠ [] := by rw [hd]; exact List.cons_ne_nil _ _
    have hv : v = MAGIC_VERSION := hv.symm.trans ha.magic
    rw [if_neg (by rw [hv]; decide), if_neg (not_not.2 hv)]
    -- the other loads find the memory unchanged
    refine load_read fun m₂ payloadBytes h₂ hpayload => ?_
    obtain rfl := h₂.1 hne
    refine load_read fun m₃ entryCount h₃ hcount => ?_
    obtain rfl := h₃.1 hne
    refine load_read fun m₄ _ h₄ _ => ?_
    obtain rfl := h₄.1 hne
    refine load_read fun m₅ dtype h₅ hdtype => ?_
    obtain rfl := h₅.1 hne
    refine load_read fun m₆ _ h₆ _ => ?_
    obtain rfl := h₆.1 hne
    refine ⟨⟨a, hd, hpayload.symm.trans ha.payload, hcount.symm.trans ha.count,
      hdtype.symm.trans ha.dtype⟩, ?_⟩
    rintro - ⟨⟩

/-! ## Initialising -/

/-- The contract of the initialiser. -/
def initCon : Contract rawSig Latch where
  ok _ := True
  rely _ := Eq
  guar _ := Later

section
variable {a : InitArgs} {α : Type} {w : HeaderWord} {m : Latch}

/-- A load of the initialiser, which alone stores. -/
theorem load_init {f : ℕ → Prog rawSig α} {Q : α → Latch → Prop}
    (hk : ∀ v, m.region.hdr w = v → Valid (initExec a) initCon Q (f v) m) :
    Valid (initExec a) initCon Q ((Prog.op (.load w) .pure : Prog rawSig ℕ) >>= f) m := by
  rw [Prog.op_bind, valid_op]
  rintro _ rfl -
  have hex : initExec a (.load w) m = (m.region.hdr w, m) := rfl
  rw [hex]
  exact ⟨.refl m, hk _ rfl⟩

/-- A store of the header before the magic. -/
theorem store_init {v : ℕ} {f : Unit → Prog rawSig α} {Q : α → Latch → Prop} (hw : w ≠ .magic)
    (hd : m.done = []) (hz : m.region.hdr .magic = 0)
    (hk : Valid (initExec a) initCon Q (f ()) ⟨m.region.setWord w.off v, m.done⟩) :
    Valid (initExec a) initCon Q ((Prog.op (.store w v) .pure : Prog rawSig Unit) >>= f) m := by
  rw [Prog.op_bind, valid_op]
  rintro _ rfl -
  have hex : initExec a (.store w v) m = ((), ⟨m.region.setWord w.off v, m.done⟩) := by
    cases w <;> first | exact absurd rfl hw | rfl
  rw [hex]
  exact ⟨.prepare hd ((Region.hdr_setWord_ne hw.symm v).trans hz), hk⟩

end

/-- What the stores of an initialisation add up to. -/
theorem InitArgs.stored (a : InitArgs) (r : Region) : a.Stored
    (((((r.setWord HeaderWord.payloadBytes.off a.geometry.payloadBytes).setWord
      HeaderWord.entryCount.off a.geometry.entryCount).setWord
      HeaderWord.dtype.off a.dtype.code).setWord
      HeaderWord.segmentOwner.off a.owner.val).setWord HeaderWord.magic.off MAGIC_VERSION) := by
  have hpb := a.size.1
  have hn := a.size.2
  have hpid : a.owner.val < 2 ^ 64 := a.owner.lt.trans (by norm_num)
  have hdt := a.dtype.code_lt
  constructor
  · exact Region.hdr_setWord (by decide)
  all_goals simp only [Region.hdr_setWord_ne, ne_eq, reduceCtorEq, not_false_eq_true,
    Region.hdr_setWord, *]

/-- Zeroing keeps a segment without magic. -/
theorem setByte_zero {r : Region} (h : r.hdr .magic = 0) (off : ℕ) :
    (r.setByte off 0).hdr .magic = 0 := by
  have hzero : (Region.zeroed 0).word 0 = 0 := by decide
  have hw : r.word 0 = (Region.zeroed 0).word 0 := h.trans hzero.symm
  refine (Region.word_congr fun k hk => ?_).trans hzero
  simp only [Region.setByte, Function.update_apply]
  split_ifs
  · rfl
  · exact Region.word_inj hw hk

/-- **Initialising a segment.** -/
theorem init_valid (a : InitArgs) {m : Latch} (hd : m.done = []) (hz : m.region.hdr .magic = 0) :
    Valid (initExec a) initCon (fun _ _ => True)
      (initRegion a.geometry.payloadBytes a.geometry.entryCount a.dtype a.owner.val) m := by
  unfold initRegion initHeader
  refine ((Valid.foldlM (I := fun _ _ (m : Latch) => m.done = [] ∧ m.region.hdr .magic = 0)
    (fun k _ _ m hI => ?_) _ () m ⟨hd, hz⟩).mono fun _ m₁ ⟨hd, hz⟩ => ?_).bind
  · rintro _ rfl -
    have hz' := setByte_zero hI.2 k
    exact ⟨.prepare hI.1 hz', hI.1, hz'⟩
  iterate 4
    refine store_init (by decide) hd ?_ ?_
    · simpa only [Region.hdr_setWord_ne, ne_eq, reduceCtorEq, not_false_eq_true] using hz
  rintro _ rfl -
  refine ⟨⟨fun h => absurd hd h, fun _ => Or.inr ⟨a, ?_, a.stored _⟩⟩, trivial⟩
  simp only [initExec, hd, List.nil_append]

theorem adopt_valid (a : InitArgs) {m : Latch} (hm : m.Sound) :
    Valid (initExec a) initCon (fun _ _ => True) a.adopt m := by
  unfold InitArgs.adopt readRegion readHeader
  refine (load_init fun v hv => ?_).bind
  rcases hm with ⟨hd, hz⟩ | ⟨b, hd, hb⟩
  · rw [if_pos (hv.symm.trans hz)]
    exact init_valid a hd hz
  · have hv : v = MAGIC_VERSION := hv.symm.trans hb.magic
    rw [if_neg (by rw [hv]; decide), if_neg (not_not.2 hv)]
    iterate 5 refine load_init fun _ _ => ?_
    trivial

/-! ## Runs -/

section
variable {ι : Type}

/-- What each thread relies on and guarantees. -/
def latchCon : LatchParty ι → Contract rawSig Latch
  | .init => initCon
  | .reader _ => readCon

/-- The answer to the `k`-th call of a reader, when certain calls (`late`) are made with an
    initialisation completed. -/
def LatchAnswer (late : ι → ℕ → Prop) (r : ι) (k : ℕ) (o : Except ZeroChannelError (Option Header))
    (m : Latch) : Prop := m.Answer o ∧ (late r k → o ≠ .ok none)

theorem LatchAnswer.later {late : ι → ℕ → Prop} {r : ι} {k : ℕ}
    {o : Except ZeroChannelError (Option Header)} {m m' : Latch} (h : LatchAnswer late r k o m)
    (hl : Later m m') : LatchAnswer late r k o m' := ⟨h.1.later hl, h.2⟩

/-- The proof outline. -/
def latchOutline [DecidableEq ι] (late : ι → ℕ → Prop) :
    (latch ι).Outline fun _ _ _ => True where
  glob m := m.Sound ∧ ((∃ r k, late r k) → m.done ≠ [])
  con := latchCon
  idle _ _ _ _ := True
  post
    | .init, _, _, _, _ => True
    | .reader r, h, _, a, m => LatchAnswer late r h.length a.1 m
  refl t o m _ := by
    cases t with
    | init => rfl
    | reader r => exact .refl m
  trans t o m₁ m₂ m₃ h h' := by
    cases t with
    | init => exact h.trans h'
    | reader r => exact .trans h h'
  keep t o m m' h hg := by
    cases t with
    | init => exact ⟨h.2 hg.1, fun hl => by rw [h.1 (hg.2 hl)]; exact hg.2 hl⟩
    | reader r =>
      obtain rfl : m' = m := h
      exact hg
  enter t h c l p m hg _ he := by
    cases t with
    | init =>
      cases he
      exact (((adopt_valid c.1 hg.1).take c.2).mono fun _ _ _ => trivial).bind
    | reader r =>
      cases he
      refine ((read_valid hg.1).mono fun o m' ho => ?_).bind
      exact ⟨ho.1, fun hr => ho.2 (hg.2 ⟨r, _, hr⟩)⟩
  ret _ _ _ _ _ _ := trivial
  idle_env _ _ _ _ _ _ _ := trivial
  post_env t h c a m m' hp hr := by
    cases t with
    | init => trivial
    | reader r => exact LatchAnswer.later hp hr
  ok s t s' _ _ := by
    cases t <;> trivial
  compat s t s' u o hs _ hu ho hg hg' hguar := by
    cases t with
    | init =>
      cases u with
      | init => exact absurd rfl hu
      | reader r => exact hguar
    | reader r =>
      have hm : s'.mem = s.mem := hguar
      rw [hm]
      cases u with
      | init => rfl
      | reader r => exact .refl _

variable [DecidableEq ι]

/-- The answers of each reader are as they should be. -/
def Answered (late : ι → ℕ → Prop) : ∀ t, List ((latch ι).Call t × (latch ι).Out t) → Latch → Prop
  | .init, _, _ => True
  | .reader r, h, m => ∀ k c, h[k]? = some c → LatchAnswer late r k c.2 m

/-- **The answers of a run.** -/
theorem answered_reach {late : ι → ℕ → Prop} {s₀ s : (latch ι).Conf}
    (hL : (latchOutline late).Holds s₀) (h₀ : ∀ t, Answered late t (s₀.hist t) s₀.mem)
    (h : Reach Pool.step (fun _ _ _ => True) s₀ s) : ∀ t, Answered late t (s.hist t) s.mem := by
  refine (latchOutline late).hist_reach hL h₀ (fun t h c a m hp hF => ?_)
    (fun t u h o m m' hg hF => ?_) h
  · cases t with
    | init => trivial
    | reader r =>
      intro k c' hk
      rw [List.getElem?_append] at hk
      split_ifs at hk with hlt
      · exact hF k c' hk
      · rw [List.getElem?_singleton] at hk
        split_ifs at hk with hz
        obtain rfl : k = h.length := by omega
        obtain rfl := Option.some.inj hk
        exact hp
  · cases t with
    | init => trivial
    | reader r =>
      intro k c hk
      refine (hF k c hk).later ?_
      cases u with
      | init => exact hg
      | reader r' =>
        obtain rfl : m' = m := hg
        exact .refl _

theorem latchInit_holds (len : ℕ) :
    (latchOutline fun (_ : ι) _ => False).Holds (latchInit ι len) := by
  refine ⟨⟨Or.inl ⟨rfl, ?_⟩, fun ⟨_, _, h⟩ => h.elim⟩, fun t => trivial⟩
  exact (by decide : (Region.zeroed 0).hdr .magic = 0)

/-- The calls reader `u` makes from a moment on. -/
def lateCalls (s : (latch ι).Conf) (u r : ι) (k : ℕ) : Prop :=
  r = u ∧ (s.hist (.reader u)).length ≤ k

/-- They are made with an initialisation completed, if there is one at that moment. -/
theorem latch_late {s : (latch ι).Conf} {u : ι} {l : Unit}
    (h : (latchOutline fun (_ : ι) _ => False).Holds s) (hd : s.mem.done ≠ [])
    (hu : s.ctl (.reader u) = .idle l) : (latchOutline (lateCalls s u)).Holds s := by
  refine ⟨⟨h.1.1, fun _ => hd⟩, fun t => ?_⟩
  cases t with
  | init => exact h.2 .init
  | reader r =>
    have hr := h.2 (.reader r)
    rcases hc : s.ctl (.reader r) with l' | ⟨c, p⟩
    · simp only [Pool.Outline.At, hc]
      trivial
    · have hr := Pool.Outline.at_busy _ hr hc
      simp only [Pool.Outline.At, hc]
      refine hr.mono fun a m ha => ⟨ha.1, ?_⟩
      rintro ⟨rfl, -⟩
      rw [hu] at hc
      cases hc

/-- **The magic is a latch.**  At most one initialisation is completed; an answer to a reader
    is nothing or the header of that initialisation, whose process holds the deed; and once
    a reader has got a header, no call made later finds nothing. -/
theorem header_latched {len : ℕ} {s : (latch ι).Conf}
    (h : Reach Pool.step (fun _ _ _ => True) (latchInit ι len) s) :
    s.mem.done.length ≤ 1 ∧ (∀ a ∈ s.mem.done, a.Stored s.mem.region) ∧
    (∀ r, ∀ o ∈ headersRead s r, s.mem.Answer o) ∧
    ∀ r x, .ok (some x) ∈ headersRead s r → ∀ u l, s.ctl (.reader u) = .idle l →
      ∀ s', Reach Pool.step (fun _ _ _ => True) s s' →
        ∃ new, headersRead s' u = headersRead s u ++ new ∧ .ok none ∉ new := by
  have hs := (latchOutline _).reach (latchInit_holds len) h
  have hF := answered_reach (latchInit_holds len) (fun t => ?_) h
  have hans : ∀ r, ∀ o ∈ headersRead s r, s.mem.Answer o := by
    intro r o ho
    obtain ⟨c, hc, rfl⟩ := List.mem_map.1 ho
    obtain ⟨k, hk⟩ := List.getElem?_of_mem hc
    exact (hF (.reader r) k c hk).1
  refine ⟨?_, ?_, hans, ?_⟩
  · rcases hs.1.1 with ⟨hd, -⟩ | ⟨a, hd, -⟩ <;> simp [hd]
  · rcases hs.1.1 with ⟨hd, -⟩ | ⟨a, hd, ha⟩
    · simp [hd]
    · simpa [hd] using ha
  · intro r x hx u l hu s' hs'
    obtain ⟨a, hd, -⟩ := hans r _ hx
    have hlate := latch_late hs (by rw [hd]; exact List.cons_ne_nil _ _) hu
    have hF' := answered_reach hlate (fun t => ?_) hs' (.reader u)
    · obtain ⟨new, hnew⟩ := (Pool.same_hist (t := .reader u) hs').1
      refine ⟨new.map Prod.snd, ?_, ?_⟩
      · rw [headersRead, headersRead, ← hnew]
        exact List.map_append
      · intro hmem
        obtain ⟨c, hc, hnone⟩ := List.mem_map.1 hmem
        obtain ⟨k, hk⟩ := List.getElem?_of_mem hc
        refine (hF' (List.length (s.hist (.reader u)) + k) c ?_).2 ⟨rfl, Nat.le_add_right _ _⟩ hnone
        rw [← hnew, List.getElem?_append_right (Nat.le_add_right _ _), Nat.add_sub_cancel_left]
        exact hk
    · cases t with
      | init => trivial
      | reader r' =>
        intro k c hk
        refine ⟨(hF (.reader r') k c hk).1, ?_⟩
        rintro ⟨rfl, hle⟩
        have := (List.getElem?_eq_some_iff.1 hk).1
        omega
  · cases t with
    | init => trivial
    | reader r =>
      intro k c hk
      cases hk

end

/-- `n + 1` slots of eight bytes each, asked for by process 7. -/
def InitArgs.tiny (n : ℕ) (h : n + 1 < 2 ^ 64) : InitArgs :=
  ⟨.tiny n, ⟨show 8 < 2 ^ 64 by decide, h⟩, .u8, ⟨7, by decide, by decide⟩⟩

/-- A first process crashes while it zeroes the segment; the next one completes a smaller
    ring. -/
theorem header_latched_second : ∃ s : (latch Unit).Conf,
    headersRead s () = [.ok none, .ok (some ⟨8, 1, 0, 0, 0⟩)] ∧
      (∀ o ∈ headersRead s (), s.mem.Answer o) ∧
      ∀ a ∈ s.mem.done, s.mem.region.hdr .segmentOwner = a.owner.val := by
  have hrun : ((steps Pool.step (fun _ _ => true) (latchInit Unit 104)
      (List.flatten [Pool.burst .init (.tiny 1 (by decide), 10) 11, Pool.burst (.reader ()) () 2,
        Pool.burst .init (.tiny 0 (by decide), 94) 95, Pool.burst (.reader ()) () 7])).map fun s =>
      decide (headersRead s () = [.ok none, .ok (some ⟨8, 1, 0, 0, 0⟩)])) = some true := by
    decide +kernel
  obtain ⟨s, hs, he⟩ := reach_eval hrun
  have h := header_latched (hs.mono fun _ _ _ _ => trivial)
  exact ⟨s, of_decide_eq_true he, h.2.2.1 (), fun a ha => (h.2.1 a ha).owner⟩

end ZeroChannel
