/-
  What the lifecycle code does, whatever the header is mapped into.

  `Mapping.Uses M P W`: on the mapped header `M`, loads, probes and compare-exchanges
  of the words in `W` only perform operations that satisfy `P`.  Then so do the loops
  of `claim_role` and `claim_segment`, and what is built from them.

  `Mapping.Runs M ex hdr put live`: run alone, they load, store and probe the words `hdr`
  and the processes `live` of the memory.  Then a claim succeeds exactly when nobody alive
  holds the word, and a bid when nobody alive and not this process does.
-/
import ZeroChannel.Lifecycle
import ZeroChannel.Concur.Prog

namespace ZeroChannel

open Concur

variable {S : Sig} {ω : Type}

structure Mapping.Uses (M : Mapping (Prog S)) (P : S.Op → Prop) (W : HeaderWord → Prop) : Prop where
  load : ∀ w, (M.load w).All P
  cas : ∀ w old new, W w → (M.cas w old new).All P
  probe : ∀ pid, (M.probe pid).All P

section
variable {M : Mapping (Prog S)} {P : S.Op → Prop} {W : HeaderWord → Prop} (hM : M.Uses P W)
include hM

theorem processAlive_all (pid : ℕ) : (processAlive M pid).All P := by
  unfold processAlive
  split_ifs
  · trivial
  · exact hM.probe pid

theorem claimRole_all {cell : HeaderWord} (hc : W cell) (me : Pid) (role name : String) :
    ∀ fuel, (claimRole M me cell role name fuel).All P := by
  intro fuel
  induction fuel with
  | zero => trivial
  | succ fuel ih =>
    refine (hM.cas cell _ _ hc).bind fun r => ?_
    rcases r with holder | ⟨⟩
    · refine (processAlive_all hM _).bind fun b => ?_
      cases b
      · refine (hM.cas cell _ _ hc).bind fun r => ?_
        rcases r with _ | ⟨⟩
        · exact ih
        · trivial
      · trivial
    · trivial

theorem claimSegment_all (hc : W .segmentOwner) (me : Pid) :
    ∀ fuel, (claimSegment M me fuel).All P := by
  intro fuel
  induction fuel with
  | zero => trivial
  | succ fuel ih =>
    refine (hM.cas .segmentOwner _ _ hc).bind fun r => ?_
    rcases r with holder | ⟨⟩
    · dsimp only
      split_ifs
      · trivial
      · refine (processAlive_all hM _).bind fun kept => ?_
        cases kept
        · refine (hM.cas .segmentOwner _ _ hc).bind fun r => ?_
          rcases r with _ | ⟨⟩
          · exact ih
          · trivial
        · trivial
    · trivial

theorem readHeader_all : (readHeader M.load).All P := by
  refine (hM.load _).bind fun magic => ?_
  split_ifs
  · trivial
  · trivial
  · trivial
  · refine (hM.load _).bind fun _ => (hM.load _).bind fun _ => (hM.load _).bind fun _ => ?_
    exact (hM.load _).bind fun _ => (hM.load _).bind fun _ => trivial

theorem acceptHeader_all (payloadBytes entryCount : ℕ) (dtype : Dtype) :
    (acceptHeader M payloadBytes entryCount dtype).All P := by
  refine (readHeader_all hM).bind fun r => ?_
  rcases r with _ | _ | _ <;> trivial

theorem attachHeader_all (dtype : Dtype) : (attachHeader M dtype).All P := by
  refine (readHeader_all hM).bind fun r => ?_
  rcases r with _ | _ | _ <;> trivial

theorem bindWriter_all {attach : Header → Prog S ω} (ha : ∀ h, (attach h).All P)
    (hc : W .writerOwner) (me : Pid) (name : String) (header : Header) (fuel : ℕ) :
    (bindWriter M attach me name header fuel).All P := by
  refine (claimRole_all hM hc me _ _ fuel).bind fun claimed => ?_
  rcases claimed with _ | _ | ⟨⟩
  · trivial
  · trivial
  · exact (ha header).bind fun _ => trivial

theorem bindReader_all {attach : Header → Prog S ω} (ha : ∀ h, (attach h).All P)
    (hc : W .zcReaderOwner) (me : Pid) (name : String) (enableZeroCopy : Bool) (header : Header)
    (fuel : ℕ) : (bindReader M attach me name enableZeroCopy header fuel).All P := by
  unfold bindReader
  dsimp only
  split_ifs
  · refine (claimRole_all hM hc me _ _ fuel).bind fun claimed => ?_
    rcases claimed with _ | _ | ⟨⟩
    · trivial
    · trivial
    · exact (ha header).bind fun _ => trivial
  · exact (ha header).bind fun _ => trivial

end

/-! ## Run alone -/

/-- The word names a live process. -/
def Held (live : ℕ → Bool) (owner : ℕ) : Prop := asU32 owner ≠ 0 ∧ live (asU32 owner) = true

instance (live : ℕ → Bool) (owner : ℕ) : Decidable (Held live owner) :=
  inferInstanceAs (Decidable (_ ∧ _))

/-- A deed that a bid of process `me` takes. -/
def Biddable (live : ℕ → Bool) (me : Pid) (owner : ℕ) : Prop := owner ≠ me.val ∧ ¬ Held live owner

instance (live : ℕ → Bool) (me : Pid) (owner : ℕ) : Decidable (Biddable live me owner) :=
  inferInstanceAs (Decidable (_ ∧ _))

theorem not_held_zero (live : ℕ → Bool) : ¬ Held live 0 := fun h => h.1 rfl

/-- A process finds itself alive. -/
theorem held_pid {live : ℕ → Bool} {pid : Pid} : Held live pid.val ↔ live pid.val = true := by
  unfold Held
  rw [Pid.asU32_val]
  exact and_iff_right (Nat.pos_iff_ne_zero.1 pid.pos)

/-- The checks of `acceptHeader` on words that do not change. -/
def acceptOf (hdr : HeaderWord → ℕ) (payloadBytes entryCount : ℕ) (dtype : Dtype) :
    Except ZeroChannelError (Option Header) :=
  match decodeHeader hdr with
  | .error e => .error e
  | .ok none => .ok none
  | .ok (some header) => do
    validateHeader header payloadBytes entryCount
    checkDtype header dtype
    return some header

/-- The checks of `attachHeader` on words that do not change. -/
def attachOf (hdr : HeaderWord → ℕ) (dtype : Dtype) : Except ZeroChannelError (Option Header) :=
  match decodeHeader hdr with
  | .error e => .error e
  | .ok none => .ok none
  | .ok (some header) => do
    if header.payloadBytes = 0 ∨ header.entryCount = 0 then return none
    checkDtype header dtype
    return some header

/-- The header that the words make up. -/
def Header.ofWords (hdr : HeaderWord → ℕ) : Header :=
  ⟨hdr .payloadBytes, hdr .entryCount, hdr .writeIndex, hdr .dtype, hdr .lastEntrySeq⟩

theorem decodeHeader_some {hdr : HeaderWord → ℕ} {h : Header} :
    decodeHeader hdr = .ok (some h) ↔ hdr .magic = MAGIC_VERSION ∧ h = .ofWords hdr := by
  have hne : (0 : ℕ) ≠ MAGIC_VERSION := by decide
  unfold decodeHeader
  split_ifs with h₁ h₂ h₃
  · simp [h₁, hne]
  · simp [h₂]
  · simp [h₂]
  · simp [not_not.1 h₂, Header.ofWords, eq_comm]

theorem decodeHeader_none {hdr : HeaderWord → ℕ} :
    decodeHeader hdr = .ok none ↔ hdr .magic = 0 := by
  unfold decodeHeader
  split_ifs with h₁ <;> simp [h₁]

/-- Two checks pass if each of them does. -/
theorem checks_ok {ε α : Type} {x y : Except ε Unit} {a b : α} :
    (do x; y; return a : Except ε α) = .ok b ↔ x = .ok () ∧ y = .ok () ∧ a = b := by
  rcases x with _ | ⟨⟩
  · simp [bind, Except.bind]
  · rcases y with _ | ⟨⟩ <;> simp [bind, Except.bind, pure, Except.pure]

theorem acceptOf_some {hdr : HeaderWord → ℕ} {pb n : ℕ} {d : Dtype} {h : Header} :
    acceptOf hdr pb n d = .ok (some h) ↔ hdr .magic = MAGIC_VERSION ∧ h = .ofWords hdr ∧
      (hdr .payloadBytes = pb ∧ hdr .entryCount = n) ∧ (d = .u8 ∨ hdr .dtype = d.code) := by
  constructor
  · intro hacc
    unfold acceptOf at hacc
    rcases hdec : decodeHeader hdr with _ | _ | h' <;> rw [hdec] at hacc
    · cases hacc
    · cases hacc
    · obtain ⟨hm, rfl⟩ := decodeHeader_some.1 hdec
      obtain ⟨hv, hd, he⟩ := checks_ok.1 hacc
      exact ⟨hm, (Option.some.inj he).symm, validateHeader_ok.1 hv, checkDtype_ok.1 hd⟩
  · rintro ⟨hm, rfl, hv, hd⟩
    unfold acceptOf
    rw [decodeHeader_some.2 ⟨hm, rfl⟩]
    exact checks_ok.2 ⟨validateHeader_ok.2 hv, checkDtype_ok.2 hd, rfl⟩

theorem acceptOf_none {hdr : HeaderWord → ℕ} {pb n : ℕ} {d : Dtype} :
    acceptOf hdr pb n d = .ok none ↔ hdr .magic = 0 := by
  rw [← decodeHeader_none]
  unfold acceptOf
  rcases decodeHeader hdr with _ | _ | h
  · simp
  · simp
  · constructor
    · intro hacc
      obtain ⟨-, -, he⟩ := checks_ok.1 hacc
      cases he
    · intro h
      cases h

theorem attachOf_some {hdr : HeaderWord → ℕ} {d : Dtype} {h : Header} :
    attachOf hdr d = .ok (some h) ↔ hdr .magic = MAGIC_VERSION ∧ h = .ofWords hdr ∧
      (hdr .payloadBytes ≠ 0 ∧ hdr .entryCount ≠ 0) ∧ (d = .u8 ∨ hdr .dtype = d.code) := by
  have hchecks : ∀ h' : Header, (do
      if h'.payloadBytes = 0 ∨ h'.entryCount = 0 then return none
      checkDtype h' d
      return some h' : Except ZeroChannelError (Option Header)) = .ok (some h) ↔
        h = h' ∧ (h'.payloadBytes ≠ 0 ∧ h'.entryCount ≠ 0) ∧ (d = .u8 ∨ h'.dtype = d.code) := by
    intro h'
    rw [← checkDtype_ok]
    split_ifs with hz
    · constructor
      · intro he
        cases he
      · rintro ⟨-, h0, -⟩
        exact absurd hz (not_or.2 h0)
    · rcases checkDtype h' d with _ | ⟨⟩
      · simp [bind, Except.bind]
      · simp [bind, Except.bind, pure, Except.pure, not_or.1 hz, eq_comm]
  unfold attachOf
  rcases hdec : decodeHeader hdr with _ | _ | h'
  · have hne : hdr .magic ≠ MAGIC_VERSION := fun hm => by
      rw [decodeHeader_some.2 ⟨hm, rfl⟩] at hdec
      cases hdec
    simp [hne]
  · have hne : hdr .magic ≠ MAGIC_VERSION := fun hm => by
      rw [decodeHeader_some.2 ⟨hm, rfl⟩] at hdec
      cases hdec
    simp [hne]
  · obtain ⟨hm, rfl⟩ := decodeHeader_some.1 hdec
    refine (hchecks _).trans ?_
    simp [hm, Header.ofWords]

structure Mapping.Runs {σ : Type} (M : Mapping (Prog S)) (ex : Exec S σ) (hdr : σ → HeaderWord → ℕ)
    (put : σ → HeaderWord → ℕ → σ) (live : σ → ℕ → Bool) : Prop where
  load : ∀ w s, (M.load w).run ex s = (hdr s w, s)
  cas : ∀ w old new s, (M.cas w old new).run ex s =
    if hdr s w = old then (.ok (), put s w new) else (.error (hdr s w), s)
  probe : ∀ pid s, (M.probe pid).run ex s = (live s pid, s)

namespace Mapping.Runs
variable {σ : Type} {M : Mapping (Prog S)} {ex : Exec S σ} {hdr : σ → HeaderWord → ℕ}
  {put : σ → HeaderWord → ℕ → σ} {live : σ → ℕ → Bool} (hM : M.Runs ex hdr put live)
include hM

theorem readHeader_alone (s : σ) : (readHeader M.load).run ex s = (decodeHeader (hdr s), s) := by
  unfold readHeader decodeHeader
  rw [Prog.run_bind, hM.load]
  dsimp only
  split_ifs
  · rfl
  · rfl
  · rfl
  · simp only [Prog.run_bind, hM.load, Prog.pure_eq, Prog.run_pure]

theorem acceptHeader_alone (payloadBytes entryCount : ℕ) (dtype : Dtype) (s : σ) :
    (acceptHeader M payloadBytes entryCount dtype).run ex s =
      (acceptOf (hdr s) payloadBytes entryCount dtype, s) := by
  unfold acceptHeader acceptOf
  rw [Prog.run_bind, hM.readHeader_alone]
  rcases decodeHeader (hdr s) with _ | _ | _ <;> rfl

theorem attachHeader_alone (dtype : Dtype) (s : σ) :
    (attachHeader M dtype).run ex s = (attachOf (hdr s) dtype, s) := by
  unfold attachHeader attachOf
  rw [Prog.run_bind, hM.readHeader_alone]
  rcases decodeHeader (hdr s) with _ | _ | _ <;> rfl

theorem processAlive_alone (owner : ℕ) (s : σ) :
    (processAlive M (asU32 owner)).run ex s = (decide (Held (live s) owner), s) := by
  unfold processAlive Held
  split_ifs with h
  · simp [h]
  · rw [hM.probe]
    simp [h]

/-- **A claim of a role**, made alone. -/
theorem claimRole_alone (me : Pid) (cell : HeaderWord) (role name : String) (fuel : ℕ) (s : σ) :
    (claimRole M me cell role name (fuel + 1)).run ex s =
      if Held (live s) (hdr s cell) then
        (some (.error (.roleConflict
          s!"the {role} role on channel '{name}' is held by process {hdr s cell}")), s)
      else (some (.ok ()), put s cell me.val) := by
  rw [claimRole, Prog.run_bind, hM.cas]
  by_cases h0 : hdr s cell = 0
  · rw [if_pos h0, if_neg (by rw [h0]; exact not_held_zero _)]
    rfl
  · rw [if_neg h0]
    simp only [Prog.run_bind, hM.processAlive_alone]
    by_cases hh : Held (live s) (hdr s cell)
    · simp [hh]
    · simp [hh, hM.cas]

/-- **A bid for the deed**, made alone. -/
theorem claimSegment_alone (me : Pid) (fuel : ℕ) (s : σ) :
    (claimSegment M me (fuel + 1)).run ex s =
      if Biddable (live s) me (hdr s .segmentOwner) then (some true, put s .segmentOwner me.val)
      else (some false, s) := by
  rw [claimSegment, Prog.run_bind, hM.cas]
  by_cases h0 : hdr s .segmentOwner = 0
  · have hv : Biddable (live s) me (hdr s .segmentOwner) := by
      refine ⟨?_, by rw [h0]; exact not_held_zero _⟩
      rw [h0]
      exact me.pos.ne
    rw [if_pos h0, if_pos hv]
    rfl
  · rw [if_neg h0]
    by_cases hme : hdr s .segmentOwner = me.val
    · simp [hme, Biddable]
    · by_cases hh : Held (live s) (hdr s .segmentOwner)
      · simp [hme, hh, Biddable, hM.processAlive_alone]
      · simp [hme, hh, Biddable, hM.processAlive_alone, hM.cas]

end Mapping.Runs

end ZeroChannel
