/-
  Opening is lock-free.

  The loops of `claim_role` and `claim_segment` go round again only when the word they
  claim has been changed under them.  So a constructor that is left alone returns with an
  answer, unless its deed or the cell of its role has been changed by others once for each
  round it may make (`construct_lock_free`).
-/
import ZeroChannel.System
import ZeroChannel.Proof.Inside
import ZeroChannel.Concur.Despite

namespace ZeroChannel

open Concur

variable {E : Type} [DecidableEq E] {who : E → Pid} {e : E}

/-- A header word of a segment. -/
def Scene.word (x : ℕ × HeaderWord) (s : Scene E) : ℕ := (s.world.regions x.1).hdr x.2

/-- The words an endpoint claims. -/
def Kind.claims (kind : Kind) : List HeaderWord :=
  .segmentOwner :: (kind.role.map Role.cell).toList

/-! ## The operations of a loop -/

section
variable {α : Type} {good : α → (ℕ × HeaderWord → ℕ) → Prop} {m : Shmem} {h : HeaderWord}
  {c : ℕ × HeaderWord → ℕ} {b : ℕ × HeaderWord → ℕ}

/-- A compare-and-swap that fails shows the word. -/
theorem despite_cas (old new : ℕ) {k : Except ℕ Unit → OsProg α}
    (hok : ∀ c' b', (k (.ok ())).Despite (Scene.exec who e) Scene.word good c' b')
    (herr : ∀ v c' b', (∀ x, c' x ≤ c x) → b' (m.seg, h) = v →
      (k (.error v)).Despite (Scene.exec who e) Scene.word good c' b') :
    ((osMapping m).cas h old new >>= k).Despite (Scene.exec who e) Scene.word good c b := by
  intro s c' hc'
  by_cases hv : (s.world.regions m.seg).hdr h = old
  · have hres : (Scene.exec who e (.cas m h old new) s).1 = .ok () := by
      simp only [Scene.exec, World.exec, if_pos hv]
    rw [hres]
    exact hok _ _
  · have hres : Scene.exec who e (.cas m h old new) s =
        (.error ((s.world.regions m.seg).hdr h), ⟨s.world, s.blank⟩) := by
      simp [Scene.exec, World.exec, if_neg hv, World.findsBlank]
    rw [hres]
    exact herr _ _ _ (fun x => Nat.le_of_add_right_le (hc' x)) rfl

/-- One that expects what could be seen last succeeds, or somebody has changed the word. -/
theorem despite_swap (n old new : ℕ) {k : Except ℕ Unit → OsProg α}
    (hc : b (m.seg, h) = old ∧ c (m.seg, h) ≤ n ∨ c (m.seg, h) < n)
    (hok : ∀ c' b', (k (.ok ())).Despite (Scene.exec who e) Scene.word good c' b')
    (herr : ∀ v c' b', (∀ x, c' x ≤ c x) → c' (m.seg, h) < n →
      (k (.error v)).Despite (Scene.exec who e) Scene.word good c' b') :
    ((osMapping m).cas h old new >>= k).Despite (Scene.exec who e) Scene.word good c b := by
  intro s c' hc'
  have hseg := hc' (m.seg, h)
  by_cases hv : (s.world.regions m.seg).hdr h = old
  · have hres : (Scene.exec who e (.cas m h old new) s).1 = .ok () := by
      simp only [Scene.exec, World.exec, if_pos hv]
    rw [hres]
    exact hok _ _
  · have hres : (Scene.exec who e (.cas m h old new) s).1 =
        .error ((s.world.regions m.seg).hdr h) := by
      simp only [Scene.exec, World.exec, if_neg hv]
    rw [hres]
    refine herr _ _ _ (fun x => Nat.le_of_add_right_le (hc' x)) ?_
    rcases hc with ⟨hb, hn⟩ | hn
    · have hne : Scene.word (m.seg, h) s ≠ b (m.seg, h) := fun he => hv (he.trans hb)
      rw [if_neg hne] at hseg
      omega
    · omega

/-- A probe takes time, in which the word may be changed. -/
theorem despite_probe (pid : ℕ) {k : Bool → OsProg α}
    (hk : ∀ r c' b', (∀ x, c' x ≤ c x) →
      (b' (m.seg, h) = b (m.seg, h) ∨ c' (m.seg, h) < c (m.seg, h)) →
      (k r).Despite (Scene.exec who e) Scene.word good c' b') :
    ((osMapping m).probe pid >>= k).Despite (Scene.exec who e) Scene.word good c b := by
  intro s c' hc'
  have hseg := hc' (m.seg, h)
  refine hk _ _ _ (fun x => Nat.le_of_add_right_le (hc' x)) ?_
  by_cases hv : Scene.word (m.seg, h) s = b (m.seg, h)
  · exact Or.inl hv
  · rw [if_neg hv] at hseg
    exact Or.inr (by omega)

/-- The test whether a holder lives. -/
theorem despite_alive (pid : ℕ) {k : Bool → OsProg α}
    (hk : ∀ r c' b', (∀ x, c' x ≤ c x) →
      (b' (m.seg, h) = b (m.seg, h) ∨ c' (m.seg, h) < c (m.seg, h)) →
      (k r).Despite (Scene.exec who e) Scene.word good c' b') :
    (processAlive (osMapping m) pid >>= k).Despite (Scene.exec who e) Scene.word good c b := by
  unfold processAlive
  split_ifs
  · exact hk _ _ _ (fun _ => Nat.le_refl _) (Or.inl rfl)
  · exact despite_probe pid hk

/-- The rest of a round: the holder keeps the word, or it is taken over. -/
theorem despite_take (n holder new : ℕ) {kept : Bool} {done : OsProg α}
    {k : Except ℕ Unit → OsProg α} {c₀ b₀ : ℕ × HeaderWord → ℕ} (hb₀ : b₀ (m.seg, h) = holder)
    (hc₀ : c₀ (m.seg, h) ≤ n) (hc : ∀ x, c x ≤ c₀ x)
    (hb : b (m.seg, h) = b₀ (m.seg, h) ∨ c (m.seg, h) < c₀ (m.seg, h))
    (hdone : ∀ c' b', done.Despite (Scene.exec who e) Scene.word good c' b')
    (hok : ∀ c' b', (k (.ok ())).Despite (Scene.exec who e) Scene.word good c' b')
    (herr : ∀ v c' b', (∀ x, c' x ≤ c x) → c' (m.seg, h) < n →
      (k (.error v)).Despite (Scene.exec who e) Scene.word good c' b') :
    (if kept = true then done else (osMapping m).cas h holder new >>= k).Despite
      (Scene.exec who e) Scene.word good c b := by
  have hle := hc (m.seg, h)
  cases kept with
  | true =>
    rw [if_pos rfl]
    exact hdone c b
  | false =>
    rw [if_neg Bool.false_ne_true]
    refine despite_swap n holder new ?_ hok herr
    rcases hb with hb | hb
    · exact Or.inl ⟨hb.trans hb₀, by omega⟩
    · exact Or.inr (by omega)

/-! ## The loops -/

/-- **`claim_role`** comes to an answer if the cell is changed less often than it tries. -/
theorem claimRole_despite (me : Pid) (cell : HeaderWord) (role name : String) : ∀ (fuel : ℕ)
    {c b : ℕ × HeaderWord → ℕ}, c (m.seg, cell) < fuel →
      (claimRole (osMapping m) me cell role name fuel).Despite (Scene.exec who e) Scene.word
        (fun a _ => a ≠ none) c b := by
  intro fuel
  induction fuel with
  | zero =>
    intro c b hc
    exact absurd hc (Nat.not_lt_zero _)
  | succ fuel ih =>
    intro c b hc
    unfold claimRole
    refine despite_cas 0 me.val ?_ ?_
    · intro c₁ b₁
      exact Option.some_ne_none _
    · intro holder c₁ b₁ hc₁ hb₁
      refine despite_alive (h := cell) _ ?_
      intro alive c₂ b₂ hc₂ hb₂
      have h₁ := hc₁ (m.seg, cell)
      refine despite_take fuel holder me.val hb₁ (by omega) hc₂ hb₂ ?_ ?_ ?_
      · intro c₃ b₃
        exact Option.some_ne_none _
      · intro c₃ b₃
        exact Option.some_ne_none _
      · intro _ c₃ b₃ _ hc₃
        exact ih hc₃

/-- **`claim_segment`** likewise. -/
theorem claimSegment_despite (me : Pid) : ∀ (fuel : ℕ)
    {c b : ℕ × HeaderWord → ℕ}, c (m.seg, .segmentOwner) < fuel →
      (claimSegment (osMapping m) me fuel).Despite (Scene.exec who e) Scene.word
        (fun a _ => a ≠ none) c b := by
  intro fuel
  induction fuel with
  | zero =>
    intro c b hc
    exact absurd hc (Nat.not_lt_zero _)
  | succ fuel ih =>
    intro c b hc
    unfold claimSegment
    refine despite_cas 0 me.val ?_ ?_
    · intro c₁ b₁
      exact Option.some_ne_none _
    · intro holder c₁ b₁ hc₁ hb₁
      have h₁ := hc₁ (m.seg, .segmentOwner)
      -- a holder with the same process keeps the deed, another one if it lives
      by_cases hme : holder = me.val
      · simp only [if_pos hme]
        exact Option.some_ne_none _
      · simp only [if_neg hme]
        refine despite_alive (h := .segmentOwner) _ ?_
        intro alive c₂ b₂ hc₂ hb₂
        refine despite_take fuel holder me.val hb₁ (by omega) hc₂ hb₂ ?_ ?_ ?_
        · intro c₃ b₃
          exact Option.some_ne_none _
        · intro c₃ b₃
          exact Option.some_ne_none _
        · intro _ c₃ b₃ _ hc₃
          exact ih hc₃

end

/-! ## Constructors -/

section
variable {α : Type} {fuel : ℕ} {c b : ℕ × HeaderWord → ℕ}

/-- A rejection is an answer. -/
theorem reject_despite (er : ZeroChannelError) {P : (ℕ × HeaderWord → ℕ) → Prop}
    (hP : ∀ c', (∀ x, c' x ≤ c x) → P c') :
    (reject er : OsProg (Option (Except ZeroChannelError α))).Despite (Scene.exec who e) Scene.word
      (fun a c' => a ≠ none ∧ P c') c b := by
  refine .after ?_
  intro _ c' b' hc'
  exact ⟨Option.some_ne_none _, hP c' hc'⟩

theorem openExisting_despite (me : Pid) (name : String) (payloadBytes entryCount : ℕ) (dtype : Dtype)
    (hc : ∀ g, c (g, .segmentOwner) < fuel) :
    (openExisting me name payloadBytes entryCount dtype fuel).Despite (Scene.exec who e) Scene.word
      (fun a c' => a ≠ none ∧ ∀ x, c' x ≤ c x) c b := by
  refine .after ?_
  intro opened c₁ b₁ hc₁
  rcases opened with _ | m
  · exact ⟨Option.some_ne_none _, hc₁⟩
  refine .after ?_
  intro accepted c₂ b₂ hc₂
  have hle : ∀ x, c₂ x ≤ c x := fun x => (hc₂ x).trans (hc₁ x)
  rcases accepted with er | _ | header
  · exact reject_despite er fun c' hc' x => (hc' x).trans (hle x)
  · refine .after ?_
    intro len c₃ b₃ hc₃
    have hle₃ : ∀ x, c₃ x ≤ c x := fun x => (hc₃ x).trans (hle x)
    split_ifs
    · exact reject_despite _ fun c' hc' x => (hc' x).trans (hle₃ x)
    refine .after ?_
    intro _ c₄ b₄ hc₄
    refine .after ?_
    intro header c₅ b₅ hc₅
    have hle₅ : ∀ x, c₅ x ≤ c x := fun x => (hc₅ x).trans ((hc₄ x).trans (hle₃ x))
    rcases header with er | _ | header
    · exact reject_despite er fun c' hc' x => (hc' x).trans (hle₅ x)
    · exact reject_despite _ fun c' hc' x => (hc' x).trans (hle₅ x)
    · refine .after ?_
      intro _ c₆ b₆ hc₆
      exact ⟨Option.some_ne_none _, fun x => (hc₆ x).trans (hle₅ x)⟩
  · refine .bind ((claimSegment_despite me fuel ((hle _).trans_lt (hc m.seg))).mono ?_)
    intro won c₃ hc₃ hwon b₃
    obtain ⟨won, rfl⟩ := Option.ne_none_iff_exists'.1 hwon
    refine .after ?_
    intro _ c₄ b₄ hc₄
    exact ⟨Option.some_ne_none _, fun x => (hc₄ x).trans ((hc₃ x).trans (hle x))⟩

theorem tryAttach_despite (name : String) (dtype : Dtype) :
    (tryAttach name dtype).Despite (Scene.exec who e) Scene.word
      (fun a c' => a ≠ none ∧ ∀ x, c' x ≤ c x) c b := by
  refine .after ?_
  intro opened c₁ b₁ hc₁
  rcases opened with _ | m
  · exact ⟨Option.some_ne_none _, hc₁⟩
  refine .after ?_
  intro header c₂ b₂ hc₂
  have hle : ∀ x, c₂ x ≤ c x := fun x => (hc₂ x).trans (hc₁ x)
  rcases header with er | _ | header
  · exact reject_despite er fun c' hc' x => (hc' x).trans (hle x)
  · refine .after ?_
    intro _ c₃ b₃ hc₃
    exact ⟨Option.some_ne_none _, fun x => (hc₃ x).trans (hle x)⟩
  · exact ⟨Option.some_ne_none _, hle⟩

theorem openOrCreate_despite (me : Pid) (args : OpenArgs) (hc : ∀ g, c (g, .segmentOwner) < fuel) :
    (openOrCreate me args.name args.payloadBytes args.entryCount args.dtype args.delayedConnect
      fuel).Despite (Scene.exec who e) Scene.word (fun a c' => a ≠ none ∧ ∀ x, c' x ≤ c x) c b := by
  unfold openOrCreate
  split
  · rename_i pb n _ _
    split
    · exact ⟨Option.some_ne_none _, fun _ => le_refl _⟩
    refine .after ?_
    intro created c₁ b₁ hc₁
    rcases created with er | _ | m
    · exact ⟨Option.some_ne_none _, hc₁⟩
    · refine (openExisting_despite me args.name pb n args.dtype
        fun g => (hc₁ _).trans_lt (hc g)).mono ?_
      rintro a c' - ⟨ha, hle⟩
      exact ⟨ha, fun x => (hle x).trans (hc₁ x)⟩
    · refine .after ?_
      intro header c₂ b₂ hc₂
      have hle : ∀ x, c₂ x ≤ c x := fun x => (hc₂ x).trans (hc₁ x)
      rcases header with er | _ | header
      · exact reject_despite er fun c' hc' x => (hc' x).trans (hle x)
      · exact reject_despite _ fun c' hc' x => (hc' x).trans (hle x)
      · exact ⟨Option.some_ne_none _, hle⟩
  · refine .bind ((tryAttach_despite args.name args.dtype).mono ?_)
    rintro attached c₁ - ⟨hatt, hc₁⟩ b₁
    obtain ⟨attached, rfl⟩ := Option.ne_none_iff_exists'.1 hatt
    rcases attached with er | _ | pair
    · exact ⟨Option.some_ne_none _, hc₁⟩
    · cases args.delayedConnect <;> exact ⟨Option.some_ne_none _, hc₁⟩
    · exact ⟨Option.some_ne_none _, hc₁⟩
  · exact ⟨Option.some_ne_none _, fun _ => le_refl _⟩

/-- Once the role is claimed, there is no loop left. -/
theorem attach_despite (claimed : Option (Except ZeroChannelError Unit)) (attach : OsProg Inner) :
    claimed ≠ none → (match claimed with
      | none => pure none
      | some (.error er) => pure (some (.error er))
      | some (.ok ()) => do
        let inner ← attach
        pure (some (.ok inner)) : OsProg (Option (Except ZeroChannelError Inner))).Despite
      (Scene.exec who e) Scene.word (fun a _ => a ≠ none) c b := by
  intro h
  obtain ⟨claimed, rfl⟩ := Option.ne_none_iff_exists'.1 h
  cases claimed with
  | error er => exact Option.some_ne_none _
  | ok u =>
    refine .after ?_
    intro inner c' b' _
    exact Option.some_ne_none _

theorem bindEndpoint_despite (kind : Kind) (m : Shmem) (header : Header) (me : Pid) (name : String)
    (hc : ∀ role ∈ kind.role, c (m.seg, role.cell) < fuel) :
    (bindEndpoint kind m header me name fuel).Despite (Scene.exec who e) Scene.word
      (fun a _ => a ≠ none) c b := by
  have hclaim : ∀ role ∈ kind.role, (claimRole (osMapping m) me role.cell role.text name fuel).Despite
      (Scene.exec who e) Scene.word (fun a _ => a ≠ none) c b :=
    fun role hr => claimRole_despite me _ _ _ fuel (hc role hr)
  unfold bindEndpoint
  cases kind with
  | writer =>
    refine .bind ((hclaim .writer rfl).mono ?_)
    intro claimed c' _ hne b'
    exact attach_despite claimed _ hne
  | reader zc =>
    cases zc with
    | false => exact attach_despite (some (.ok ())) _ (Option.some_ne_none _)
    | true =>
      refine .bind ((hclaim .zcReader rfl).mono ?_)
      intro claimed c' _ hne b'
      exact attach_despite claimed _ hne

/-- **A constructor** comes to an answer if each word it claims is changed less often than it
    tries. -/
theorem construct_despite (me : Pid) (args : OpenArgs)
    (hc : ∀ g, ∀ w ∈ args.kind.claims, c (g, w) < fuel) :
    (construct me args fuel).Despite (Scene.exec who e) Scene.word (fun a _ => a ≠ none) c b := by
  refine .bind ((openOrCreate_despite me args fun g => hc g _ List.mem_cons_self).mono ?_)
  rintro opened c₁ - ⟨hopened, hc₁⟩ b₁
  obtain ⟨opened, rfl⟩ := Option.ne_none_iff_exists'.1 hopened
  rcases opened with er | _ | ⟨m, header⟩
  · exact Option.some_ne_none _
  · exact Option.some_ne_none _
  have hrole : ∀ role ∈ args.kind.role, c₁ (m.seg, role.cell) < fuel := by
    intro role hr
    refine (hc₁ _).trans_lt (hc m.seg _ (List.mem_cons_of_mem _ ?_))
    simp [Option.mem_def.1 hr]
  refine .bind ((bindEndpoint_despite args.kind m header me args.name hrole).mono ?_)
  intro bound c₂ _ hbound b₂
  obtain ⟨bound, rfl⟩ := Option.ne_none_iff_exists'.1 hbound
  cases bound with
  | error er =>
    exact (reject_despite er (P := fun _ => True) fun _ _ => trivial).mono fun _ _ _ h => h.1
  | ok inner => exact Option.some_ne_none _

end

/-! ## Runs -/

section
variable {may : EndCall → Bool}

/-- **Opening is lock-free.**  At any moment of any run, a constructor that is left alone
    returns with an answer, whatever the others have done in between, if they have changed
    each word that it claims less often than its loops may go round. -/
theorem construct_lock_free {s s₁ s' : (system who may).Conf} {args : OpenArgs} {fuel : ℕ}
    {as : List (system who may).Act}
    (hcall : Pool.step s (.call (.endpoint e) (.construct args fuel)) = some s₁)
    (hs : steps Pool.step (fun _ _ => true) s₁ as = some s')
    (hc : ∀ g, ∀ w ∈ args.kind.claims,
      Pool.changes (.endpoint e) (Scene.word (g, w)) s₁ as < fuel) :
    ∃ n s'' res rest, steps Pool.step (fun _ _ => true) s'
        (List.replicate n (.move (.endpoint e))) = some s'' ∧
      s''.hist (.endpoint e) =
        s.hist (.endpoint e) ++ (.construct args fuel, .constructed (some res)) :: rest := by
  have henter : ∀ l p, (system who may).enter (.endpoint e) (.construct args fuel) l = some p →
      ∀ b, p.Despite (Scene.exec who e) Scene.word
        (fun r _ => ∃ res, r.1 = .constructed (some res))
        (fun x => Pool.changes (.endpoint e) (Scene.word x) s₁ as) b := by
    intro l p he b
    simp only [system] at he
    split_ifs at he
    cases l with
    | closed =>
      cases he
      refine .bind ((construct_despite (who e) args hc).mono ?_)
      intro res c' _ hres b'
      obtain ⟨res, rfl⟩ := Option.ne_none_iff_exists'.1 hres
      exact ⟨res, rfl⟩
    | bound ep => cases he
    | spinning => cases he
  obtain ⟨n, s'', o, rest, hn, hh, res, rfl⟩ :=
    Pool.despite (fun o : EndOut => ∃ res, o = .constructed (some res)) hcall hs henter
  exact ⟨n, s'', res, rest, hn, hh⟩

end

/-- Three processes. -/
def trio (e : Fin 3) : Pid := ⟨e.val + 7, by omega, by omega⟩

/-- The owner of the segment is dead, and between the probe and the compare-and-swap of one
    endpoint another one takes its deed. -/
theorem construct_lock_free_raced : ∃ (s' s'' : (system trio EndCall.opens).Conf) (n : ℕ)
    (res : Except ZeroChannelError (Option Endpoint)) (rest : List (EndCall × EndOut)),
    (s'.ctl (.endpoint 1)).next?.isSome ∧ (s'.mem.world.regions 0).hdr .segmentOwner = 9 ∧
    steps Pool.step (fun _ _ => true) s' (List.replicate n (.move (.endpoint 1))) = some s'' ∧
    s''.hist (.endpoint 1) =
      ((EndCall.construct (.tiny 1 (by decide)) 20, EndOut.constructed (some res)) :: rest) := by
  have hrun : ((steps Pool.step (fun _ _ => true)
      (systemInit trio EndCall.opens (.boot fun _ => true))
      (List.flatten [Pool.burst (.endpoint 0) (.construct (.tiny 1 (by decide)) 1) 104,
        Pool.burst .kernel (0 : Fin 3) 2])).bind fun s =>
      (Pool.step s (.call (.endpoint 1) (.construct (.tiny 1 (by decide)) 20 : EndCall))).bind
        fun s₁ => (steps Pool.step (fun _ _ => true) s₁ (List.replicate 10 (.move (.endpoint 1)) ++
          Pool.burst (.endpoint 2) (.construct (.tiny 1 (by decide)) 1 : EndCall) 12)).map fun s' =>
        ((s.hist (.endpoint 1)).length, (s'.ctl (.endpoint 1)).next?.isSome,
          (s'.mem.world.regions 0).hdr .segmentOwner)) = some (0, true, 9) := by
    decide +kernel
  obtain ⟨s, -, hrun⟩ := Option.bind_eq_some_iff.1 hrun
  obtain ⟨s₁, hcall, hrun⟩ := Option.bind_eq_some_iff.1 hrun
  obtain ⟨s', hs, he⟩ := Option.map_eq_some_iff.1 hrun
  obtain ⟨hlen, he⟩ := Prod.mk.inj he
  obtain ⟨hnext, howner⟩ := Prod.mk.inj he
  obtain ⟨n, s'', res, rest, hn, hh⟩ := construct_lock_free hcall hs fun g w _ =>
    (Pool.changes_le _ _ _ _).trans_lt (by decide)
  rw [List.eq_nil_of_length_eq_zero hlen, List.nil_append] at hh
  exact ⟨s', s'', n, res, rest, hnext, howner, hn, hh⟩

end ZeroChannel
