/-
  Pools of threads that call programs on a shared memory.

  Each thread has a private state and makes calls; a call runs a program whose
  operations are interleaved with those of the other threads, one at a time.
  `Pool.step` is the step function of the machine they form.

  `Outline.reach` is the rely–guarantee rule: if every call is valid and what
  one thread guarantees is what the others rely on, then at every moment of
  every run each running program is valid from the current memory.
-/
import ZeroChannel.Concur.Reach
import ZeroChannel.Concur.Rely
import Mathlib.Logic.Function.Basic

namespace Concur

/-- A pool of threads `T`: the private state, the calls and the answers of each
    thread, the program a call runs (`none` if the call cannot be made), and the
    meaning of the operations a thread performs during a call. -/
structure Pool (S : Sig) (σ : Type) (T : Type) where
  Loc : T → Type
  Call : T → Type
  Out : T → Type
  enter : ∀ t, Call t → Loc t → Option (Prog S (Out t × Loc t))
  exec : ∀ t, Call t → Exec S σ

namespace Pool
variable {S : Sig} {σ T : Type} (A : Pool S σ T)

/-- The control state of a thread. -/
inductive Ctl (t : T) where
  | idle (l : A.Loc t)
  | busy (c : A.Call t) (p : Prog S (A.Out t × A.Loc t))

/-- The operation a thread performs next, if it is in a call. -/
def Ctl.next? {A : Pool S σ T} {t : T} : A.Ctl t → Option S.Op
  | .idle _ => none
  | .busy _ p => p.next?

/-- The private state of a thread that is not in a call. -/
def Ctl.idle? {A : Pool S σ T} {t : T} : A.Ctl t → Option (A.Loc t)
  | .idle l => some l
  | .busy _ _ => none

/-- The call a thread is in. -/
def Ctl.call? {A : Pool S σ T} {t : T} : A.Ctl t → Option (A.Call t)
  | .idle _ => none
  | .busy c _ => some c

theorem Ctl.idle?_eq {A : Pool S σ T} {t : T} {c : A.Ctl t} {l : A.Loc t} :
    c.idle? = some l ↔ c = .idle l := by
  cases c <;> simp [idle?]

/-- A configuration: the memory, the control states, and the calls each thread
    has completed with their answers, oldest first. -/
structure Conf where
  mem : σ
  ctl : ∀ t, A.Ctl t
  hist : ∀ t, List (A.Call t × A.Out t)

/-- The scheduler's choices. -/
inductive Act where
  | call (t : T) (c : A.Call t)
  | move (t : T)

section
variable {A} [DecidableEq T]

/-- One step: a thread enters a call, performs its next operation, or returns. -/
def step (s : A.Conf) : A.Act → Option A.Conf
  | .call t c => match s.ctl t with
    | .idle l => (A.enter t c l).map fun p => { s with ctl := Function.update s.ctl t (.busy c p) }
    | .busy _ _ => none
  | .move t => match s.ctl t with
    | .idle _ => none
    | .busy c (.pure (o, l)) =>
      some { s with ctl := Function.update s.ctl t (.idle l),
                    hist := Function.update s.hist t (s.hist t ++ [(c, o)]) }
    | .busy c (.op o k) =>
      some { s with mem := (A.exec t c o s.mem).2,
                    ctl := Function.update s.ctl t (.busy c (k (A.exec t c o s.mem).1)) }

/-- What a step can do. -/
theorem step_cases {s s' : A.Conf} {a : A.Act} (h : step s a = some s') :
    (∃ t c l p, a = .call t c ∧ s.ctl t = .idle l ∧ A.enter t c l = some p ∧
      s' = { s with ctl := Function.update s.ctl t (.busy c p) }) ∨
    (∃ t c o l, a = .move t ∧ s.ctl t = .busy c (.pure (o, l)) ∧
      s' = { s with ctl := Function.update s.ctl t (.idle l),
                    hist := Function.update s.hist t (s.hist t ++ [(c, o)]) }) ∨
    (∃ t c o k, a = .move t ∧ s.ctl t = .busy c (.op o k) ∧
      s' = { s with mem := (A.exec t c o s.mem).2,
                    ctl := Function.update s.ctl t (.busy c (k (A.exec t c o s.mem).1)) }) := by
  cases a with
  | call t c =>
    simp only [step] at h
    split at h
    · rename_i l hl
      obtain ⟨p, hp, rfl⟩ := Option.map_eq_some_iff.1 h
      exact Or.inl ⟨t, c, l, p, rfl, hl, hp, rfl⟩
    · cases h
  | move t =>
    simp only [step] at h
    split at h
    · cases h
    · rename_i c o l hl; cases h; exact Or.inr (Or.inl ⟨t, c, o, l, rfl, hl, rfl⟩)
    · rename_i c o k hl; cases h; exact Or.inr (Or.inr ⟨t, c, o, k, rfl, hl, rfl⟩)

end

section
variable {A} [DecidableEq T] {P : S.Op → Prop}

/-- The calls in progress perform operations that satisfy `P` only. -/
def Running (P : S.Op → Prop) (s : A.Conf) : Prop :=
  ∀ t c p, s.ctl t = .busy c p → Prog.All P p

theorem Running.step (henter : ∀ t c l p, A.enter t c l = some p → p.All P) {s s' : A.Conf}
    {a : A.Act} (h : Running P s) (hs : Pool.step s a = some s') : Running P s' := by
  intro u d q hq
  have hother : ∀ {t : T} {x : A.Ctl t}, u ≠ t → Function.update s.ctl t x u = .busy d q →
      q.All P := by
    intro t x hu hc
    rw [Function.update_of_ne hu] at hc
    exact h u d q hc
  rcases step_cases hs with ⟨t, c, l, p, -, -, he, rfl⟩ | ⟨t, c, o, l, -, -, rfl⟩ |
    ⟨t, c, o, k, -, ht, rfl⟩
  · by_cases hu : u = t
    · subst hu
      simp only [Function.update_self] at hq
      cases hq
      exact henter _ _ _ _ he
    · exact hother hu hq
  · by_cases hu : u = t
    · subst hu
      simp only [Function.update_self] at hq
      cases hq
    · exact hother hu hq
  · by_cases hu : u = t
    · subst hu
      simp only [Function.update_self] at hq
      cases hq
      exact (h _ _ _ ht).2 _
    · exact hother hu hq

/-- The operation performed next satisfies `P`. -/
theorem Running.next {s s' : A.Conf} {t : T} (h : Running P s)
    (hs : Pool.step s (.move t) = some s') :
    s'.mem = s.mem ∨ ∃ c o, P o ∧ s'.mem = (A.exec t c o s.mem).2 := by
  rcases step_cases hs with ⟨_, _, _, _, ha, -⟩ | ⟨_, _, _, _, -, -, rfl⟩ |
    ⟨u, c, o, k, ha, hu, rfl⟩
  · cases ha
  · exact Or.inl rfl
  · cases ha
    exact Or.inr ⟨c, o, (h _ _ _ hu).1, rfl⟩

end

/-! ## Runs without interruption -/

section
variable {A}

/-- A thread makes a call and then moves `n` times. -/
def burst (t : T) (c : A.Call t) (n : ℕ) : List A.Act := .call t c :: List.replicate n (.move t)

variable [DecidableEq T]

/-- A thread in a call can go on alone until the call is about to return. -/
theorem reach_run {t : T} {c : A.Call t} : ∀ (p : Prog S (A.Out t × A.Loc t)) {s : A.Conf},
    s.ctl t = .busy c p → ∃ s', Reach step (fun _ _ _ => True) s s' ∧
      s'.mem = (p.run (A.exec t c) s.mem).2 ∧ s'.ctl t = .busy c (.pure (p.run (A.exec t c) s.mem).1)
  | .pure a, s, h => ⟨s, .refl, rfl, h⟩
  | .op o k, s, h => by
    let s₁ : A.Conf := { s with
      mem := (A.exec t c o s.mem).2,
      ctl := Function.update s.ctl t (.busy c (k (A.exec t c o s.mem).1)) }
    have hs : step s (.move t) = some s₁ := by simp only [step, h, s₁]
    obtain ⟨s', hr, hm, hc⟩ := reach_run (k (A.exec t c o s.mem).1) (s := s₁)
      (Function.update_self ..)
    exact ⟨s', (Reach.refl.tail hs trivial).trans hr, hm, hc⟩

/-- A call can be made without interruption. -/
theorem reach_call {s : A.Conf} {t : T} {c : A.Call t} {l l' : A.Loc t} {o : A.Out t} {m : σ}
    {p : Prog S (A.Out t × A.Loc t)} (hl : s.ctl t = .idle l) (he : A.enter t c l = some p)
    (hr : p.run (A.exec t c) s.mem = ((o, l'), m)) :
    ∃ s', Reach step (fun _ _ _ => True) s s' ∧ s'.mem = m ∧ s'.ctl t = .idle l' := by
  have hcall : step s (.call t c) = some { s with
      ctl := Function.update s.ctl t (.busy c p) } := by
    simp only [step, hl, he, Option.map_some]
  obtain ⟨s₁, hrun, hm, hc⟩ := reach_run p
    (s := { s with ctl := Function.update s.ctl t (.busy c p) }) (Function.update_self ..)
  rw [hr] at hm hc
  have hret : step s₁ (.move t) = some { s₁ with
      ctl := Function.update s₁.ctl t (.idle l'),
      hist := Function.update s₁.hist t (s₁.hist t ++ [(c, o)]) } := by
    simp only [step, hc]
  exact ⟨_, ((Reach.refl.tail hcall trivial).trans hrun).tail hret trivial, hm,
    Function.update_self ..⟩

end

/-! ## One call of a run -/

section
variable {A} [DecidableEq T] {J : σ → Prop}

/-- From `s` to `s'` thread `t` makes the call `c`, answered by `o`, while the memory
    satisfies `J`; the other threads do what they like. -/
structure Spans (J : σ → Prop) (s s' : A.Conf) (t : T) (l : A.Loc t) (c : A.Call t)
    (o : A.Out t) : Prop where
  start : s.ctl t = .idle l
  run : ∃ s₁ s₂, step s (.call t c) = some s₁ ∧ J s₁.mem ∧
    Reach step (fun _ _ s' => J s'.mem ∧ s'.hist t = s.hist t) s₁ s₂ ∧
    step s₂ (.move t) = some s'
  done : s'.hist t = s.hist t ++ [(c, o)]

/-- Completed calls are not forgotten. -/
theorem hist_grows {s s' : A.Conf} {a : A.Act} (h : step s a = some s') (t : T) :
    s.hist t <+: s'.hist t := by
  rcases step_cases h with ⟨_, _, _, _, -, -, -, rfl⟩ | ⟨u, c, o, l, -, -, rfl⟩ |
    ⟨_, _, _, _, -, -, rfl⟩
  · exact List.prefix_rfl
  · by_cases ht : t = u
    · subst ht
      simp only [Function.update_self]
      exact List.prefix_append _ _
    · simp only [Function.update_of_ne ht]
      exact List.prefix_rfl
  · exact List.prefix_rfl

/-- If no call of `t` is completed at the end of a run, none is on the way. -/
theorem same_hist {P : A.Conf → A.Act → A.Conf → Prop} {s s' : A.Conf} {t : T}
    (h : Reach step P s s') : s.hist t <+: s'.hist t ∧
      ((s'.hist t).length = (s.hist t).length →
        Reach step (fun s₁ a s₂ => P s₁ a s₂ ∧ s₂.hist t = s.hist t) s s') := by
  induction h with
  | refl => exact ⟨List.prefix_rfl, fun _ => .refl⟩
  | tail _ hs hp ih =>
    have hgrow := hist_grows hs t
    refine ⟨ih.1.trans hgrow, fun hlen => ?_⟩
    have hlen' := hgrow.length_le
    have hlen'' := ih.1.length_le
    exact (ih.2 (by omega)).tail hs ⟨hp, ((ih.1.trans hgrow).eq_of_length hlen.symm).symm⟩

/-- A call that was run. -/
theorem Spans.of_run {s s₁ s₂ s' : A.Conf} {t : T} {l : A.Loc t} {c : A.Call t} {o : A.Out t}
    (hl : s.ctl t = .idle l) (h₁ : step s (.call t c) = some s₁) (hJ : J s₁.mem)
    (h₂ : Reach step (fun _ _ s' => J s'.mem) s₁ s₂)
    (hlen : (s₂.hist t).length = (s.hist t).length) (h₃ : step s₂ (.move t) = some s')
    (hd : s'.hist t = s.hist t ++ [(c, o)]) : Spans J s s' t l c o := by
  have hhist : s₁.hist t = s.hist t := by
    rcases step_cases h₁ with ⟨_, _, _, _, -, -, -, rfl⟩ | ⟨_, _, _, _, ha, -⟩ | ⟨_, _, _, _, ha, -⟩
    · rfl
    · cases ha
    · cases ha
  have hrun := (same_hist h₂).2 (by rw [hlen, hhist])
  rw [hhist] at hrun
  exact ⟨hl, ⟨s₁, s₂, h₁, hJ, hrun, h₃⟩, hd⟩

/-- In the configurations that satisfy `I`, the threads other than `t` change the memory as
    `R` says; `I` is kept while the memory satisfies `J`. -/
structure OthersIn (I : A.Conf → Prop) (J : σ → Prop) (t : T) (R : σ → σ → Prop) : Prop where
  refl : ∀ s, I s → R s.mem s.mem
  trans : ∀ m₁ m₂ m₃, R m₁ m₂ → R m₂ m₃ → R m₁ m₃
  keep : ∀ s a s', I s → step s a = some s' → J s'.mem → I s'
  move : ∀ s u s', I s → step s (.move u) = some s' → J s'.mem → u ≠ t → R s.mem s'.mem

/-- What the threads other than `t` do to the memory, in whatever configuration. -/
structure Others (A : Pool S σ T) (t : T) (R : σ → σ → Prop) : Prop where
  refl : ∀ m, R m m
  trans : ∀ m₁ m₂ m₃, R m₁ m₂ → R m₂ m₃ → R m₁ m₃
  exec : ∀ u, u ≠ t → ∀ c o m, R m (A.exec u c o m).2

variable {R : σ → σ → Prop} {I : A.Conf → Prop}

theorem Others.inside {t : T} (hR : Others A t R) :
    OthersIn (fun _ : A.Conf => True) J t R where
  refl _ _ := hR.refl _
  trans := hR.trans
  keep _ _ _ _ _ _ := trivial
  move s u s' _ hs _ hu := by
    rcases step_cases hs with ⟨_, _, _, _, ha, -⟩ | ⟨v, c, o, l, ha, -, rfl⟩ |
      ⟨v, c, o, k, ha, -, rfl⟩
    · cases ha
    · exact hR.refl _
    · cases ha
      exact hR.exec u hu c o s.mem

/-- A call on its way stays valid while the condition lasts. -/
theorem within_run {s₁ s₂ : A.Conf} {t : T} (hR : OthersIn I J t R) {c : A.Call t}
    {p : Prog S (A.Out t × A.Loc t)} {Q : A.Out t × A.Loc t → σ → Prop}
    (hQ : ∀ a m m', Q a m → R m m' → Q a m') (hI : I s₁)
    (hc : s₁.ctl t = .busy c p) (hJ : J s₁.mem) (hv : Valid (A.exec t c) (within R J) Q p s₁.mem)
    (h : Reach step (fun _ _ s' => J s'.mem ∧ s'.hist t = s₁.hist t) s₁ s₂) :
    ∃ q, s₂.ctl t = .busy c q ∧ J s₂.mem ∧ I s₂ ∧
      Valid (A.exec t c) (within R J) Q q s₂.mem := by
  induction h with
  | refl => exact ⟨p, hc, hJ, hI, hv⟩
  | @tail s s' a hr hs hp ih =>
    obtain ⟨q, hq, hJq, hIq, hvq⟩ := ih
    have hI' : I s' := hR.keep _ _ _ hIq hs hp.1
    have hhist : s.hist t = s₁.hist t :=
      hr.inv (I := fun s => s.hist t = s₁.hist t) rfl fun _ _ _ _ _ hp => hp.2
    -- what another thread does keeps the program valid
    have hother : ∀ u (x : A.Ctl u), u ≠ t → s'.ctl = Function.update s.ctl u x →
        R s.mem s'.mem → ∃ q, s'.ctl t = .busy c q ∧ J s'.mem ∧ I s' ∧
          Valid (A.exec t c) (within R J) Q q s'.mem := by
      intro u x hu hx hm
      refine ⟨q, by rw [hx, Function.update_of_ne hu.symm, hq], hp.1, hI', ?_⟩
      exact hvq.env (fun _ _ _ _ h h' => ⟨hR.trans _ _ _ h.1 h'.1, h'.2⟩)
        (fun _ _ _ h h' => hQ _ _ _ h h'.1) ⟨hm, hp.1⟩
    rcases step_cases hs with ⟨u, d, l, r, -, hu, -, rfl⟩ | ⟨u, d, o, l, -, hu, rfl⟩ |
      ⟨u, d, o, k, rfl, hu, hs'⟩
    · refine hother u _ ?_ rfl (hR.refl _ hIq)
      rintro rfl
      rw [hq] at hu
      cases hu
    · refine hother u _ ?_ rfl (hR.refl _ hIq)
      rintro rfl
      have hlen := congrArg List.length (hp.2.trans hhist.symm)
      simp at hlen
    · by_cases hut : u = t
      · subst hut hs'
        rw [hq] at hu
        cases hu
        exact ⟨_, Function.update_self .., hp.1, hI',
          valid_within_op.1 hvq _ (hR.refl _ hIq) hJq hp.1⟩
      · exact hother u _ hut (by rw [hs']) (hR.move _ _ _ hIq hs hp.1 hut)

/-- **The rule for one call of a run**, made in a configuration that satisfies `I`; what it
    establishes may speak of the memory as far as the others leave it alone. -/
theorem Spans.post_mem {s s' : A.Conf} {t : T} {l : A.Loc t} {c : A.Call t} {o : A.Out t}
    (h : Spans J s s' t l c o) (hR : OthersIn I J t R) (hI : I s)
    {Q : A.Out t × A.Loc t → σ → Prop} (hQ : ∀ a m m', Q a m → R m m' → Q a m')
    (hv : ∀ p, A.enter t c l = some p → Valid (A.exec t c) (within R J) Q p s.mem) :
    ∃ l', s'.ctl t = .idle l' ∧ Q (o, l') s'.mem := by
  obtain ⟨s₁, s₂, hcall, hJ, hrun, hret⟩ := h.run
  have hI₁ := hR.keep _ _ _ hI hcall hJ
  rcases step_cases hcall with ⟨u, d, l₁, p, ha, hl, he, rfl⟩ | ⟨_, _, _, _, ha, -⟩ |
    ⟨_, _, _, _, ha, -⟩
  · cases ha
    rw [h.start] at hl
    cases hl
    obtain ⟨q, hq, -, -, hvq⟩ := within_run hR hQ hI₁ (Function.update_self ..) hJ (hv p he) hrun
    have hhist : s₂.hist t = s.hist t :=
      hrun.inv (I := fun s' => s'.hist t = s.hist t) rfl fun _ _ _ _ _ hp => hp.2
    rcases step_cases hret with ⟨_, _, _, _, ha, -⟩ | ⟨u, d, o', l', ha, hu, rfl⟩ |
      ⟨u, d, o', k, ha, hu, rfl⟩
    · cases ha
    · cases ha
      rw [hq] at hu
      cases hu
      have hd := h.done
      simp only [Function.update_self, hhist] at hd
      obtain ⟨-, hd⟩ := List.append_inj' hd rfl
      cases hd
      exact ⟨l', Function.update_self .., hvq⟩
    · cases ha
      have hlen := congrArg List.length (hhist.symm.trans h.done)
      simp at hlen
  · cases ha
  · cases ha

/-- The rule for what the call answers. -/
theorem Spans.post_in {s s' : A.Conf} {t : T} {l : A.Loc t} {c : A.Call t} {o : A.Out t}
    (h : Spans J s s' t l c o) (hR : OthersIn I J t R) (hI : I s) {Q : A.Out t × A.Loc t → Prop}
    (hv : ∀ p, A.enter t c l = some p →
      Valid (A.exec t c) (within R J) (fun a _ => Q a) p s.mem) :
    ∃ l', s'.ctl t = .idle l' ∧ Q (o, l') :=
  h.post_mem (Q := fun a _ => Q a) hR hI (fun _ _ _ h _ => h) hv

/-- **The rule for one call of a run.** -/
theorem Spans.post {s s' : A.Conf} {t : T} {l : A.Loc t} {c : A.Call t} {o : A.Out t}
    (h : Spans J s s' t l c o) (hR : Others A t R) {Q : A.Out t × A.Loc t → Prop}
    (hv : ∀ p s, A.enter t c l = some p →
      Valid (A.exec t c) (within R J) (fun a _ => Q a) p s) : ∃ l', s'.ctl t = .idle l' ∧ Q (o, l') :=
  h.post_in hR.inside trivial fun p hp => hv p s.mem hp

/-- The condition may be strengthened by an invariant of the configurations. -/
theorem Spans.with_inv {K : σ → Prop} {s s' : A.Conf} {t : T} {l : A.Loc t} {c : A.Call t}
    {o : A.Out t} (h : Spans J s s' t l c o) (hI : I s)
    (hkeep : ∀ s a s', I s → step s a = some s' → J s'.mem → I s') (hK : ∀ s, I s → K s.mem) :
    Spans (fun m => J m ∧ K m) s s' t l c o := by
  obtain ⟨s₁, s₂, hcall, hJ, hrun, hret⟩ := h.run
  have hI₁ := hkeep _ _ _ hI hcall hJ
  have hrun' := hrun.with_inv hI₁ fun _ _ _ hI hs hp => hkeep _ _ _ hI hs hp.1
  exact ⟨h.start, ⟨s₁, s₂, hcall, ⟨hJ, hK _ hI₁⟩, hrun'.mono fun _ _ _ ⟨⟨hJ, hh⟩, hI⟩ =>
    ⟨⟨hJ, hK _ hI⟩, hh⟩, hret⟩, h.done⟩

/-- A quantity of the memory that steps never decrease is bounded during the call by its last
    value. -/
theorem Spans.bounded {s s' : A.Conf} {t : T} {l : A.Loc t} {c : A.Call t} {o : A.Out t}
    (h : Spans J s s' t l c o) (f : σ → ℕ)
    (hf : ∀ (s : A.Conf) a s', step s a = some s' → f s.mem ≤ f s'.mem) {b : ℕ} (hb : f s'.mem < b) :
    Spans (fun m => J m ∧ f m < b) s s' t l c o := by
  obtain ⟨s₁, s₂, hcall, hJ, hrun, hret⟩ := h.run
  have hb₂ : f s₂.mem < b := Nat.lt_of_le_of_lt (hf _ _ _ hret) hb
  have hb₁ : f s₁.mem < b := Nat.lt_of_le_of_lt (hrun.inv (I := fun s => f s₁.mem ≤ f s.mem)
    (Nat.le_refl _) fun _ _ _ hI hs _ => Nat.le_trans hI (hf _ _ _ hs)) hb₂
  refine ⟨h.start, ⟨s₁, s₂, hcall, ⟨hJ, hb₁⟩, ?_, hret⟩, h.done⟩
  exact (hrun.bounded (fun s => f s.mem) hf hb₂).mono fun _ _ _ ⟨⟨hJ, hh⟩, hlt⟩ => ⟨⟨hJ, hlt⟩, hh⟩

end

/-! ## A thread that alone changes the memory -/

section
variable {A} [DecidableEq T]

/-- Thread `t` is between two calls, or has run part of one alone since a memory in
    which `I` held. -/
def SoleAt (t : T) (I : A.Loc t → σ → Prop) (s : A.Conf) : Prop :=
  ∃ l m, I l m ∧ (s.ctl t = .idle l ∧ s.mem = m ∨
    ∃ c p q, A.enter t c l = some p ∧ s.ctl t = .busy c q ∧ Prog.Solo (A.exec t c) p m q s.mem)

/-- **The rule for the thread that alone changes the memory**: `I` is kept by its calls
    run alone. -/
theorem SoleAt.step {t : T} {I : A.Loc t → σ → Prop} {s s' : A.Conf} {a : A.Act}
    (h : SoleAt t I s) (hs : Pool.step s a = some s')
    (hother : ∀ u o, a = .move u → u ≠ t → (s.ctl u).next? = some o → s'.mem = s.mem)
    (hcall : ∀ l m c p o l', I l m → A.enter t c l = some p →
      p.run (A.exec t c) m = ((o, l'), s'.mem) → I l' s'.mem) : SoleAt t I s' := by
  obtain ⟨l, m, hI, hat⟩ := h
  -- what another thread does leaves everything as it is
  have hframe : s'.ctl t = s.ctl t → s'.mem = s.mem → SoleAt t I s' := by
    intro hc hm
    refine ⟨l, m, hI, ?_⟩
    rw [hc, hm]
    exact hat
  rcases step_cases hs with ⟨u, c, l', p, rfl, hl, he, rfl⟩ | ⟨u, c, o, l', rfl, hl, rfl⟩ |
    ⟨u, c, o, k, rfl, hl, rfl⟩
  · by_cases hu : t = u
    · subst hu
      rcases hat with ⟨hc, hm⟩ | ⟨d, p', q, -, hc, -⟩
      · rw [hl] at hc
        cases hc
        refine ⟨l, m, hI, Or.inr ⟨c, p, p, he, Function.update_self .., ?_⟩⟩
        rw [← hm]
        exact .refl _ _
      · rw [hl] at hc
        cases hc
    · exact hframe (Function.update_of_ne hu _ _) rfl
  · by_cases hu : t = u
    · subst hu
      rcases hat with ⟨hc, -⟩ | ⟨d, p, q, he, hc, hsolo⟩
      · rw [hl] at hc
        cases hc
      · rw [hl] at hc
        cases hc
        exact ⟨l', s.mem, hcall l m c p o l' hI he hsolo.run_eq,
          Or.inl ⟨Function.update_self .., rfl⟩⟩
    · exact hframe (Function.update_of_ne hu _ _) rfl
  · by_cases hu : t = u
    · subst hu
      rcases hat with ⟨hc, -⟩ | ⟨d, p, q, he, hc, hsolo⟩
      · rw [hl] at hc
        cases hc
      · rw [hl] at hc
        cases hc
        exact ⟨l, m, hI, Or.inr ⟨c, p, _, he, Function.update_self .., hsolo.snoc⟩⟩
    · exact hframe (Function.update_of_ne hu _ _) (hother u o rfl (Ne.symm hu) (by rw [hl]; rfl))

end

/-! ## Proof outlines -/

/-- A proof outline of a pool for the runs whose steps satisfy `P`. -/
structure Outline [DecidableEq T] (P : A.Conf → A.Act → A.Conf → Prop) where
  /-- an invariant of the memory -/
  glob : σ → Prop
  /-- what each thread relies on and guarantees -/
  con : T → Contract S σ
  /-- what holds between two calls of a thread, with the calls completed so far -/
  idle : ∀ t, List (A.Call t × A.Out t) → A.Loc t → σ → Prop
  /-- what a call establishes -/
  post : ∀ t, List (A.Call t × A.Out t) → A.Call t → A.Out t × A.Loc t → σ → Prop
  refl : ∀ t o s, glob s → (con t).rely o s s
  trans : ∀ t o s₁ s₂ s₃, (con t).rely o s₁ s₂ → (con t).rely o s₂ s₃ → (con t).rely o s₁ s₃
  keep : ∀ t o s s', (con t).guar o s s' → glob s → glob s'
  enter : ∀ t h c l p s, glob s → idle t h l s → A.enter t c l = some p →
    Valid (A.exec t c) (con t) (post t h c) p s
  ret : ∀ t h c r s, post t h c r s → idle t (h ++ [(c, r.1)]) r.2 s
  idle_env : ∀ t h l s s', idle t h l s → (con t).rely none s s' → idle t h l s'
  post_env : ∀ t h c r s s', post t h c r s → (con t).rely none s s' → post t h c r s'
  ok : ∀ s t s', step s (.move t) = some s' → P s (.move t) s' → (con t).ok s'.mem
  compat : ∀ s t s' u o, step s (.move t) = some s' → P s (.move t) s' → u ≠ t →
    (s.ctl t).next? = some o → glob s.mem → glob s'.mem → (con t).guar o s.mem s'.mem →
    (con u).rely (s.ctl u).next? s.mem s'.mem

namespace Outline
variable {A} [DecidableEq T] {P : A.Conf → A.Act → A.Conf → Prop} (L : A.Outline P)

/-- What the outline says of one thread. -/
def At (s : A.Conf) (t : T) : Prop := match s.ctl t with
  | .idle l => L.idle t (s.hist t) l s.mem
  | .busy c p => Valid (A.exec t c) (L.con t) (L.post t (s.hist t) c) p s.mem

/-- What the outline says of a configuration. -/
def Holds (s : A.Conf) : Prop := L.glob s.mem ∧ ∀ t, L.At s t

theorem at_idle {s : A.Conf} {t : T} {l : A.Loc t} (h : L.At s t) (hl : s.ctl t = .idle l) :
    L.idle t (s.hist t) l s.mem := by
  simpa only [At, hl] using h

theorem at_busy {s : A.Conf} {t : T} {c : A.Call t} {p : Prog S (A.Out t × A.Loc t)}
    (h : L.At s t) (hl : s.ctl t = .busy c p) :
    Valid (A.exec t c) (L.con t) (L.post t (s.hist t) c) p s.mem := by
  simpa only [At, hl] using h

/-- A thread that does not move is still where the outline says it is. -/
theorem at_env {s s' : A.Conf} {t : T} (h : L.At s t) (hc : s'.ctl t = s.ctl t)
    (hh : s'.hist t = s.hist t) (hr : (L.con t).rely (s.ctl t).next? s.mem s'.mem) :
    L.At s' t := by
  unfold At at h ⊢
  rw [hc, hh]
  rcases hl : s.ctl t with l | ⟨c, p⟩
  · rw [hl] at h hr; exact L.idle_env _ _ _ _ _ h hr
  · rw [hl] at h hr
    exact h.env (L.trans t) (fun r s s' => L.post_env t _ c r s s') hr

theorem step {s s' : A.Conf} {a : A.Act} (h : L.Holds s) (hs : Pool.step s a = some s')
    (hp : P s a s') : L.Holds s' := by
  obtain ⟨hg, ht⟩ := h
  rcases step_cases hs with ⟨t, c, l, p, rfl, hl, he, rfl⟩ | ⟨t, c, o, l, rfl, hl, rfl⟩ |
    ⟨t, c, o, k, rfl, hl, rfl⟩
  · refine ⟨hg, fun u => ?_⟩
    by_cases hu : u = t
    · subst hu
      simp only [At, Function.update_self]
      exact L.enter u _ c l p _ hg (L.at_idle (ht u) hl) he
    · exact L.at_env (ht u) (Function.update_of_ne hu _ _) rfl (L.refl u _ _ hg)
  · refine ⟨hg, fun u => ?_⟩
    by_cases hu : u = t
    · subst hu
      simp only [At, Function.update_self]
      exact L.ret u _ c (o, l) _ (L.at_busy (ht u) hl)
    · exact L.at_env (ht u) (Function.update_of_ne hu _ _) (Function.update_of_ne hu _ _)
        (L.refl u _ _ hg)
  · have hv := L.at_busy (ht t) hl s.mem (L.refl t _ _ hg) (L.ok s t _ hs hp)
    have hg' : L.glob (A.exec t c o s.mem).2 := L.keep t _ _ _ hv.1 hg
    refine ⟨hg', fun u => ?_⟩
    by_cases hu : u = t
    · subst hu
      simpa only [At, Function.update_self] using hv.2
    · exact L.at_env (ht u) (Function.update_of_ne hu _ _) rfl
        (L.compat s t _ u o hs hp hu (by rw [hl]; rfl) hg hg' hv.1)

/-- **The outline holds throughout every run.** -/
theorem reach {s₀ s : A.Conf} (h₀ : L.Holds s₀) (h : Reach Pool.step P s₀ s) : L.Holds s :=
  h.inv h₀ fun _ _ _ => L.step

/-- Every operation keeps the guarantee of the thread that performs it. -/
theorem guar {s s' : A.Conf} (h : L.Holds s) {t : T} {o : S.Op} (hs : Pool.step s (.move t) = some s')
    (hp : P s (.move t) s') (ho : (s.ctl t).next? = some o) :
    (L.con t).guar o s.mem s'.mem := by
  rcases step_cases hs with ⟨_, _, _, _, ha, -⟩ | ⟨t', c, o', l, ha, hl, -⟩ |
    ⟨t', c, o', k, ha, hl, rfl⟩
  · cases ha
  · cases ha; rw [hl] at ho; cases ho
  · cases ha; rw [hl] at ho; cases ho
    exact (L.at_busy (h.2 t) hl s.mem (L.refl t _ _ h.1) (L.ok s t _ hs hp)).1

/-- What every guarantee says of the change of the memory holds of a whole run. -/
theorem changes {R : σ → σ → Prop} (hrefl : ∀ m, R m m)
    (htrans : ∀ m₁ m₂ m₃, R m₁ m₂ → R m₂ m₃ → R m₁ m₃)
    (hguar : ∀ t o m m', (L.con t).guar o m m' → R m m') {s₀ s : A.Conf} (h₀ : L.Holds s₀)
    (h : Reach Pool.step P s₀ s) : R s₀.mem s.mem := by
  refine (h.inv (I := fun s => L.Holds s ∧ R s₀.mem s.mem) ⟨h₀, hrefl _⟩ ?_).2
  rintro s a s' ⟨hs, hR⟩ hstep hp
  refine ⟨L.step hs hstep hp, ?_⟩
  rcases step_cases hstep with ⟨t, c, l, p, rfl, -, -, rfl⟩ | ⟨t, c, o, l, rfl, hl, rfl⟩ |
    ⟨t, c, o, k, rfl, hl, rfl⟩
  · exact hR
  · exact hR
  · exact htrans _ _ _ hR (hguar t o _ _ (L.guar hs hstep hp (by rw [hl]; rfl)))

/-- A finished call has established its postcondition. -/
theorem returned {s : A.Conf} (h : L.Holds s) {t : T} {c : A.Call t} {r : A.Out t × A.Loc t}
    (hl : s.ctl t = .busy c (.pure r)) : L.post t (s.hist t) c r s.mem :=
  L.at_busy (h.2 t) hl

/-- What holds of the completed calls: every call that returns adds to it, and no guaranteed
    change of the memory takes it away. -/
theorem hist_reach {F : ∀ t, List (A.Call t × A.Out t) → σ → Prop} {s₀ s : A.Conf}
    (hL : L.Holds s₀) (h₀ : ∀ t, F t (s₀.hist t) s₀.mem)
    (hret : ∀ t h c r m, L.post t h c r m → F t h m → F t (h ++ [(c, r.1)]) m)
    (hmem : ∀ t u h o m m', (L.con u).guar o m m' → F t h m → F t h m')
    (h : Reach Pool.step P s₀ s) : ∀ t, F t (s.hist t) s.mem := by
  refine (h.inv (I := fun s => L.Holds s ∧ ∀ t, F t (s.hist t) s.mem) ⟨hL, h₀⟩ ?_).2
  rintro s a s' ⟨hs, hF⟩ hstep hp
  refine ⟨L.step hs hstep hp, fun u => ?_⟩
  rcases step_cases hstep with ⟨t, c, l, p, rfl, -, -, rfl⟩ | ⟨t, c, o, l, rfl, hl, rfl⟩ |
    ⟨t, c, o, k, rfl, hl, rfl⟩
  · exact hF u
  · by_cases hu : u = t
    · subst hu
      simp only [Function.update_self]
      exact hret u _ c (o, l) _ (L.returned hs hl) (hF u)
    · simp only [Function.update_of_ne hu]
      exact hF u
  · exact hmem u t _ o _ _ (L.guar hs hstep hp (by rw [hl]; rfl)) (hF u)

end Outline

end Pool

end Concur
