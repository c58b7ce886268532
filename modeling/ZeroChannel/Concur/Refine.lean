/-
  Pools on another memory.

  The threads of `A.onto ex` make the same calls as those of `A` and run the same
  programs, on a memory of another type.  If an operation gives the same answer on
  related memories and leaves them related, then every run of `A.onto ex` is a run of
  `A`, call for call and answer for answer (`reach_back`).
-/
import ZeroChannel.Concur.Pool

namespace Concur

namespace Pool
variable {S : Sig} {σ τ T : Type}

/-- The threads of `A`, performing their operations on a memory `τ`. -/
def onto (A : Pool S σ T) (ex : ∀ t, A.Call t → Exec S τ) : Pool S τ T where
  Loc := A.Loc
  Call := A.Call
  Out := A.Out
  enter := A.enter
  exec := ex

variable {A : Pool S σ T} {ex : ∀ t, A.Call t → Exec S τ}

def Ctl.back {t : T} : (A.onto ex).Ctl t → A.Ctl t
  | .idle l => .idle l
  | .busy c p => .busy c p

def Act.back : (A.onto ex).Act → A.Act
  | .call t c => .call t c
  | .move t => .move t

/-- The configuration with the memory `m` in place of its own. -/
def Conf.back (s : (A.onto ex).Conf) (m : σ) : A.Conf where
  mem := m
  ctl t := (s.ctl t).back
  hist := s.hist

/-- The operation `o` of thread `t` gives the same answer on related memories and leaves
    them related. -/
def Agrees (A : Pool S σ T) (ex : ∀ t, A.Call t → Exec S τ) (rel : τ → σ → Prop) (t : T)
    (c : A.Call t) (o : S.Op) (n : τ) : Prop :=
  ∀ m, rel n m → (A.exec t c o m).1 = (ex t c o n).1 ∧ rel (ex t c o n).2 (A.exec t c o m).2

section
variable [DecidableEq T] {rel : τ → σ → Prop}

theorem back_update {s : (A.onto ex).Conf} {t : T} {x : (A.onto ex).Ctl t} :
    (fun u => (Function.update s.ctl t x u).back) =
      Function.update (fun u => (s.ctl u).back) t x.back := by
  funext u
  by_cases hu : u = t
  · subst hu
    simp only [Function.update_self]
  · simp only [Function.update_of_ne hu]

section
variable {B : Pool S σ T} {s : B.Conf} {t : T} {c : B.Call t}

theorem step_call {l : B.Loc t} {p : Prog S (B.Out t × B.Loc t)} (hl : s.ctl t = .idle l)
    (he : B.enter t c l = some p) :
    step s (.call t c) = some { s with ctl := Function.update s.ctl t (.busy c p) } := by
  simp only [step, hl, he, Option.map_some]

theorem step_return {o : B.Out t} {l : B.Loc t} (hl : s.ctl t = .busy c (.pure (o, l))) :
    step s (.move t) = some { s with
      ctl := Function.update s.ctl t (.idle l),
      hist := Function.update s.hist t (s.hist t ++ [(c, o)]) } := by
  simp only [step, hl]

theorem step_op {o : S.Op} {k : S.Res o → Prog S (B.Out t × B.Loc t)}
    (hl : s.ctl t = .busy c (.op o k)) :
    step s (.move t) = some { s with
      mem := (B.exec t c o s.mem).2,
      ctl := Function.update s.ctl t (.busy c (k (B.exec t c o s.mem).1)) } := by
  simp only [step, hl]

end

/-- **One step.** -/
theorem step_back {s s' : (A.onto ex).Conf} {a : (A.onto ex).Act} (hs : step s a = some s')
    (hop : ∀ t c o k, a = .move t → s.ctl t = .busy c (.op o k) → Agrees A ex rel t c o s.mem)
    {m : σ} (hm : rel s.mem m) :
    ∃ m', rel s'.mem m' ∧ step (s.back m) a.back = some (s'.back m') := by
  have hl' : ∀ {t : T} {x : (A.onto ex).Ctl t}, s.ctl t = x → (s.back m).ctl t = x.back := by
    rintro t x rfl
    rfl
  -- the control states but that of `t` are carried over as they are
  have hconf : ∀ (t : T) (x : (A.onto ex).Ctl t) n h m', ({ s with
      mem := n, ctl := Function.update s.ctl t x, hist := h } : (A.onto ex).Conf).back m' =
      { (s.back m) with mem := m', ctl := Function.update (s.back m).ctl t x.back, hist := h } := by
    intro t x n h m'
    simp only [Conf.back, back_update]
  rcases step_cases hs with ⟨t, c, l, p, rfl, hl, he, rfl⟩ | ⟨t, c, o, l, rfl, hl, rfl⟩ |
    ⟨t, c, o, k, rfl, hl, rfl⟩
  · refine ⟨m, hm, ?_⟩
    rw [hconf]
    exact step_call (hl' hl) he
  · refine ⟨m, hm, ?_⟩
    rw [hconf]
    exact step_return (hl' hl)
  · obtain ⟨hans, hrel⟩ := hop t c o k rfl hl m hm
    have hans : ((A.onto ex).exec t c o s.mem).1 = (A.exec t c o m).1 := hans.symm
    refine ⟨_, hrel, ?_⟩
    rw [hconf, hans]
    exact step_op (hl' hl)

/-- **A run on `τ` is a run on `σ`.**  `I` holds throughout the run and says that the
    operations performed agree. -/
theorem reach_back {I : (A.onto ex).Conf → Prop}
    {P : (A.onto ex).Conf → (A.onto ex).Act → (A.onto ex).Conf → Prop}
    (hkeep : ∀ s a s', I s → step s a = some s' → P s a s' → I s')
    (hop : ∀ s t c o k, I s → s.ctl t = .busy c (.op o k) → Agrees A ex rel t c o s.mem)
    {s₀ s : (A.onto ex).Conf} (h₀ : I s₀) {m₀ : σ} (hm : rel s₀.mem m₀)
    (h : Reach step P s₀ s) :
    ∃ m, rel s.mem m ∧ Reach step (fun _ _ _ => True) (s₀.back m₀) (s.back m) := by
  have hall := h.inv (I := fun s => I s ∧
      ∃ m, rel s.mem m ∧ Reach step (fun _ _ _ => True) (s₀.back m₀) (s.back m))
    ⟨h₀, m₀, hm, .refl⟩ ?_
  · exact hall.2
  · rintro s a s' ⟨hI, m, hm, hr⟩ hs hp
    obtain ⟨m', hm', hs'⟩ := step_back hs (fun t c o k _ hl => hop s t c o k hI hl) hm
    exact ⟨hkeep s a s' hI hs hp, m', hm', hr.tail hs' trivial⟩

end

end Pool

end Concur
