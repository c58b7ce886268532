/-
  Programs that the others hold up only by changing what they watch.

  `p.Despite ex obs good c b`: the program returns a good answer although the others change
  each thing `x` that it watches up to `c x` times; `b` is what could be seen after its last
  operation.  A loop that goes round again only when a compare-and-swap has failed is such
  a program: every round but the last is paid for by a change.

  A thread of a pool that runs such a program returns a good answer as soon as it is left
  alone (`Pool.despite`).
-/
import ZeroChannel.Concur.Bound

namespace Concur

variable {S : Sig} {α β σ T κ V : Type} [DecidableEq V]

namespace Prog

/-- A good answer despite the changes `c`. -/
def Despite (ex : Exec S σ) (obs : κ → σ → V) (good : α → (κ → ℕ) → Prop) :
    Prog S α → (κ → ℕ) → (κ → V) → Prop
  | .pure a, c, _ => good a c
  | .op o k, c, b => ∀ m c', (∀ x, c' x + (if obs x m = b x then 0 else 1) ≤ c x) →
      Despite ex obs good (k (ex o m).1) c' fun x => obs x (ex o m).2

namespace Despite
variable {ex : Exec S σ} {obs : κ → σ → V} {good good' : α → (κ → ℕ) → Prop}

theorem mono {p : Prog S α} {c : κ → ℕ} {b : κ → V} (h : p.Despite ex obs good c b)
    (hg : ∀ a c', (∀ x, c' x ≤ c x) → good a c' → good' a c') : p.Despite ex obs good' c b := by
  induction p generalizing c b with
  | pure a => exact hg a c (fun _ => Nat.le_refl _) h
  | op o k ih =>
    intro m c' hc'
    exact ih _ (h m c' hc') fun a c'' hc'' =>
      hg a c'' fun x => Nat.le_trans (hc'' x) (Nat.le_of_add_right_le (hc' x))

/-- Any answer is good. -/
theorem any (p : Prog S α) {c : κ → ℕ} {b : κ → V}
    (hg : ∀ a c', (∀ x, c' x ≤ c x) → good a c') : p.Despite ex obs good c b := by
  induction p generalizing c b with
  | pure a => exact hg a c fun _ => Nat.le_refl _
  | op o k ih =>
    intro m c' hc'
    exact ih _ fun a c'' hc'' =>
      hg a c'' fun x => Nat.le_trans (hc'' x) (Nat.le_of_add_right_le (hc' x))

theorem bind {p : Prog S α} {f : α → Prog S β} {good : β → (κ → ℕ) → Prop} {c : κ → ℕ}
    {b : κ → V} (h : p.Despite ex obs (fun a c' => ∀ b', (f a).Despite ex obs good c' b') c b) :
    (p >>= f).Despite ex obs good c b := by
  induction p generalizing c b with
  | pure a => exact h b
  | op o k ih => exact fun m c' hc' => ih _ (h m c' hc')

/-- Whatever the first part answers, the rest comes to a good answer. -/
theorem after {p : Prog S α} {f : α → Prog S β} {good : β → (κ → ℕ) → Prop} {c : κ → ℕ}
    {b : κ → V} (h : ∀ a c' b', (∀ x, c' x ≤ c x) → (f a).Despite ex obs good c' b') :
    (p >>= f).Despite ex obs good c b :=
  bind (any p fun a c' hc' b' => h a c' b' hc')

end Despite

end Prog

namespace Pool
variable {A : Pool S σ T} [DecidableEq T]

/-- How often the threads other than `t` change what `obs` shows. -/
def changes (t : T) (obs : σ → V) : A.Conf → List A.Act → ℕ
  | _, [] => 0
  | s, a :: as => match step s a with
    | none => 0
    | some s' => (if a.moves t ∨ obs s'.mem = obs s.mem then 0 else 1) + changes t obs s' as

theorem changes_cons {t : T} {obs : σ → V} {s s' : A.Conf} {a : A.Act} {as : List A.Act}
    (h : step s a = some s') : changes t obs s (a :: as) =
      (if a.moves t ∨ obs s'.mem = obs s.mem then 0 else 1) + changes t obs s' as := by
  rw [changes, h]

/-- The others change nothing more often than they move. -/
theorem changes_le (t : T) (obs : σ → V) : ∀ (as : List A.Act) (s : A.Conf),
    changes t obs s as ≤ as.countP fun a => !a.moves t := by
  intro as
  induction as with
  | nil => exact fun s => Nat.le_refl _
  | cons a as ih =>
    intro s
    cases hs : step s a with
    | none =>
      rw [changes, hs]
      exact Nat.zero_le _
    | some s' =>
      rw [changes_cons hs, List.countP_cons, Nat.add_comm]
      refine Nat.add_le_add (ih s') ?_
      cases a.moves t with
      | true => exact Nat.le_of_eq (if_pos (Or.inl rfl))
      | false =>
        simp only [Bool.not_false, if_true]
        split_ifs <;> omega

/-- Alone, a thread is not disturbed. -/
theorem changes_alone {t : T} {obs : σ → V} : ∀ (n : ℕ) (s : A.Conf),
    changes t obs s (List.replicate n (.move t)) = 0 := by
  intro n
  induction n with
  | zero => exact fun s => rfl
  | succ n ih =>
    intro s
    rw [List.replicate_succ]
    cases hs : step s (.move t) with
    | none => rw [changes, hs]
    | some s' =>
      have hmove : Act.moves t (.move t : A.Act) = true := decide_eq_true rfl
      rw [changes_cons hs, ih, if_pos (Or.inl hmove)]

/-- Alone, a thread returns from a call. -/
theorem returns_alone {t : T} {c : A.Call t} : ∀ (p : Prog S (A.Out t × A.Loc t)) {s : A.Conf},
    s.ctl t = .busy c p → ∃ n s' o, s'.hist t = s.hist t ++ [(c, o)] ∧
      steps step (fun _ _ => true) s (List.replicate n (.move t)) = some s' := by
  intro p
  induction p with
  | pure r =>
    intro s hc
    refine ⟨1, { s with
      ctl := Function.update s.ctl t (.idle r.2),
      hist := Function.update s.hist t (s.hist t ++ [(c, r.1)]) }, r.1,
      Function.update_self .., ?_⟩
    simp only [steps, List.replicate_one, List.foldlM_cons, List.foldlM_nil, if_true, step, hc]
    rfl
  | op o k ih =>
    intro s hc
    obtain ⟨n, s', a, hh, hs⟩ := ih (A.exec t c o s.mem).1 (s := { s with
      mem := (A.exec t c o s.mem).2,
      ctl := Function.update s.ctl t (.busy c (k (A.exec t c o s.mem).1)) })
      (Function.update_self ..)
    refine ⟨n + 1, s', a, hh, ?_⟩
    simp only [steps, List.replicate_succ, List.foldlM_cons, if_true, step, hc]
    exact hs

section
variable {obs : κ → σ → V} {t : T} {c : A.Call t} {good : A.Out t → Prop}

/-- A thread in a call that goes on as it should: `n` is what the others still do. -/
def Going (obs : κ → σ → V) (t : T) (c : A.Call t) (good : A.Out t → Prop) (n : κ → ℕ)
    (s : A.Conf) : Prop :=
  ∃ p d b, s.ctl t = .busy c p ∧ p.Despite (A.exec t c) obs (fun r _ => good r.1) d b ∧
    ∀ x, n x + (if obs x s.mem = b x then 0 else 1) ≤ d x

/-- One step: the call is left well, or goes on. -/
theorem Going.step {n : κ → ℕ} {s s' : A.Conf} {a : A.Act}
    (h : Going obs t c good (fun x =>
      (if a.moves t ∨ obs x s'.mem = obs x s.mem then 0 else 1) + n x) s)
    (hs : Pool.step s a = some s') :
    (∃ o, s'.hist t = s.hist t ++ [(c, o)] ∧ good o) ∨
      s'.hist t = s.hist t ∧ Going obs t c good n s' := by
  obtain ⟨p, d, b, hc, hp, hd⟩ := h
  -- a step of another thread uses up what it changes
  have hother : ∀ u (x : A.Ctl u), u ≠ t → s'.ctl = Function.update s.ctl u x →
      a.moves t = false → Going obs t c good n s' := by
    intro u x hu hx hmove
    refine ⟨p, d, b, by rw [hx, Function.update_of_ne hu.symm, hc], hp, fun y => ?_⟩
    have := hd y
    simp only [hmove, Bool.false_eq_true, false_or] at this
    by_cases hb : obs y s'.mem = b y
    · rw [if_pos hb]
      omega
    · rw [if_neg hb]
      by_cases he : obs y s'.mem = obs y s.mem
      · rw [if_pos he, if_neg (he ▸ hb)] at this
        omega
      · rw [if_neg he] at this
        omega
  rcases step_cases hs with ⟨u, e, l, r, rfl, hu, -, rfl⟩ | ⟨u, e, o, l, rfl, hu, rfl⟩ |
    ⟨u, e, o, k, rfl, hu, rfl⟩
  · refine Or.inr ⟨rfl, hother u _ ?_ rfl rfl⟩
    rintro rfl
    rw [hc] at hu
    cases hu
  · by_cases hut : u = t
    · subst hut
      rw [hc] at hu
      cases hu
      exact Or.inl ⟨o, Function.update_self .., hp⟩
    · exact Or.inr ⟨Function.update_of_ne (Ne.symm hut) .., hother u _ hut rfl (decide_eq_false hut)⟩
  · by_cases hut : u = t
    · subst hut
      rw [hc] at hu
      cases hu
      refine Or.inr ⟨rfl, _, n, _, Function.update_self .., hp s.mem n fun x => ?_, fun x => ?_⟩
      · refine Nat.le_trans (Nat.add_le_add_right ?_ _) (hd x)
        exact Nat.le_add_left ..
      · rw [if_pos rfl]
        exact Nat.le_refl _
    · exact Or.inr ⟨rfl, hother u _ hut rfl (decide_eq_false hut)⟩

/-- A whole run. -/
theorem Going.run : ∀ {as : List A.Act} {s s' : A.Conf},
    Going obs t c good (fun x => changes t (obs x) s as) s →
    steps Pool.step (fun _ _ => true) s as = some s' →
      (∃ o rest, s'.hist t = s.hist t ++ (c, o) :: rest ∧ good o) ∨
        s'.hist t = s.hist t ∧ Going obs t c good (fun _ => 0) s' := by
  intro as
  induction as with
  | nil =>
    intro s s' h hs
    cases hs
    exact Or.inr ⟨rfl, h⟩
  | cons a as ih =>
    intro s s' h hs
    rw [steps, List.foldlM_cons, Option.bind_eq_bind, Option.bind_eq_some_iff] at hs
    obtain ⟨s₁, h₁, hs⟩ := hs
    rw [if_pos rfl] at h₁
    simp only [changes_cons h₁] at h
    rcases h.step h₁ with ⟨o, hh, ho⟩ | ⟨hh, h⟩
    · obtain ⟨rest, hr⟩ := (same_hist (t := t) (reach_of_steps .refl hs)).1
      refine Or.inl ⟨o, rest, ?_, ho⟩
      rw [← hr, hh, List.append_assoc]
      rfl
    · rw [← hh]
      exact ih h hs

/-- **Left alone, a call comes to a good end**, at any moment of any run: `d` bounds how often
    the others have changed what it watches since it was made. -/
theorem despite (good : A.Out t → Prop) {s s₁ s' : A.Conf} {as : List A.Act}
    (hcall : Pool.step s (.call t c) = some s₁)
    (hs : steps Pool.step (fun _ _ => true) s₁ as = some s')
    (hp : ∀ l p, A.enter t c l = some p → ∀ b,
      p.Despite (A.exec t c) obs (fun r _ => good r.1) (fun x => changes t (obs x) s₁ as) b) :
    ∃ n s'' o rest, steps Pool.step (fun _ _ => true) s' (List.replicate n (.move t)) = some s'' ∧
      s''.hist t = s.hist t ++ (c, o) :: rest ∧ good o := by
  have hstart : s₁.hist t = s.hist t ∧
      Going obs t c good (fun x => changes t (obs x) s₁ as) s₁ := by
    rcases step_cases hcall with ⟨u, d, l, p, ha, -, he, rfl⟩ | ⟨_, _, _, _, ha, -⟩ |
      ⟨_, _, _, _, ha, -⟩
    · cases ha
      refine ⟨rfl, p, _, fun x => obs x s.mem, Function.update_self .., hp l p he _, fun x => ?_⟩
      rw [if_pos rfl]
      exact Nat.le_refl _
    · cases ha
    · cases ha
  obtain ⟨hh, hgoing⟩ := hstart
  rcases hgoing.run hs with ⟨o, rest, hh', ho⟩ | ⟨hh', hgoing'⟩
  · exact ⟨0, s', o, rest, rfl, hh ▸ hh', ho⟩
  · obtain ⟨p, -, -, hc, -, -⟩ := id hgoing'
    obtain ⟨n, s'', a, ha, hn⟩ := returns_alone p hc
    have halone : Going obs t c good
        (fun x => changes t (obs x) s' (List.replicate n (.move t))) s' := by
      simp only [changes_alone]
      exact hgoing'
    rcases halone.run hn with ⟨o, rest, ho', ho⟩ | ⟨ho', -⟩
    · exact ⟨n, s'', o, rest, hn, by rw [ho', hh', hh], ho⟩
    · rw [ha] at ho'
      exact absurd ho' (by simp)

end

end Pool

end Concur
