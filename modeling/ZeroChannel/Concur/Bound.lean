/-
  Programs that return after a bounded number of operations.

  `p.AtMost n`: whatever its operations are answered, the program performs at most `n`
  of them.  A thread of a pool that runs such a program returns after `n + 1` of its
  own moves, whatever the other threads do, or if they stop for good.
-/
import ZeroChannel.Concur.Pool

namespace Concur

variable {S : Sig} {α β σ T : Type}

namespace Prog

/-- The program performs at most `n` operations. -/
def AtMost : ℕ → Prog S α → Prop
  | _, .pure _ => True
  | 0, .op _ _ => False
  | n + 1, .op _ k => ∀ r, AtMost n (k r)

theorem atMost_pure (n : ℕ) (a : α) : (Prog.pure a : Prog S α).AtMost n := by
  cases n <;> trivial

theorem atMost_act (o : S.Op) : (Prog.op o .pure : Prog S (S.Res o)).AtMost 1 :=
  fun _ => atMost_pure 0 _

theorem AtMost.mono {p : Prog S α} {m n : ℕ} (h : p.AtMost m) (hmn : m ≤ n) : p.AtMost n := by
  induction p generalizing m n with
  | pure a => exact atMost_pure n a
  | op o k ih =>
    obtain _ | m := m
    · exact h.elim
    obtain _ | n := n
    · omega
    exact fun r => ih r (h r) (by omega)

/-- The bounds of two programs in sequence add up. -/
theorem AtMost.bind {p : Prog S α} {f : α → Prog S β} {m n : ℕ} (hp : p.AtMost m)
    (hf : ∀ a, (f a).AtMost n) : (p >>= f).AtMost (m + n) := by
  induction p generalizing m with
  | pure a => exact (hf a).mono (Nat.le_add_left n m)
  | op o k ih =>
    obtain _ | m := m
    · exact hp.elim
    rw [Nat.succ_add]
    exact fun r => ih r (hp r)

theorem AtMost.foldlM {ι : Type} {f : β → ι → Prog S β} {n : ℕ} (h : ∀ b x, (f b x).AtMost n) :
    ∀ (l : List ι) (b : β), (l.foldlM f b).AtMost (l.length * n)
  | [], b => atMost_pure _ b
  | x :: l, b => by
    rw [List.foldlM_cons, List.length_cons, Nat.succ_mul, Nat.add_comm]
    exact (h b x).bind fun b' => AtMost.foldlM h l b'

end Prog

namespace Pool
variable {A : Pool S σ T} [DecidableEq T]

/-- The scheduler lets thread `t` move. -/
def Act.moves (t : T) : A.Act → Bool
  | .call _ _ => false
  | .move u => u = t

/-- A thread in a call returns when it has moved often enough. -/
theorem steps_bounded {t : T} {c : A.Call t} : ∀ {as : List A.Act} {s s' : A.Conf} {n : ℕ}
    {p : Prog S (A.Out t × A.Loc t)}, s.ctl t = .busy c p → p.AtMost n →
    steps step (fun _ _ => true) s as = some s' → n < as.countP (Act.moves t) →
      (s.hist t).length < (s'.hist t).length := by
  intro as
  induction as with
  | nil =>
    intro s s' n p _ _ _ hn
    simp at hn
  | cons a as ih =>
    intro s s' n p hc hp hs hn
    rw [steps, List.foldlM_cons, Option.bind_eq_bind, Option.bind_eq_some_iff] at hs
    obtain ⟨s₁, h₁, hs⟩ := hs
    rw [if_pos rfl] at h₁
    -- a step of another thread leaves this one where it is
    have hother : ∀ u (x : A.Ctl u), u ≠ t → s₁.ctl = Function.update s.ctl u x →
        (s₁.hist t).length = (s.hist t).length → a.moves t = false →
        (s.hist t).length < (s'.hist t).length := by
      intro u x hu hx hlen hmove
      rw [← hlen]
      refine ih (by rw [hx, Function.update_of_ne hu.symm, hc]) hp hs ?_
      rwa [List.countP_cons_of_neg (by rw [hmove]; exact Bool.false_ne_true)] at hn
    have hgrow : ∀ {s s' : A.Conf} {as : List A.Act},
        steps step (fun _ _ => true) s as = some s' → (s.hist t).length ≤ (s'.hist t).length :=
      fun {s s' as} hs => (same_hist (reach_of_steps .refl hs)).1.length_le
    rcases step_cases h₁ with ⟨u, d, l, r, rfl, hu, -, rfl⟩ | ⟨u, d, o, l, rfl, hu, rfl⟩ |
      ⟨u, d, o, k, rfl, hu, hs₁⟩
    · refine hother u _ ?_ rfl rfl rfl
      rintro rfl
      rw [hc] at hu
      cases hu
    · by_cases hut : u = t
      · subst hut
        have := hgrow hs
        simp only [Function.update_self, List.length_append, List.length_singleton] at this
        omega
      · refine hother u _ hut rfl ?_ (decide_eq_false hut)
        simp only [Function.update_of_ne (Ne.symm hut)]
    · by_cases hut : u = t
      · subst hut
        rw [hc] at hu
        cases hu
        obtain _ | n := n
        · exact hp.elim
        rw [List.countP_cons_of_pos (show Act.moves u (.move u : A.Act) = true from decide_eq_true rfl)]
          at hn
        have hhist : s₁.hist = s.hist := by rw [hs₁]
        rw [← hhist]
        refine ih (s := s₁) ?_ (hp (A.exec u d o s.mem).1) hs (by omega)
        rw [hs₁]
        exact Function.update_self ..
      · exact hother u _ hut (by rw [hs₁]) (by rw [hs₁]) (decide_eq_false hut)

/-- **Bounded calls return**: once the call has been made, `n + 1` moves of the thread are
    enough, in whatever schedule. -/
theorem returns {t : T} {c : A.Call t} {n : ℕ} {s s₁ s' : A.Conf} {as : List A.Act}
    (hcall : step s (.call t c) = some s₁)
    (hp : ∀ l p, A.enter t c l = some p → p.AtMost n)
    (hs : steps step (fun _ _ => true) s₁ as = some s') (hn : n < as.countP (Act.moves t)) :
    (s.hist t).length < (s'.hist t).length := by
  rcases step_cases hcall with ⟨u, d, l, p, ha, hl, he, hs₁⟩ | ⟨_, _, _, _, ha, -⟩ |
    ⟨_, _, _, _, ha, -⟩
  · cases ha
    have hhist : s₁.hist = s.hist := by rw [hs₁]
    rw [← hhist]
    refine steps_bounded (s := s₁) (c := c) ?_ (hp l p he) hs hn
    rw [hs₁]
    exact Function.update_self ..
  · cases ha
  · cases ha

end Pool

end Concur
