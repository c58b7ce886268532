/-
  Runs of a state machine.

  A machine is a step function that may refuse an action.  `Reach step P s₀ s`:
  some run from `s₀`, all of whose steps satisfy `P`, ends in `s`.
-/
import Mathlib.Tactic.Common
import Mathlib.Tactic.SplitIfs

namespace Concur

variable {σ α β : Type}

/-- The states reached by runs whose steps all satisfy `P`. -/
inductive Reach (step : σ → α → Option σ) (P : σ → α → σ → Prop) (s₀ : σ) : σ → Prop
  | refl : Reach step P s₀ s₀
  | tail {s s' : σ} {a : α} : Reach step P s₀ s → step s a = some s' → P s a s' →
      Reach step P s₀ s'

/-- Run a list of actions, each of them allowed by `ok`. -/
def steps (step : σ → α → Option σ) (ok : σ → α → Bool) (s : σ) (as : List α) : Option σ :=
  as.foldlM (fun s a => if ok s a then step s a else none) s

section
variable {step : σ → α → Option σ} {P P' : σ → α → σ → Prop} {s₀ s : σ}

namespace Reach

/-- The invariant rule. -/
theorem inv {I : σ → Prop} (h : Reach step P s₀ s) (h₀ : I s₀)
    (hstep : ∀ s a s', I s → step s a = some s' → P s a s' → I s') : I s := by
  induction h with
  | refl => exact h₀
  | tail _ hs hp ih => exact hstep _ _ _ ih hs hp

/-- An invariant may be assumed of the states that are entered. -/
theorem with_inv {I : σ → Prop} (h : Reach step P s₀ s) (h₀ : I s₀)
    (hstep : ∀ s a s', I s → step s a = some s' → P s a s' → I s') :
    Reach step (fun s a s' => P s a s' ∧ I s') s₀ s := by
  induction h with
  | refl => exact .refl
  | tail hr hs hp ih => exact ih.tail hs ⟨hp, hstep _ _ _ (hr.inv h₀ hstep) hs hp⟩

theorem trans {s' : σ} (h : Reach step P s₀ s) (h' : Reach step P s s') : Reach step P s₀ s' := by
  induction h' with
  | refl => exact h
  | tail _ hs hp ih => exact ih.tail hs hp

theorem mono (h : Reach step P s₀ s) (hP : ∀ s a s', P s a s' → P' s a s') :
    Reach step P' s₀ s := by
  induction h with
  | refl => exact .refl
  | tail _ hs hp ih => exact ih.tail hs (hP _ _ _ hp)

/-- If the states that are left satisfy `J`, and the last one does, so do those that are
    entered. -/
theorem entered {J : σ → Prop} (h : Reach step (fun s _ _ => J s) s₀ s) (hs : J s) :
    Reach step (fun _ _ s' => J s') s₀ s := by
  induction h with
  | refl => exact .refl
  | tail _ hst hp ih => exact (ih hp).tail hst hs

/-- A quantity that steps never decrease bounds the whole run by its last value. -/
theorem bounded (h : Reach step P s₀ s) (f : σ → ℕ)
    (hf : ∀ s a s', step s a = some s' → f s ≤ f s') {b : ℕ} (hb : f s < b) :
    Reach step (fun s a s' => P s a s' ∧ f s' < b) s₀ s := by
  induction h with
  | refl => exact .refl
  | tail _ hs hp ih => exact (ih (Nat.lt_of_le_of_lt (hf _ _ _ hs) hb)).tail hs ⟨hp, hb⟩

end Reach

/-- The steps that pass a test. -/
def tested (step : σ → α → Option σ) (ok : σ → α → σ → Bool) (s : σ) (a : α) : Option σ :=
  (step s a).filter (ok s a)

theorem Reach.of_tested {ok : σ → α → σ → Bool} (h : Reach (tested step ok) P s₀ s) :
    Reach step (fun s a s' => ok s a s') s₀ s := by
  induction h with
  | refl => exact .refl
  | tail _ hs _ ih =>
    obtain ⟨hs, hok⟩ := Option.filter_eq_some_iff.1 hs
    exact ih.tail hs hok

/-- Executed runs are runs. -/
theorem reach_of_steps {ok : σ → α → Bool} : ∀ {as : List α} {s s' : σ},
    Reach step (fun s a _ => ok s a) s₀ s → steps step ok s as = some s' →
      Reach step (fun s a _ => ok s a) s₀ s' := by
  intro as
  induction as with
  | nil =>
    intro s s' h hs
    cases hs
    exact h
  | cons a as ih =>
    intro s s' h hs
    rw [steps, List.foldlM_cons, Option.bind_eq_bind, Option.bind_eq_some_iff] at hs
    obtain ⟨s₁, h₁, h₂⟩ := hs
    split_ifs at h₁ with hok
    exact ih (h.tail h₁ hok) h₂

/-- What an executed run computes is computed in a reachable state. -/
theorem reach_eval {ok : σ → α → Bool} {as : List α} {f : σ → β} {b : β}
    (h : (steps step ok s₀ as).map f = some b) :
    ∃ s, Reach step (fun s a _ => ok s a) s₀ s ∧ f s = b := by
  obtain ⟨s, hs, hb⟩ := Option.map_eq_some_iff.1 h
  exact ⟨s, reach_of_steps .refl hs, hb⟩

end

end Concur
