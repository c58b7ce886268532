/-
  Traces and forward simulation.

  A trace lists the calls of a run with their answers.  If each step of one
  machine is matched by a step of the other with the same call and answer, the
  first has no trace that the second does not have.
-/
import Mathlib.Tactic.Common

namespace Concur

variable {σ τ α β : Type}

/-- `tr` is the trace of a run from `s₀` to `s`. -/
inductive Trace (step : σ → α → β → σ → Prop) (s₀ : σ) : List (α × β) → σ → Prop
  | nil : Trace step s₀ [] s₀
  | snoc {tr : List (α × β)} {s s' : σ} {a : α} {b : β} : Trace step s₀ tr s → step s a b s' →
      Trace step s₀ (tr ++ [(a, b)]) s'

/-- **Forward simulation**, while `I` lasts. -/
theorem Trace.simulate {step : σ → α → β → σ → Prop} {step' : τ → α → β → τ → Prop}
    {R : σ → τ → Prop} {I : σ → Prop} {s₀ s : σ} {t₀ : τ} {tr : List (α × β)}
    (h : Trace step s₀ tr s) (h₀ : R s₀ t₀) (hI : ∀ s a b s', step s a b s' → I s' → I s)
    (hstep : ∀ s t a b s', R s t → step s a b s' → I s' → ∃ t', step' t a b t' ∧ R s' t')
    (hs : I s) : ∃ t, Trace step' t₀ tr t ∧ R s t := by
  induction h with
  | nil => exact ⟨t₀, .nil, h₀⟩
  | snoc _ hst ih =>
    obtain ⟨t, ht, hR⟩ := ih (hI _ _ _ _ hst hs)
    obtain ⟨t', ht', hR'⟩ := hstep _ _ _ _ _ hR hst hs
    exact ⟨t', ht.snoc ht', hR'⟩

/-- Run a list of calls, recording the answers. -/
def record (f : σ → α → Option (β × σ)) (s : σ) : List α → Option (List (α × β) × σ)
  | [] => some ([], s)
  | a :: as => (f s a).bind fun r => (record f r.2 as).map fun q => ((a, r.1) :: q.1, q.2)

theorem Trace.append {step : σ → α → β → σ → Prop} {s₀ s₁ s₂ : σ} {tr tr' : List (α × β)}
    (h : Trace step s₀ tr s₁) (h' : Trace step s₁ tr' s₂) : Trace step s₀ (tr ++ tr') s₂ := by
  induction h' with
  | nil => rwa [List.append_nil]
  | snoc _ hs ih =>
    rw [← List.append_assoc]
    exact ih.snoc hs

/-- A run has a state at each point of its trace. -/
theorem Trace.split {step : σ → α → β → σ → Prop} {s₀ s : σ} {tr tr' : List (α × β)}
    (h : Trace step s₀ (tr ++ tr') s) : ∃ s₁, Trace step s₀ tr s₁ ∧ Trace step s₁ tr' s := by
  generalize hl : tr ++ tr' = l at h
  induction h generalizing tr' with
  | nil =>
    obtain ⟨rfl, rfl⟩ := List.append_eq_nil_iff.1 hl
    exact ⟨s₀, .nil, .nil⟩
  | @snoc l s s' a b ht hs ih =>
    rcases List.eq_nil_or_concat tr' with rfl | ⟨tr'', x, rfl⟩
    · rw [List.append_nil] at hl
      exact ⟨s', hl ▸ ht.snoc hs, .nil⟩
    · rw [List.concat_eq_append, ← List.append_assoc] at hl
      obtain ⟨hinit, hx⟩ := List.append_inj' hl rfl
      cases hx
      obtain ⟨s₁, h₁, h₂⟩ := ih hinit
      rw [List.concat_eq_append]
      exact ⟨s₁, h₁, h₂.snoc hs⟩

/-- A trace of one call is a step. -/
theorem trace_single {step : σ → α → β → σ → Prop} {s₀ s : σ} {a : α} {b : β}
    (h : Trace step s₀ [(a, b)] s) : step s₀ a b s := by
  generalize hl : [(a, b)] = l at h
  cases h with
  | nil => cases hl
  | snoc ht hs =>
    obtain ⟨hinit, hx⟩ := List.append_inj' ((List.nil_append _).trans hl) rfl
    cases hx
    cases ht with
    | nil => exact hs
    | snoc => simp at hinit

/-- A recorded run has its record as a trace. -/
theorem trace_of_record {f : σ → α → Option (β × σ)} : ∀ {as : List α} {s s' : σ}
    {tr : List (α × β)}, record f s as = some (tr, s') →
      Trace (fun s a b s' => f s a = some (b, s')) s tr s' := by
  intro as
  induction as with
  | nil =>
    intro s s' tr h
    cases h
    exact .nil
  | cons a as ih =>
    intro s s' tr h
    obtain ⟨⟨b, s₁⟩, hf, h₁⟩ := Option.bind_eq_some_iff.1 h
    obtain ⟨⟨tr', s₂⟩, h₂, he⟩ := Option.map_eq_some_iff.1 h₁
    cases he
    exact (Trace.snoc .nil hf).append (ih h₂)

end Concur
