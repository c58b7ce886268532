/-
  Programs over a shared memory, as trees of atomic operations.

  A signature lists the atomic operations and the type of each one's answer; a
  program either returns or performs one operation and continues with its
  answer.  The same program is read in two ways:

  * `Prog.run` executes it alone, without interruption;
  * performing its next operation only lets the operations of several programs
    be interleaved, or a program be cut short.

  `Solo` relates a program and a memory to what is left of the two after some
  number of its own operations.
-/
import Mathlib.Tactic.Common

namespace Concur

/-- Atomic operations, each with the type of its answer. -/
structure Sig where
  Op : Type
  Res : Op → Type

/-- Programs of atomic operations returning an `α`. -/
inductive Prog (S : Sig) (α : Type) : Type where
  | pure (a : α)
  | op (o : S.Op) (k : S.Res o → Prog S α)

/-- The meaning of the operations on a memory `σ`. -/
abbrev Exec (S : Sig) (σ : Type) := (o : S.Op) → σ → S.Res o × σ

namespace Prog
variable {S : Sig} {α β σ : Type}

def bind : Prog S α → (α → Prog S β) → Prog S β
  | .pure a, f => f a
  | .op o k, f => .op o fun r => (k r).bind f

instance : Monad (Prog S) where
  pure := .pure
  bind := .bind

/-- The program performing one operation. -/
def act (o : S.Op) : Prog S (S.Res o) := .op o .pure

@[simp] theorem bind_pure (a : α) (f : α → Prog S β) : (Prog.pure a : Prog S α).bind f = f a := rfl

@[simp] theorem pure_bind' (a : α) (f : α → Prog S β) : (Prog.pure a : Prog S α) >>= f = f a := rfl

@[simp] theorem op_bind (o : S.Op) (k : S.Res o → Prog S α) (f : α → Prog S β) :
    (Prog.op o k) >>= f = .op o fun r => k r >>= f := rfl

@[simp] theorem act_bind (o : S.Op) (f : S.Res o → Prog S β) : act o >>= f = .op o f := rfl

theorem bind_assoc {γ : Type} (p : Prog S α) (f : α → Prog S β) (g : β → Prog S γ) :
    p >>= f >>= g = p >>= fun a => f a >>= g := by
  induction p with
  | pure a => rfl
  | op o k ih => simp only [op_bind, ih]

@[simp] theorem pure_eq (a : α) : (Pure.pure a : Prog S α) = .pure a := rfl

/-! ## Running alone -/

variable (ex : Exec S σ)

/-- The answer and the memory after an uninterrupted run. -/
def run : Prog S α → σ → α × σ
  | .pure a, s => (a, s)
  | .op o k, s => (k (ex o s).1).run (ex o s).2

@[simp] theorem run_pure (a : α) (s : σ) : (Prog.pure a : Prog S α).run ex s = (a, s) := rfl

@[simp] theorem run_op (o : S.Op) (k : S.Res o → Prog S α) (s : σ) :
    (Prog.op o k).run ex s = (k (ex o s).1).run ex (ex o s).2 := rfl

@[simp] theorem run_bind (p : Prog S α) (f : α → Prog S β) (s : σ) :
    (p >>= f).run ex s = (f (p.run ex s).1).run ex (p.run ex s).2 := by
  induction p generalizing s with
  | pure a => rfl
  | op o k ih => rw [op_bind, run_op, ih]; rfl

/-! ## Interpreting programs in another signature -/

variable {S' : Sig}

/-- The program with each operation replaced by a program of the signature `S'`. -/
def lift (f : (o : S.Op) → Prog S' (S.Res o)) : Prog S α → Prog S' α
  | .pure a => .pure a
  | .op o k => f o >>= fun r => (k r).lift f

/-- Every operation the program can perform satisfies `P`. -/
def All (P : S.Op → Prop) : Prog S α → Prop
  | .pure _ => True
  | .op o k => P o ∧ ∀ r, All P (k r)

theorem All.bind {P : S.Op → Prop} {p : Prog S α} {f : α → Prog S β} (hp : p.All P)
    (hf : ∀ a, (f a).All P) : (p >>= f).All P := by
  induction p with
  | pure a => exact hf a
  | op o k ih => exact ⟨hp.1, fun r => ih r (hp.2 r)⟩

theorem All.foldlM {ι : Type} {P : S.Op → Prop} {f : β → ι → Prog S β}
    (h : ∀ b x, (f b x).All P) : ∀ (l : List ι) (b : β), (l.foldlM f b).All P
  | [], _ => trivial
  | x :: l, b => by
    rw [List.foldlM_cons]
    exact (h b x).bind fun b' => All.foldlM h l b'

theorem All.mono {P P' : S.Op → Prop} (h : ∀ o, P o → P' o) : ∀ {p : Prog S α}, p.All P → p.All P'
  | .pure _, _ => trivial
  | .op _ _, ⟨ho, hk⟩ => ⟨h _ ho, fun r => All.mono h (hk r)⟩

theorem all_true : ∀ p : Prog S α, p.All fun _ => True
  | .pure _ => trivial
  | .op _ k => ⟨trivial, fun r => all_true (k r)⟩

theorem All.lift {P : S.Op → Prop} {P' : S'.Op → Prop} {f : (o : S.Op) → Prog S' (S.Res o)}
    (h : ∀ o, P o → (f o).All P') : ∀ {p : Prog S α}, p.All P → (p.lift f).All P'
  | .pure _, _ => trivial
  | .op o _, hp => (h o hp.1).bind fun r => All.lift h (hp.2 r)

/-! ## Cut short -/

/-- The first `n` operations of a program; `none` if it has not returned by then. -/
def take : ℕ → Prog S α → Prog S (Option α)
  | _, .pure a => .pure (some a)
  | 0, .op _ _ => .pure none
  | n + 1, .op o k => .op o fun r => take n (k r)

/-! ## One operation at a time -/

/-- The operation a program performs next. -/
def next? : Prog S α → Option S.Op
  | .pure _ => none
  | .op o _ => some o

@[simp] theorem next?_pure (a : α) : (Prog.pure a : Prog S α).next? = none := rfl

@[simp] theorem next?_op (o : S.Op) (k : S.Res o → Prog S α) : (Prog.op o k).next? = some o := rfl

/-- What is left of a program and its memory after some of its own operations. -/
inductive Solo : Prog S α → σ → Prog S α → σ → Prop
  | refl (p : Prog S α) (s : σ) : Solo p s p s
  | op {o : S.Op} {k : S.Res o → Prog S α} {s s' : σ} {q : Prog S α} :
      Solo (k (ex o s).1) (ex o s).2 q s' → Solo (.op o k) s q s'

variable {ex}

theorem Solo.trans {p q r : Prog S α} {s s' s'' : σ} (h : Solo ex p s q s')
    (h' : Solo ex q s' r s'') : Solo ex p s r s'' := by
  induction h with
  | refl => exact h'
  | op _ ih => exact .op (ih h')

/-- The operation performed next extends a solo run. -/
theorem Solo.snoc {p : Prog S α} {o : S.Op} {k : S.Res o → Prog S α} {s s' : σ}
    (h : Solo ex p s (.op o k) s') : Solo ex p s (k (ex o s').1) (ex o s').2 :=
  h.trans (.op (.refl _ _))

variable (ex) in
/-- The first `n` operations of a program, run alone. -/
def advance (n : ℕ) (p : Prog S α) (s : σ) : Prog S α × σ := match n, p with
  | n + 1, .op o k => advance n (k (ex o s).1) (ex o s).2
  | _, p => (p, s)

theorem solo_advance : ∀ (n : ℕ) (p : Prog S α) (s : σ),
    Solo ex p s (advance ex n p s).1 (advance ex n p s).2
  | 0, p, s => by cases p <;> exact .refl _ _
  | n + 1, .pure a, s => .refl _ _
  | n + 1, .op o k, s => .op (solo_advance n _ _)

/-- A solo run to the end is the uninterrupted run. -/
theorem Solo.run_eq {p : Prog S α} {a : α} {s s' : σ} (h : Solo ex p s (.pure a) s') :
    p.run ex s = (a, s') := by
  generalize hq : Prog.pure a = q at h
  induction h with
  | refl => rw [← hq, run_pure]
  | op _ ih => exact ih hq

theorem solo_pure {a : α} {s s' : σ} {q : Prog S α} (h : Solo ex (.pure a) s q s') :
    q = .pure a ∧ s' = s := by
  cases h; exact ⟨rfl, rfl⟩

theorem solo_op {o : S.Op} {k : S.Res o → Prog S α} {s s' : σ} {q : Prog S α} :
    Solo ex (.op o k) s q s' ↔
      (q = .op o k ∧ s' = s) ∨ Solo ex (k (ex o s).1) (ex o s).2 q s' := by
  constructor
  · intro h
    cases h with
    | refl => exact Or.inl ⟨rfl, rfl⟩
    | op h => exact Or.inr h
  · rintro (⟨rfl, rfl⟩ | h)
    · exact .refl _ _
    · exact .op h

/-- A solo run of `p >>= f` is still inside `p`, or `p` has returned and it is
    inside the continuation. -/
theorem solo_bind {p : Prog S α} {f : α → Prog S β} {s s' : σ} {q : Prog S β}
    (h : Solo ex (p >>= f) s q s') :
    (∃ p' o, Solo ex p s p' s' ∧ p'.next? = some o ∧ q.next? = some o) ∨
      Solo ex (f (p.run ex s).1) (p.run ex s).2 q s' := by
  induction p generalizing s with
  | pure a => exact Or.inr h
  | op o k ih =>
    rw [op_bind, solo_op] at h
    rcases h with ⟨rfl, rfl⟩ | h
    · exact Or.inl ⟨_, o, .refl _ _, rfl, rfl⟩
    · rcases ih _ h with ⟨p', o', hp', ho⟩ | h
      · exact Or.inl ⟨p', o', .op hp', ho⟩
      · exact Or.inr h

end Prog

end Concur
