/-
  Rely–guarantee reasoning about programs of atomic operations.

  `Valid ex Γ Q p s`: from the memory `s`, whatever the other threads do between
  two operations of `p` (`Γ.rely`), each operation of `p` keeps `Γ.guar`, and if
  `p` returns `a` in the memory `s'` then `Q a s'`.

  Rely and guarantee may depend on the operation the thread performs next.  With
  the rely `Eq` the thread runs alone, and `Γ.guar` speaks of every memory in
  which its run can be cut short.
-/
import ZeroChannel.Concur.Prog

namespace Concur

variable {S : Sig} {α β ι σ : Type}

/-- What a thread assumes of the others and promises to them. -/
structure Contract (S : Sig) (σ : Type) where
  /-- the memories considered -/
  ok : σ → Prop
  /-- what the others may do while the thread is about to perform the operation -/
  rely : Option S.Op → σ → σ → Prop
  /-- what the thread does by performing the operation -/
  guar : S.Op → σ → σ → Prop

/-- **Validity** of a program from a memory. -/
def Valid (ex : Exec S σ) (Γ : Contract S σ) (Q : α → σ → Prop) : Prog S α → σ → Prop
  | .pure a, s => Q a s
  | .op o k, s => ∀ s', Γ.rely (some o) s s' → Γ.ok (ex o s').2 →
      Γ.guar o s' (ex o s').2 ∧ Valid ex Γ Q (k (ex o s').1) (ex o s').2

section
variable {ex : Exec S σ} {Γ : Contract S σ} {Q : α → σ → Prop}

@[simp] theorem valid_pure {a : α} {s : σ} : Valid ex Γ Q (.pure a) s ↔ Q a s := Iff.rfl

theorem valid_op {o : S.Op} {k : S.Res o → Prog S α} {s : σ} :
    Valid ex Γ Q (.op o k) s ↔ ∀ s', Γ.rely (some o) s s' → Γ.ok (ex o s').2 →
      Γ.guar o s' (ex o s').2 ∧ Valid ex Γ Q (k (ex o s').1) (ex o s').2 := Iff.rfl

theorem Valid.mono {Q' : α → σ → Prop} {p : Prog S α} {s : σ} (h : Valid ex Γ Q p s)
    (hQ : ∀ a s, Q a s → Q' a s) : Valid ex Γ Q' p s := by
  induction p generalizing s with
  | pure a => exact hQ _ _ h
  | op o k ih => exact fun s' hs ho => ⟨(h s' hs ho).1, ih _ (h s' hs ho).2⟩

theorem Valid.bind {Q' : β → σ → Prop} {p : Prog S α} {f : α → Prog S β} {s : σ}
    (h : Valid ex Γ (fun a s => Valid ex Γ Q' (f a) s) p s) : Valid ex Γ Q' (p >>= f) s := by
  induction p generalizing s with
  | pure a => exact h
  | op o k ih => exact fun s' hs ho => ⟨(h s' hs ho).1, ih _ (h s' hs ho).2⟩

/-- The rule for loops over a list: `I xs b s` holds with `xs` still to visit and
    `b` accumulated. -/
theorem Valid.foldlM {f : β → ι → Prog S β} {I : List ι → β → σ → Prop}
    (h : ∀ x xs b s, I (x :: xs) b s → Valid ex Γ (I xs) (f b x) s) :
    ∀ l b s, I l b s → Valid ex Γ (I []) (l.foldlM f b) s
  | [], _, _, hI => hI
  | x :: xs, b, s, hI => by
    rw [List.foldlM_cons]
    exact ((h x xs b s hI).mono fun b' s' hI' => Valid.foldlM h xs b' s' hI').bind

/-- Under more assumptions and weaker promises. -/
theorem Valid.weaken {Γ' : Contract S σ} {p : Prog S α} {s : σ} (h : Valid ex Γ Q p s)
    (hrely : ∀ o s s', Γ'.rely o s s' → Γ.rely o s s') (hok : ∀ s, Γ'.ok s → Γ.ok s)
    (hguar : ∀ o s s', Γ.guar o s s' → Γ'.guar o s s') : Valid ex Γ' Q p s := by
  induction p generalizing s with
  | pure a => exact h
  | op o k ih =>
    intro s' hs ho
    obtain ⟨hg, hk⟩ := h s' (hrely _ _ _ hs) (hok _ ho)
    exact ⟨hguar _ _ _ hg, ih _ hk⟩

/-- Two postconditions of one program. -/
theorem Valid.and {Q' : α → σ → Prop} {p : Prog S α} {s : σ} (h : Valid ex Γ Q p s)
    (h' : Valid ex Γ Q' p s) : Valid ex Γ (fun a s => Q a s ∧ Q' a s) p s := by
  induction p generalizing s with
  | pure a => exact ⟨h, h'⟩
  | op o k ih =>
    intro s' hs ho
    obtain ⟨hg, hk⟩ := h s' hs ho
    exact ⟨hg, ih _ hk (h' s' hs ho).2⟩

/-- A program that is cut short keeps its promises. -/
theorem Valid.take {p : Prog S α} {s : σ} (h : Valid ex Γ Q p s) (n : ℕ) :
    Valid ex Γ (fun a s => ∀ x, a = some x → Q x s) (p.take n) s := by
  induction p generalizing n s with
  | pure a =>
    rw [Prog.take]
    rintro x ⟨⟩
    exact h
  | op o k ih =>
    cases n with
    | zero => rintro x ⟨⟩
    | succ n => exact fun s' hs ho => ⟨(h s' hs ho).1, ih _ (h s' hs ho).2 n⟩

/-- Validity is stable under what the others may do. -/
theorem Valid.env {p : Prog S α} {s s' : σ} (h : Valid ex Γ Q p s)
    (htr : ∀ o s₁ s₂ s₃, Γ.rely o s₁ s₂ → Γ.rely o s₂ s₃ → Γ.rely o s₁ s₃)
    (hQ : ∀ a s s', Q a s → Γ.rely none s s' → Q a s')
    (hs : Γ.rely p.next? s s') : Valid ex Γ Q p s' := by
  cases p with
  | pure a => exact hQ _ _ _ h hs
  | op o k => exact fun s'' hs' ho => h s'' (htr _ _ _ _ hs hs') ho

end

/-! ## While a condition lasts -/

/-- The contract of a thread during whose call the memory always satisfies `J` and the
    others change it as `R` says. -/
def within (R : σ → σ → Prop) (J : σ → Prop) : Contract S σ where
  ok := J
  rely _ s s' := R s s' ∧ J s'
  guar _ _ _ := True

section
variable {ex : Exec S σ} {R : σ → σ → Prop} {J : σ → Prop} {Q : α → σ → Prop}

theorem valid_within_op {o : S.Op} {k : S.Res o → Prog S α} {s : σ} :
    Valid ex (within R J) Q (.op o k) s ↔ ∀ s', R s s' → J s' → J (ex o s').2 →
      Valid ex (within R J) Q (k (ex o s').1) (ex o s').2 :=
  ⟨fun h s' hr hs ho => (h s' ⟨hr, hs⟩ ho).2, fun h s' hs ho => ⟨trivial, h s' hs.1 hs.2 ho⟩⟩

end

/-! ## Running alone -/

/-- The contract of a thread that runs alone, all of whose memories satisfy `J`. -/
def alone (J : σ → Prop) : Contract S σ where
  ok _ := True
  rely _ := Eq
  guar _ _ s' := J s'

section
variable {ex : Exec S σ} {J : σ → Prop} {Q : α → σ → Prop}

theorem valid_alone_op {o : S.Op} {k : S.Res o → Prog S α} {s : σ} :
    Valid ex (alone J) Q (.op o k) s ↔
      J (ex o s).2 ∧ Valid ex (alone J) Q (k (ex o s).1) (ex o s).2 := by
  constructor
  · exact fun h => h s rfl trivial
  · rintro h _ rfl -; exact h

/-- What holds under interference holds without, if standing still is allowed. -/
theorem Valid.to_alone {Γ : Contract S σ} {p : Prog S α} {s : σ} (h : Valid ex Γ Q p s)
    (hrefl : ∀ o s, Γ.rely o s s) (hok : ∀ s, Γ.ok s) : Valid ex (alone fun _ => True) Q p s :=
  h.weaken (fun o s _ hs => hs ▸ hrefl o s) (fun s _ => hok s) fun _ _ _ _ => trivial

theorem Valid.run {p : Prog S α} {s : σ} (h : Valid ex (alone J) Q p s) :
    Q (p.run ex s).1 (p.run ex s).2 := by
  induction p generalizing s with
  | pure a => exact h
  | op o k ih => rw [valid_alone_op] at h; exact ih _ h.2

end

end Concur
