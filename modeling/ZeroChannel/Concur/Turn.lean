/-
  The places of a ring, listed from a cursor on.

  Places are counted without end, `n` to a lap.  When the cursor goes on past a place
  in which something has been stored, what was skipped and what was stored come last
  (`turn_pass`).
-/
import Mathlib.Data.List.Rotate
import Mathlib.Data.List.TakeWhile

namespace Concur

variable {α : Type} {n c d : ℕ} {f g : ℕ → α} {a : α}

/-- What stands in the `n` places from the cursor `c` on. -/
def turn (n : ℕ) (f : ℕ → α) (c : ℕ) : List α := (List.range n).map fun k => f (c + k)

@[simp] theorem length_turn : (turn n f c).length = n := by simp [turn]

@[simp] theorem getElem_turn {k : ℕ} (h : k < (turn n f c).length) :
    (turn n f c)[k] = f (c + k) := by simp [turn]

theorem mem_turn {x : α} : x ∈ turn n f c ↔ ∃ k < n, f (c + k) = x := by simp [turn]

/-- The list, split at a place. -/
theorem turn_split (hd : d < n) :
    turn n f c = (turn n f c).take d ++ f (c + d) :: (turn n f c).drop (d + 1) := by
  have hlen : d < (turn n f c).length := by simpa using hd
  rw [← getElem_turn hlen, List.getElem_cons_drop, List.take_append_drop]

section
variable {p : α → Bool} (hp : ∀ e < d, p (f (c + e)))
include hp

theorem mem_take_turn {x : α} (hx : x ∈ (turn n f c).take d) : p x := by
  obtain ⟨e, he, rfl⟩ := List.mem_take_iff_getElem.1 hx
  rw [getElem_turn]
  exact hp e (by omega)

variable (hd : d < n) (hn : ¬ p (f (c + d)))
include hd hn

/-- The first place at which `p` fails. -/
theorem takeWhile_turn : (turn n f c).takeWhile p = (turn n f c).take d := by
  conv_lhs => rw [turn_split hd]
  rw [List.takeWhile_append_of_pos fun x hx => mem_take_turn hp hx,
    List.takeWhile_cons_of_neg hn, List.append_nil]

theorem dropWhile_turn :
    (turn n f c).dropWhile p = f (c + d) :: (turn n f c).drop (d + 1) := by
  conv_lhs => rw [turn_split hd]
  rw [List.dropWhile_append_of_pos fun x hx => mem_take_turn hp hx,
    List.dropWhile_cons_of_neg hn]

end

/-- `p` fails nowhere. -/
theorem dropWhile_turn_nil {p : α → Bool} (hp : ∀ e < n, p (f (c + e))) :
    (turn n f c).dropWhile p = [] := by
  refine List.dropWhile_eq_nil_iff.2 fun x hx => ?_
  obtain ⟨k, hk, rfl⟩ := mem_turn.1 hx
  exact hp k hk

/-- The cursor goes on. -/
theorem turn_rotate (hf : ∀ k, f (k + n) = f k) (hd : d ≤ n) :
    turn n f (c + d) = (turn n f c).rotate d := by
  refine List.ext_getElem (by simp) fun k hk hk' => ?_
  rw [getElem_turn, List.getElem_rotate, getElem_turn, length_turn]
  have hk : k < n := by simpa using hk
  rcases Nat.lt_or_ge (k + d) n with h | h
  · rw [Nat.mod_eq_of_lt h]
    congr 1
    omega
  · rw [Nat.mod_eq_sub_mod h, Nat.mod_eq_of_lt (by omega), ← hf (c + (k + d - n))]
    congr 1
    omega

section
variable (hd : d < n) (hg : ∀ k < n, g (c + k) = if k = d then a else f (c + k))
include hd hg

/-- Something is stored in a place. -/
theorem turn_set :
    turn n g c = (turn n f c).take d ++ a :: (turn n f c).drop (d + 1) := by
  have hset : turn n g c = (turn n f c).set d a := by
    refine List.ext_getElem (by simp) fun k hk hk' => ?_
    have hk : k < n := by simpa using hk
    rw [getElem_turn, List.getElem_set, getElem_turn, hg k hk]
    simp only [eq_comm]
  rw [hset, List.set_eq_take_append_cons_drop, if_pos (by simpa using hd)]

/-- **The cursor passes a place in which something is stored.** -/
theorem turn_pass (hper : ∀ k, g (k + n) = g k) :
    turn n g (c + d + 1) = (turn n f c).drop (d + 1) ++ (turn n f c).take d ++ [a] := by
  have hlen : ((turn n f c).take d ++ [a]).length = d + 1 := by
    simp only [List.length_append, List.length_take, length_turn, List.length_singleton]
    omega
  rw [Nat.add_assoc, turn_rotate hper hd, turn_set hd hg, List.append_cons, Nat.succ_eq_add_one, ← hlen,
    List.rotate_append_length_eq, hlen, List.append_assoc]

end

end Concur
