/-
  Liveness on unix: `process_alive` asks `kill(pid, 0)`.

  An owner word is narrowed to a `u32` and that is read as a `pid_t`, which is signed.
  `kill` is as POSIX has it: it addresses one process for a positive argument, the group
  of the caller for `0`, every process but some system ones for `-1`, and a group for
  any other negative argument.
-/
import ZeroChannel.Lifecycle
import ZeroChannel.Concur.Prog
import Mathlib.Data.Finset.Filter
import Mathlib.Data.Finset.Insert
import Mathlib.Logic.Function.Basic

namespace ZeroChannel

open Concur

/-- The processes that are alive, the caller among them, and what `kill` makes of them. -/
structure Processes where
  live : Finset ℕ
  range : ∀ p ∈ live, 0 < p ∧ p < 2 ^ 31
  caller : ℕ
  mem : caller ∈ live
  pgid : ℕ → ℕ
  /-- the system processes that `kill(-1, _)` leaves out -/
  spared : ℕ → Bool
  /-- the caller has permission to signal the process -/
  may : ℕ → Bool

/-- `std::process::id()` of the caller. -/
def Processes.me (T : Processes) : Pid :=
  ⟨T.caller, (T.range _ T.mem).1, (T.range _ T.mem).2.trans (by norm_num)⟩

/-- `pid as libc::pid_t`. -/
def asPidT (pid : ℕ) : ℤ := if pid < 2 ^ 31 then pid else pid - 2 ^ 32

/-- Why `kill` fails. -/
inductive Errno where
  | esrch
  | eperm
  deriving DecidableEq

namespace Processes
variable (T : Processes)

/-- The processes that `kill(p, _)` addresses. -/
def targets (p : ℤ) : Finset ℕ :=
  if 0 < p then T.live.filter fun q => (q : ℤ) = p
  else if p = 0 then T.live.filter fun q => T.pgid q = T.pgid T.caller
  else if p = -1 then T.live.filter fun q => T.spared q = false ∧ T.may q = true
  else T.live.filter fun q => (T.pgid q : ℤ) = -p

/-- `kill(p, 0)`. -/
def kill (p : ℤ) : Except Errno Unit :=
  if T.targets p = ∅ then .error .esrch
  else if ∃ q ∈ T.targets p, T.may q = true then .ok ()
  else .error .eperm

end Processes

/-- The operations of the lifecycle code on a mapped header, on unix. -/
inductive UnixOp where
  | load (w : HeaderWord)
  | cas (w : HeaderWord) (old new : ℕ)
  | kill (p : ℤ)

@[reducible] def UnixOp.Res : UnixOp → Type
  | load _ => ℕ
  | cas _ _ _ => Except ℕ Unit
  | kill _ => Except Errno Unit

/-- The signature of these operations. -/
abbrev unixSig : Sig := ⟨UnixOp, UnixOp.Res⟩

/-- What `process_alive` does past its check for `0`. -/
def killProbe (pid : ℕ) : Prog unixSig Bool := do
  match ← Prog.act (S := unixSig) (.kill (asPidT pid)) with
  | .ok () => pure true
  | .error e => pure (e == .eperm)

/-- A mapped header on unix. -/
def unixMapping : Mapping (Prog unixSig) :=
  ⟨fun w => .op (.load w) .pure, fun w old new => .op (.cas w old new) .pure, killProbe⟩

/-- The words of the header, and the processes. -/
structure Unix where
  hdr : HeaderWord → ℕ
  procs : Processes

namespace Unix

def put (u : Unix) (w : HeaderWord) (v : ℕ) : Unix := { u with hdr := Function.update u.hdr w v }

def exec : Exec unixSig Unix
  | .load w, u => (u.hdr w, u)
  | .cas w old new, u => if u.hdr w = old then (.ok (), u.put w new) else (.error (u.hdr w), u)
  | .kill p, u => (u.procs.kill p, u)

end Unix

end ZeroChannel
