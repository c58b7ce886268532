/-
  The exclusive roles of a channel, contended for.

  Any number of endpoints, of any number of processes, claim the roles of one
  segment.  A step is one operation of one endpoint's `claim_role`, the drop of an
  endpoint, or the crash of a process, with which all its endpoints vanish.  A
  probe sees which processes are alive; a process that has crashed does not come
  back.
-/
import ZeroChannel.Lifecycle
import ZeroChannel.Concur.Prog
import ZeroChannel.Concur.Reach
import Mathlib.Logic.Function.Basic

namespace ZeroChannel

open Concur

/-- The operations of the lifecycle code on a mapped header. -/
inductive HdrOp where
  | load (w : HeaderWord)
  | cas (w : HeaderWord) (old new : ℕ)
  | probe (pid : ℕ)

@[reducible] def HdrOp.Res : HdrOp → Type
  | load _ => ℕ
  | cas _ _ _ => Except ℕ Unit
  | probe _ => Bool

/-- The signature of header operations. -/
abbrev hdrSig : Sig := ⟨HdrOp, HdrOp.Res⟩

/-- A mapped header. -/
def hdrMapping : Mapping (Prog hdrSig) :=
  ⟨fun w => .op (.load w) .pure, fun w old new => .op (.cas w old new) .pure,
    fun pid => .op (.probe pid) .pure⟩

/-- The words of the header, and the processes that are alive. -/
structure Board where
  hdr : HeaderWord → ℕ
  live : ℕ → Bool

def Board.exec : Exec hdrSig Board
  | .load w, b => (b.hdr w, b)
  | .cas w old new, b =>
    if b.hdr w = old then (.ok (), { b with hdr := Function.update b.hdr w new })
    else (.error (b.hdr w), b)
  | .probe pid, b => (b.live pid, b)

/-- The process an endpoint belongs to, and the role it claims. -/
structure Seat where
  pid : Pid
  role : Role

/-- A call of `claim_role` on its way. -/
abbrev ClaimProg := Prog hdrSig (Option (Except ZeroChannelError Unit))

/-- How far an endpoint has come. -/
inductive Stage where
  | idle
  | claiming (p : ClaimProg)
  | bound
  | failed (e : ZeroChannelError)
  | dropped

/-- The header and the endpoints. -/
structure Contest (E : Type) where
  board : Board
  stage : E → Stage

/-- What happens.  An endpoint whose claim has failed may try again. -/
inductive RoleAct (E : Type) where
  | start (e : E) (fuel : ℕ)
  | move (e : E)
  | drop (e : E)
  | crash (pid : ℕ)

namespace Contest
variable {E : Type} [DecidableEq E] (who : E → Seat) (name : String)

/-- An endpoint enters a stage. -/
def enter (s : Contest E) (e : E) (st : Stage) : Contest E :=
  { s with stage := Function.update s.stage e st }

/-- One step.  A claim out of fuel goes on with its loop by starting again. -/
def step (s : Contest E) : RoleAct E → Option (Contest E)
  | .start e fuel => if s.board.live (who e).pid.val then
      match s.stage e with
      | .idle | .failed _ => some (s.enter e (.claiming
          (claimRole hdrMapping (who e).pid (who e).role.cell (who e).role.text name fuel)))
      | _ => none
    else none
  | .move e => if s.board.live (who e).pid.val then
      match s.stage e with
      | .claiming (.op o k) => some (Contest.enter { s with board := (Board.exec o s.board).2 } e
          (.claiming (k (Board.exec o s.board).1)))
      | .claiming (.pure none) => some (s.enter e .idle)
      | .claiming (.pure (some (.ok ()))) => some (s.enter e .bound)
      | .claiming (.pure (some (.error er))) => some (s.enter e (.failed er))
      | _ => none
    else none
  | .drop e => if s.board.live (who e).pid.val then
      match s.stage e with
      | .bound =>
        let b := (releaseRole hdrMapping (who e).pid (who e).role.cell).run Board.exec s.board
        some (Contest.enter { s with board := b.2 } e .dropped)
      | .failed _ => some (s.enter e .dropped)
      | _ => none
    else none
  | .crash pid => some { s with board := { s.board with live := Function.update s.board.live pid false } }

/-- No endpoint is bound yet. -/
def init (E : Type) (b : Board) : Contest E := ⟨b, fun _ => .idle⟩

end Contest

end ZeroChannel
