/-
  Generations of segments under a name.

  Any number of endpoints, of any number of processes, open channels by name, leave
  them, and unlink names; a process that crashes takes its endpoints with it, and
  nothing is dropped.  No call is interrupted, so one round of each loop is enough.
-/
import ZeroChannel.Open
import ZeroChannel.Concur.Reach

namespace ZeroChannel

open Concur

/-- The operating system, and the connected endpoints. -/
structure Generations (E : Type) where
  world : World E
  ends : E → Option Endpoint

/-- What happens. -/
inductive GenAct (E : Type) where
  | open (e : E) (args : OpenArgs)
  | drop (e : E)
  | unlink (e : E) (name : String)
  | crash (pid : ℕ)

namespace Generations
variable {E : Type} [DecidableEq E] (who : E → Pid)

/-- The endpoint a constructor answers with, if it is connected. -/
def connected : Option (Except ZeroChannelError (Option Endpoint)) → Option Endpoint
  | some (.ok ep) => ep
  | _ => none

/-- One step. -/
def step (s : Generations E) : GenAct E → Option (Generations E)
  | .open e args => if s.world.live (who e).val ∧ (s.ends e).isNone then
      let (res, world) := (construct (who e) args 1).run (World.exec who e) s.world
      some ⟨world, Function.update s.ends e (connected res)⟩
    else none
  | .drop e => match s.ends e with
    | some ep =>
      let ((), world) := (dropEndpoint (who e) ep).run (World.exec who e) s.world
      some ⟨world, Function.update s.ends e none⟩
    | none => none
  | .unlink e name => if s.world.live (who e).val ∧ (s.ends e).isNone then
      let ((), world) := (unlink name).run (World.exec who e) s.world
      some { s with world }
    else none
  | .crash pid => some ⟨s.world.crashed who pid,
      fun e => if (who e).val = pid then none else s.ends e⟩

/-- A system in which nothing is mapped yet. -/
def init (w : World E) : Generations E := ⟨w, fun _ => none⟩

end Generations

end ZeroChannel
