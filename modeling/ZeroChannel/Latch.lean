/-
  The magic word as a latch.

  A segment is initialised by one process at a time.  Each may crash between any two
  of its stores; the next one starts over, with a geometry of its own, if there is no
  magic yet.  Any number of readers decode the header meanwhile.  The memory records
  the initialisations that were completed, that is, stored the magic.
-/
import ZeroChannel.Region
import ZeroChannel.Lifecycle
import ZeroChannel.Concur.Pool

namespace ZeroChannel

open Concur

/-- What a process initialises a segment with. -/
structure InitArgs where
  geometry : Geometry
  size : geometry.payloadBytes < 2 ^ 64 ∧ geometry.entryCount < 2 ^ 64
  dtype : Dtype
  owner : Pid

/-- A region, with the initialisations completed on it. -/
structure Latch where
  region : Region
  done : List InitArgs

namespace Latch

/-- Operations of a reader. -/
def exec : Exec rawSig Latch
  | o, m => ((Region.rawExec o m.region).1, { m with region := (Region.rawExec o m.region).2 })

/-- Operations of an initialiser. -/
def initExec (a : InitArgs) : Exec rawSig Latch
  | .store .magic v, m => ((), ⟨m.region.setWord HeaderWord.magic.off v, m.done ++ [a]⟩)
  | o, m => exec o m

end Latch

/-- `init_header`, after a `read_header` that has found no magic. -/
def InitArgs.adopt (a : InitArgs) : Prog rawSig Unit := do
  match ← readRegion with
  | .ok none => initRegion a.geometry.payloadBytes a.geometry.entryCount a.dtype a.owner.val
  | _ => pure ()

/-- The initialisers, of which there is one at a time, and the readers. -/
inductive LatchParty (ι : Type) where
  | init
  | reader (r : ι)
  deriving DecidableEq

/-- Initialisers, each of which crashes after some number of operations or returns, and
    readers of the header. -/
def latch (ι : Type) : Pool rawSig Latch (LatchParty ι) where
  Loc _ := Unit
  Call
    | .init => InitArgs × ℕ
    | .reader _ => Unit
  Out
    | .init => Option Unit
    | .reader _ => Except ZeroChannelError (Option Header)
  enter
    | .init, (a, n), _ => some do
        let r ← a.adopt.take n
        pure (r, ())
    | .reader _, _, _ => some do
        let r ← readRegion
        pure (r, ())
  exec
    | .init, (a, _) => Latch.initExec a
    | .reader _, _ => Latch.exec

/-- A zeroed segment of `len` bytes. -/
def latchInit (ι : Type) (len : ℕ) : (latch ι).Conf where
  mem := ⟨.zeroed len, []⟩
  ctl _ := .idle ()
  hist _ := []

/-- The answers of a reader, oldest first. -/
def headersRead {ι : Type} (s : (latch ι).Conf) (r : ι) :
    List (Except ZeroChannelError (Option Header)) :=
  List.map Prod.snd (s.hist (.reader r))

end ZeroChannel
