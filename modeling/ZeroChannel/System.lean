/-
  Processes that open, use and leave channels, interleaved.

  Each endpoint calls constructors, uses the ring it is bound to, is dropped, and opens
  again; a step is one operation of one call, so that a constructor can be overtaken
  between any two of its loads, stores and compare-exchanges.  A crash takes a process
  at any point and drops nothing.

  Next to the operating system the memory records the segments that an endpoint has
  opened, not created, and found without a header (`blank`).  No program reads it.
-/
import ZeroChannel.Open
import ZeroChannel.Concur.Pool
import Mathlib.Data.Fintype.Defs

namespace ZeroChannel

open Concur

variable {E : Type}

/-! ## The operating system, watched -/

/-- The operating system, and the segments that were found without a header. -/
structure Scene (E : Type) where
  world : World E
  blank : ℕ → Bool

section
variable [DecidableEq E]

/-- The operation finds no header in segment `g`, which endpoint `e` has opened. -/
def World.findsBlank (w : World E) (e : E) : OsOp → ℕ → Bool
  | .load m .magic, g =>
    decide (m.seg = g ∧ (w.regions g).hdr .magic = 0 ∧ w.maps e = some ⟨m, false⟩)
  | _, _ => false

/-- Before segment `g` carries its header, only its creator has mapped it. -/
def World.Orderly (g : ℕ) (w : World E) : Prop := ∀ e, ∀ md ∈ w.maps e, md.shmem.seg = g →
  md.owner = true ∨ w.Ready g

instance [Fintype E] (g : ℕ) (w : World E) : Decidable (w.Orderly g) :=
  inferInstanceAs (Decidable (∀ e, ∀ md ∈ w.maps e, md.shmem.seg = g →
    md.owner = true ∨ w.Ready g))

/-- The meaning of the operations when endpoint `e` performs them. -/
def Scene.exec (who : E → Pid) (e : E) : Exec osSig (Scene E) := fun o s =>
  ((World.exec who e o s.world).1,
    ⟨(World.exec who e o s.world).2, fun g => s.blank g || s.world.findsBlank e o g⟩)

end

/-! ## The calls -/

/-- Operations on the slots of a ring and the counters of its header. -/
def SegOp.OnRing {G : Geometry} : SegOp G → Prop
  | store w _ => w = .writeIndex ∨ w = .lastEntrySeq
  | cas _ _ _ => False
  | _ => True

/-- What an endpoint does with its ring, whatever its geometry. -/
structure RingUse where
  prog : ∀ G : Geometry, SegProg G Unit
  onRing : ∀ G, (prog G).All SegOp.OnRing

/-- The calls of an endpoint. -/
inductive EndCall where
  | construct (args : OpenArgs) (fuel : ℕ)
  | use (u : RingUse)
  | drop
  | unlink (name : String)

/-- What a constructor is called with. -/
def EndCall.args? : EndCall → Option OpenArgs
  | construct args _ => some args
  | _ => none

/-- Opening a channel, and dropping an endpoint. -/
def EndCall.opens : EndCall → Bool
  | construct _ _ => true
  | drop => true
  | _ => false

/-- What they return. -/
inductive EndOut where
  | constructed (res : Option (Except ZeroChannelError (Option Endpoint)))
  | done

/-- An endpoint between two calls; `spinning` is a constructor whose loop is out of fuel. -/
inductive EndLoc where
  | closed
  | bound (ep : Endpoint)
  | spinning

/-- What a constructor leaves. -/
def EndLoc.ofAnswer : Option (Except ZeroChannelError (Option Endpoint)) → EndLoc
  | none => spinning
  | some (.ok (some ep)) => bound ep
  | _ => closed

/-- The geometry of a connected endpoint. -/
def Inner.geometry : Inner → Option Geometry
  | writer G _ => some G
  | reader G _ => some G
  | misaligned => none

/-- A use of the ring of a connected endpoint. -/
def Endpoint.use (ep : Endpoint) (u : RingUse) : Option (OsProg Unit) :=
  ep.inner.geometry.map fun G => onRing ep.shmem (u.prog G)

/-- The program of a call of a process's endpoint. -/
def EndLoc.enter (me : Pid) : EndCall → EndLoc → Option (OsProg (EndOut × EndLoc))
  | .construct args fuel, closed => some do
    let res ← construct me args fuel
    pure (.constructed res, .ofAnswer res)
  | .use u, bound ep => (ep.use u).map fun p => do
    p
    pure (.done, .bound ep)
  | .drop, bound ep => some do
    dropEndpoint me ep
    pure (.done, .closed)
  | .unlink name, closed => some do
    unlink name
    pure (.done, .closed)
  | _, _ => none

/-! ## The system -/

/-- The endpoints, and the operating system, which lets processes crash. -/
inductive Agent (E : Type) where
  | endpoint (e : E)
  | kernel
  deriving DecidableEq

/-- The pool of the endpoints, of whose calls only some are made (`may`).  The kernel's call
    is the endpoint whose process crashes. -/
def system [DecidableEq E] (who : E → Pid) (may : EndCall → Bool) :
    Pool osSig (Scene E) (Agent E) where
  Loc
    | .endpoint _ => EndLoc
    | .kernel => Unit
  Call
    | .endpoint _ => EndCall
    | .kernel => E
  Out
    | .endpoint _ => EndOut
    | .kernel => Unit
  enter
    | .endpoint e, c, l => if may c then l.enter (who e) c else none
    | .kernel, e, _ => some (.op (.crash (who e).val) fun _ => .pure ((), ()))
  exec
    | .endpoint e, _ => Scene.exec who e
    | .kernel, e => Scene.exec who e

section
variable [DecidableEq E] {who : E → Pid} {may : EndCall → Bool}

/-- The system before anything is opened. -/
def systemInit (who : E → Pid) (may : EndCall → Bool) (w : World E) :
    (system who may).Conf where
  mem := ⟨w, fun _ => false⟩
  ctl
    | .endpoint _ => .idle .closed
    | .kernel => .idle ()
  hist _ := []

/-- The process of an endpoint that moves is alive. -/
def Alive (s' : (system who may).Conf) : (system who may).Act → Prop
  | .move (.endpoint e) => s'.mem.world.live (who e).val = true
  | _ => True

/-- A step of an endpoint. -/
def OfEndpoint : (system who may).Act → Bool
  | .move (.endpoint _) | .call (.endpoint _) _ => true
  | .move .kernel | .call .kernel _ => false

instance (s' : (system who may).Conf) : ∀ a, Decidable (Alive s' a)
  | .move (.endpoint e) => inferInstanceAs (Decidable (s'.mem.world.live (who e).val = true))
  | .move .kernel => .isTrue trivial
  | .call _ _ => .isTrue trivial

/-- The calls of endpoint `e`, the last one perhaps not completed. -/
def calls (s : (system who may).Conf) (e : E) : List EndCall :=
  let done : List EndCall := (s.hist (.endpoint e)).map Prod.fst
  match s.ctl (.endpoint e) with
  | .idle _ => done
  | .busy c _ => done ++ ([c] : List EndCall)

/-- What endpoint `e` was last opened with, or is being opened with. -/
def openedWith (s : (system who may).Conf) (e : E) : Option OpenArgs :=
  ((calls s e).filterMap EndCall.args?).getLast?

end

end ZeroChannel
