/-
  The life of a segment under a succession of writers.

  A writer attaches through `recover_state`, makes any number of writes and exits,
  or crashes after any number of the operations of one more write.  Readers call
  between the calls of the writers.
-/
import ZeroChannel.Session

namespace ZeroChannel

open Concur

/-- A session whose writer may be gone. -/
structure Life (G : Geometry) (ι : Type) where
  ses : Session G ι
  bound : Bool

/-- What happens to a segment.  `crash data n` is a call of `write(data)` cut short
    after `n` operations. -/
inductive LifeAct (G : Geometry) (ι : Type) where
  | attach
  | exit
  | write (data : List UInt8)
  | crash (data : List UInt8) (n : ℕ)
  | tryAcquire (r : ι) (fromEntrySeq : Option ℕ)
  | release (x : ReadHandle G)

variable {G : Geometry} {ι : Type}

/-- The memory and the program left after `n` operations of `write(data)`. -/
def Session.cut (s : Session G ι) (data : List UInt8) (n : ℕ) :
    SegProg G (Except ZeroChannelError Unit × RawWriter G) × Hist G :=
  Prog.advance (Hist.writerExec data) n (s.writer.write data) s.mem

namespace Life
variable [DecidableEq ι]

def step (l : Life G ι) : LifeAct G ι → Option (Life G ι)
  | .attach => if l.bound then none else (l.ses.step .reattach).map fun s => ⟨s, true⟩
  | .exit => if l.bound then some ⟨l.ses, false⟩ else none
  | .write data => if l.bound then (l.ses.step (.write data)).map fun s => ⟨s, true⟩ else none
  | .crash data n => if l.bound then some ⟨{ l.ses with mem := (l.ses.cut data n).2 }, false⟩
    else none
  | .tryAcquire r f => (l.ses.step (.tryAcquire r f)).map fun s => ⟨s, l.bound⟩
  | .release x => (l.ses.step (.release x)).map fun s => ⟨s, l.bound⟩

omit [DecidableEq ι] in
/-- A freshly initialised segment, no writer attached yet. -/
def init (G : Geometry) (ι : Type) (dtype : Dtype) (owner : ℕ) : Life G ι :=
  ⟨.init G ι dtype owner, false⟩

end Life

end ZeroChannel
