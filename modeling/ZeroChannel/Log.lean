/-
  What a channel is for: a log of numbered entries of which the newest survive.

  This is the abstract side; nothing here is taken from the ring.  `Log.Step` says
  what each call of the alphabet `LogCall` does to the log and answers.
-/
import ZeroChannel.Writer
import ZeroChannel.Concur.Window

namespace ZeroChannel

open Concur

/-- The log: all entries published, the bookmark of each reader, and the payload of
    the entry being built in place, if any. -/
structure Log (G : Geometry) (ι : Type) where
  entries : List (List UInt8)
  marks : ι → ℕ
  building : Option (Block G)

/-- The calls.  `borrow` is a `try_acquire` immediately followed by the release of
    the handle. -/
inductive LogCall (G : Geometry) (ι : Type) where
  | write (data : List UInt8)
  | acquire
  | fill (j : Fin G.payloadBytes) (b : UInt8)
  | commit
  | reattach
  | attachReader (r : ι)
  | readInto (r : ι) (dst : List UInt8) (fromEntrySeq : Option ℕ)
  | borrow (r : ι) (fromEntrySeq : Option ℕ)

/-- The answers; those of `readInto` and `borrow` come with the bytes seen. -/
inductive LogAnswer where
  | write (res : Except ZeroChannelError Unit)
  | acquire (res : Except ZeroChannelError Unit)
  | commit (seq : ℕ)
  | readInto (res : Except ZeroChannelError (Option ℕ)) (dst : List UInt8)
  | borrow (entry : Option (ℕ × List UInt8))
  | done
  deriving DecidableEq

namespace Log
variable {G : Geometry} {ι : Type}

/-- Nothing published, no bookmark. -/
def empty : Log G ι := ⟨[], fun _ => 0, none⟩

/-- The oldest entry that survives: `N` of them do, but for the one whose slot is
    given up to an entry being built. -/
def oldest (t : Log G ι) : ℕ :=
  max 1 (t.entries.length + 1 + (if t.building.isSome then 1 else 0) - G.entryCount)

/-- The watermark of a read. -/
def mark (t : Log G ι) (r : ι) (fromEntrySeq : Option ℕ) : ℕ := fromEntrySeq.getD (t.marks r)

/-- The entry a read is given. -/
def next? (t : Log G ι) (r : ι) (fromEntrySeq : Option ℕ) : Option ℕ :=
  Concur.next? t.oldest t.entries.length (t.mark r fromEntrySeq)

/-- **The specification.** -/
inductive Step [DecidableEq ι] (t : Log G ι) : LogCall G ι → LogAnswer → Log G ι → Prop
  | write {data} : t.building = none → data.length = G.payloadBytes →
      Step t (.write data) (.write (.ok ())) { t with entries := t.entries ++ [data] }
  | writeLength {data} : t.building = none → data.length ≠ G.payloadBytes →
      Step t (.write data) (.write (.error (.invalidArgument
        s!"expected {G.payloadBytes} payload bytes, got {data.length}"))) t
  | acquire {b} : t.building = none →
      Step t .acquire (.acquire (.ok ())) { t with building := some b }
  | fill {b j v} : t.building = some b →
      Step t (.fill j v) .done { t with building := some (Function.update b j v) }
  | commit {b} : t.building = some b →
      Step t .commit (.commit (t.entries.length + 1))
        { t with entries := t.entries ++ [bytesOf b], building := none }
  | reattach : t.building = none → Step t .reattach .done t
  | attachReader {r} :
      Step t (.attachReader r) .done { t with marks := Function.update t.marks r 0 }
  | readNone {r dst f} : dst.length = G.payloadBytes → t.next? r f = none →
      Step t (.readInto r dst f) (.readInto (.ok none) dst) t
  | readSome {r dst f n bytes} : dst.length = G.payloadBytes → t.next? r f = some n →
      t.entries[n - 1]? = some bytes →
      Step t (.readInto r dst f) (.readInto (.ok (some n)) bytes)
        { t with marks := Function.update t.marks r n }
  | readLength {r dst f} : dst.length ≠ G.payloadBytes →
      Step t (.readInto r dst f) (.readInto (.error (.invalidArgument
        s!"destination holds {dst.length} bytes, expected {G.payloadBytes}")) dst) t
  | borrowNone {r f} : t.next? r f = none → Step t (.borrow r f) (.borrow none) t
  | borrowSome {r f n bytes} : t.next? r f = some n → t.entries[n - 1]? = some bytes →
      Step t (.borrow r f) (.borrow (some (n, bytes)))
        { t with marks := Function.update t.marks r n }

end Log

end ZeroChannel
