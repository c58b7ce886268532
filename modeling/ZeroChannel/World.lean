/-
  What the operating system keeps, and the operations on it.

  Names refer to shared-memory segments, which outlive their names while somebody
  maps them; endpoints hold mappings; processes are alive or dead.  The
  `shared_memory` crate is as documented: `create` refuses a size of zero; it fails with
  `MappingIdExists` exactly when the name exists and otherwise maps a zeroed segment of the
  size asked for, its owner flag set; `open` maps the segment the name refers to, unless that
  is empty, the flag unset; dropping a mapping whose flag is set removes its name, by name.

  Next to this the world records, for each segment, the endpoint that last laid down
  its header or took its deed (`deed`).  No program reads it.
-/
import ZeroChannel.Region
import ZeroChannel.Lifecycle

namespace ZeroChannel

open Concur

/-- A mapped segment (`Shmem`), and the name it was mapped by. -/
structure Shmem where
  name : String
  seg : ℕ
  deriving DecidableEq

/-- A mapping in the hands of an endpoint, with its owner flag. -/
structure Mapped where
  shmem : Shmem
  owner : Bool
  deriving DecidableEq

/-- Names, segments, mappings and processes.  An endpoint holds at most one mapping. -/
structure World (E : Type) where
  names : String → Option ℕ
  regions : ℕ → Region
  segs : ℕ
  maps : E → Option Mapped
  live : ℕ → Bool
  /-- why a segment of no bytes is not created -/
  mapSizeZero : String
  /-- why a segment of this size is not created under a name that is free -/
  refuses : String → ℕ → Option String
  deed : ℕ → Option E

/-- Why `create` fails. -/
inductive CreateError where
  | mappingIdExists
  | other (msg : String)

/-- The atomic operations of an endpoint. -/
inductive OsOp where
  | create (name : String) (size : ℕ)
  | open (name : String)
  | setOwner (owner : Bool)
  | close
  | len (m : Shmem)
  | zero (m : Shmem) (off : ℕ)
  | load (m : Shmem) (w : HeaderWord)
  | store (m : Shmem) (w : HeaderWord) (v : ℕ)
  | cas (m : Shmem) (w : HeaderWord) (old new : ℕ)
  | ring (m : Shmem) (G : Geometry) (o : SegOp G)
  | probe (pid : ℕ)
  | crash (pid : ℕ)

@[reducible] def OsOp.Res : OsOp → Type
  | create _ _ => Except CreateError Shmem
  | .open _ => Option Shmem
  | len _ => ℕ
  | load _ _ => ℕ
  | cas _ _ _ _ => Except ℕ Unit
  | ring _ _ o => o.Res
  | probe _ => Bool
  | _ => Unit

/-- The signature of operating-system operations. -/
abbrev osSig : Sig := ⟨OsOp, OsOp.Res⟩

/-- Programs of an endpoint. -/
abbrev OsProg := Prog osSig

namespace World
variable {E : Type}

/-- The system before any segment exists. -/
def boot (live : ℕ → Bool) : World E where
  names _ := none
  regions _ := .zeroed 0
  segs := 0
  maps _ := none
  live := live
  mapSizeZero := "MapSizeZero"
  refuses _ _ := none
  deed _ := none

/-- Endpoint `e` holds a mapping with the owner flag. -/
def Flagged (w : World E) (e : E) (m : Shmem) : Prop := w.maps e = some ⟨m, true⟩

/-- The segment carries its header. -/
def Ready (w : World E) (g : ℕ) : Prop := (w.regions g).hdr .magic = MAGIC_VERSION

instance (w : World E) (g : ℕ) : Decidable (w.Ready g) :=
  inferInstanceAs (Decidable ((w.regions g).hdr .magic = MAGIC_VERSION))

def setRegion (w : World E) (g : ℕ) (r : Region) : World E :=
  { w with regions := Function.update w.regions g r }

/-- Endpoint `e` has laid down the header of a segment or won its deed. -/
def won (w : World E) (g : ℕ) (e : E) : World E :=
  { w with deed := Function.update w.deed g (some e) }

/-- Endpoint `e` stores a header word; storing the owner of the segment takes its deed. -/
def put (w : World E) (g : ℕ) (e : E) (h : HeaderWord) (v : ℕ) : World E :=
  let w' := w.setRegion g ((w.regions g).setWord h.off v)
  if h = .segmentOwner then w'.won g e else w'

section
variable (w : World E) (g : ℕ) (r : Region)

@[simp] theorem setRegion_self : (w.setRegion g r).regions g = r := Function.update_self ..

theorem setRegion_ne {g g' : ℕ} (h : g' ≠ g) (r : Region) :
    (w.setRegion g r).regions g' = w.regions g' := Function.update_of_ne h ..

@[simp] theorem setRegion_setRegion (r' : Region) :
    (w.setRegion g r).setRegion g r' = w.setRegion g r' := by
  simp [setRegion, Function.update_idem]

@[simp] theorem setRegion_eq : w.setRegion g (w.regions g) = w := by
  simp [setRegion]

end

section
variable (w : World E) (g : ℕ) (e : E) (h : HeaderWord) (v : ℕ)

@[simp] theorem put_names : (w.put g e h v).names = w.names := by unfold put; split_ifs <;> rfl
@[simp] theorem put_maps : (w.put g e h v).maps = w.maps := by unfold put; split_ifs <;> rfl
@[simp] theorem put_live : (w.put g e h v).live = w.live := by unfold put; split_ifs <;> rfl
@[simp] theorem put_segs : (w.put g e h v).segs = w.segs := by unfold put; split_ifs <;> rfl

theorem put_regions : (w.put g e h v).regions =
    Function.update w.regions g ((w.regions g).setWord h.off v) := by
  unfold put; split_ifs <;> rfl

end

variable [DecidableEq E]

/-- Endpoint `e` holds a mapping. -/
def mapped (w : World E) (e : E) (md : Mapped) : World E :=
  { w with maps := Function.update w.maps e (some md) }

/-- A new segment under a free name. -/
def created (w : World E) (e : E) (name : String) (size : ℕ) : World E :=
  { w with names := Function.update w.names name (some w.segs),
           regions := Function.update w.regions w.segs (.zeroed size),
           segs := w.segs + 1,
           maps := Function.update w.maps e (some ⟨⟨name, w.segs⟩, true⟩),
           deed := Function.update w.deed w.segs (some e) }

/-- `Drop` of a mapping. -/
def closed (w : World E) (e : E) : World E := match w.maps e with
  | none => w
  | some md => { w with
      names := if md.owner then Function.update w.names md.shmem.name none else w.names,
      maps := Function.update w.maps e none }

/-- A process is gone, its mappings with it and nothing dropped. -/
def crashed (who : E → Pid) (w : World E) (pid : ℕ) : World E :=
  { w with live := Function.update w.live pid false,
           maps := fun e => if (who e).val = pid then none else w.maps e }

/-- The meaning of the operations when endpoint `e` performs them. -/
def exec (who : E → Pid) (e : E) : Exec osSig (World E)
  | .create name size, w =>
    if size = 0 then (.error (.other w.mapSizeZero), w)
    else match w.names name with
      | some _ => (.error .mappingIdExists, w)
      | none => match w.refuses name size with
        | some msg => (.error (.other msg), w)
        | none => (.ok ⟨name, w.segs⟩, w.created e name size)
  | .open name, w => match w.names name with
    | none => (none, w)
    | some g =>
      if (w.regions g).len = 0 then (none, w)
      else (some ⟨name, g⟩, w.mapped e ⟨⟨name, g⟩, false⟩)
  | .setOwner owner, w => ((), { w with
      maps := Function.update w.maps e ((w.maps e).map fun md => { md with owner }) })
  | .close, w => ((), w.closed e)
  | .len m, w => ((w.regions m.seg).len, w)
  | .zero m off, w => ((), w.setRegion m.seg ((w.regions m.seg).setByte off 0))
  | .load m h, w => ((w.regions m.seg).hdr h, w)
  | .store m h v, w => ((), w.put m.seg e h v)
  | .cas m h old new, w =>
    if (w.regions m.seg).hdr h = old then (.ok (), w.put m.seg e h new)
    else (.error ((w.regions m.seg).hdr h), w)
  | .ring m G o, w =>
    ((Region.ringExec G o (w.regions m.seg)).1,
      w.setRegion m.seg (Region.ringExec G o (w.regions m.seg)).2)
  | .probe pid, w => (w.live pid, w)
  | .crash pid, w => ((), w.crashed who pid)

section
variable (w : World E) (e : E)

@[simp] theorem mapped_self (md : Mapped) : (w.mapped e md).maps e = some md :=
  Function.update_self ..

theorem mapped_ne {e' : E} (h : e' ≠ e) (md : Mapped) : (w.mapped e md).maps e' = w.maps e' :=
  Function.update_of_ne h ..

@[simp] theorem closed_self : (w.closed e).maps e = none := by
  unfold closed
  rcases hm : w.maps e with _ | md
  · exact hm
  · exact Function.update_self ..

theorem closed_ne {e' : E} (h : e' ≠ e) : (w.closed e).maps e' = w.maps e' := by
  unfold closed
  rcases w.maps e with _ | md
  · rfl
  · exact Function.update_of_ne h ..

theorem closed_names {n : String} {g : ℕ} (h : (w.closed e).names n = some g) :
    w.names n = some g := by
  unfold closed at h
  rcases hm : w.maps e with _ | md <;> rw [hm] at h
  · exact h
  · dsimp only at h
    split_ifs at h
    · by_cases hn : n = md.shmem.name
      · rw [hn, Function.update_self] at h
        cases h
      · rwa [Function.update_of_ne hn] at h
    · exact h

@[simp] theorem closed_segs : (w.closed e).segs = w.segs := by unfold closed; split <;> rfl
@[simp] theorem closed_live : (w.closed e).live = w.live := by unfold closed; split <;> rfl
@[simp] theorem closed_deed : (w.closed e).deed = w.deed := by unfold closed; split <;> rfl
@[simp] theorem closed_regions : (w.closed e).regions = w.regions := by
  unfold closed; split <;> rfl

end

section
variable {w : World E} {e : E}

/-- A tenant leaves no trace. -/
theorem mapped_closed (h : w.maps e = none) (m : Shmem) : (w.mapped e ⟨m, false⟩).closed e = w := by
  simp [mapped, closed, ← h]

theorem put_mapped (md : Mapped) (g : ℕ) (h : HeaderWord) (v : ℕ) :
    (w.mapped e md).put g e h v = (w.put g e h v).mapped e md := by
  unfold put
  split_ifs <;> rfl

end

end World

/-- The header of a mapped segment. -/
def osMapping (m : Shmem) : Mapping OsProg :=
  ⟨fun w => .op (.load m w) .pure, fun w old new => .op (.cas m w old new) .pure,
    fun pid => .op (.probe pid) .pure⟩

/-- `ShmemConf::create`. -/
def osCreate (name : String) (size : ℕ) : OsProg (Except CreateError Shmem) :=
  .op (.create name size) .pure

/-- `try_open`. -/
def tryOpen (name : String) : OsProg (Option Shmem) := .op (.open name) .pure

/-- `Shmem::set_owner`. -/
def setOwner (owner : Bool) : OsProg Unit := .op (.setOwner owner) .pure

/-- `Drop` of a `Shmem`. -/
def dropShmem : OsProg Unit := .op .close .pure

/-- `Shmem::len`. -/
def shmemLen (m : Shmem) : OsProg ℕ := .op (.len m) .pure

/-- A program of the ring protocol on a mapped segment. -/
def onRing {G : Geometry} {α : Type} (m : Shmem) (p : SegProg G α) : OsProg α :=
  p.lift fun o => .op (.ring m G o) .pure

end ZeroChannel
