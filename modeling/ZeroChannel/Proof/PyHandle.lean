/-
  A Python handle hands its slot back once, and only when nobody looks at it.

  `Outcome` says what a method that may hand the slot back does: nothing, or exactly
  that, with no export left.  Every method of both classes has such an outcome
  (`readClass_lawful`, `writeClass_lawful`), so a call of a handle in use is one of the
  `Effect`s, and the exports are the views at every moment (`Counted`): they cannot
  overflow, as every view has an address of its own.

  What handing back does to the ring is said by `ReadHandle.Restored` (the slot carries
  its entry again) and `WriteHandle.Published`; `handles_returned` is the result for both
  classes.
-/
import ZeroChannel.PyHandle
import ZeroChannel.Proof.Refine
import Mathlib.Data.List.Perm.Subperm

namespace ZeroChannel

open Concur

variable {G : Geometry} {H W R : Type}

/-! ## Methods -/

/-- A method leaves everything as it is, or it succeeds and hands the slot back. -/
inductive Outcome (hand : H → W → W) (h : PyHandle H) (w : W) : Bool → PyHandle H × W → Prop
  | kept (ok : Bool) : Outcome hand h w ok (h, w)
  | handed {x : H} : h.handle = some x → h.exports = 0 →
      Outcome hand h w true ({ h with handle := none }, hand x w)

/-- Whether the method raised may be forgotten. -/
theorem Outcome.swallow {hand : H → W → W} {h : PyHandle H} {w : W} {ok : Bool} {r : PyHandle H × W}
    (ho : Outcome hand h w ok r) : Outcome hand h w true r := by
  cases ho with
  | kept => exact .kept _
  | handed hx hexp => exact .handed hx hexp

/-- What is asked of a class of handles. -/
structure PyClass.Lawful (C : PyClass G H W R) (hand : H → W → W) : Prop where
  getbuffer : ∀ h isNull flags dims v h', C.getbuffer h isNull flags dims = .ok (v, h') →
    h.handle.isSome ∧ v.internal = dims ∧ h' = { h with exports := u64 (h.exports + 1) }
  finish : ∀ h free w, Outcome hand h w (C.finish h free w).1.isOk (C.finish h free w).2
  exit : ∀ h raised free w, Outcome hand h w (C.exit h raised free w).1.isOk (C.exit h raised free w).2
  drop : ∀ h free w, Outcome hand h w true (C.drop h free w)

theorem fillView_internal {isNull : Bool} {flags : BitVec 32} {i : Slot G} {len : ℕ} {layout : Layout}
    {readonly : Bool} {dims : ℕ} {v : View G}
    (h : fillView isNull flags i len layout readonly dims = .ok v) : v.internal = dims := by
  unfold fillView at h
  split_ifs at h <;> cases h <;> rfl

namespace PyHandle

theorem getbuffer_ok {gone : String} {index : H → Slot G} {readonly : Bool} {h h' : PyHandle H}
    {isNull : Bool} {flags : BitVec 32} {dims : ℕ} {v : View G}
    (hg : h.getbuffer gone index readonly isNull flags dims = .ok (v, h')) :
    h.handle.isSome ∧ v.internal = dims ∧ h' = { h with exports := u64 (h.exports + 1) } := by
  unfold getbuffer at hg
  split at hg
  · cases hg
  · rename_i handle hh
    split at hg
    · cases hg
    · rename_i view hf
      cases hg
      exact ⟨by rw [hh]; rfl, fillView_internal hf, rfl⟩

theorem finish_outcome {action : String} {hand : H → W → R × W} {h : PyHandle H} {x : H}
    (hx : h.handle = some x) (free : Bool) (w : W) :
    Outcome (fun x w => (hand x w).2) h w (h.finish action hand x free w).1.isOk
      (h.finish action hand x free w).2 := by
  unfold finish
  split_ifs with hexp
  · exact .kept _
  · cases free with
    | false => exact .kept _
    | true => exact .handed hx (not_not.1 hexp)

/-- With no export left and the owner free, the slot is handed back. -/
theorem finish_free {action : String} {hand : H → W → R × W} {h : PyHandle H} (hexp : h.exports = 0)
    (x : H) (w : W) : (h.finish action hand x true w).2.1.handle = none := by
  unfold finish
  rw [if_neg (not_not.2 hexp)]
  rfl

end PyHandle

theorem isOk_map {ε α β : Type} (f : α → β) (r : Except ε α) : (r.map f).isOk = r.isOk := by
  cases r <;> rfl

theorem PyReadHandle.release_outcome (h : PyReadHandle G) (free : Bool) (m : Hist G) :
    Outcome (fun x m => (hand x m).2) h m (release h free m).1.isOk (release h free m).2 := by
  unfold release
  split
  · exact .kept _
  · rename_i x hx
    exact PyHandle.finish_outcome hx free m

theorem readClass_lawful (G : Geometry) :
    (readClass G).Lawful fun x m => (PyReadHandle.hand x m).2 where
  getbuffer _ _ _ _ _ _ hg := PyHandle.getbuffer_ok hg
  finish := PyReadHandle.release_outcome
  exit h _ free m := by
    have ho := PyReadHandle.release_outcome h free m
    simp only [readClass, PyReadHandle.exit, isOk_map]
    exact ho
  drop h free m := by
    have ho := PyReadHandle.release_outcome h free m
    simp only [readClass, PyReadHandle.drop]
    split_ifs
    · exact .kept _
    · exact ho.swallow

theorem PyWriteHandle.commit_outcome (h : PyWriteHandle G) (free : Bool) (w : RawWriter G × Hist G) :
    Outcome (fun x w => (hand x w).2) h w (commit h free w).1.isOk (commit h free w).2 := by
  unfold commit
  split
  · exact .kept _
  · rename_i x hx
    exact PyHandle.finish_outcome hx free w

theorem writeClass_lawful (G : Geometry) :
    (writeClass G).Lawful fun x w => (PyWriteHandle.hand x w).2 where
  getbuffer _ _ _ _ _ _ hg := PyHandle.getbuffer_ok hg
  finish := PyWriteHandle.commit_outcome
  exit h raised free w := by
    have ho := PyWriteHandle.commit_outcome h free w
    simp only [writeClass, PyWriteHandle.exit]
    split_ifs
    · simp only [isOk_map]
      exact ho
    · exact .kept _
  drop _ _ _ := .kept _

/-- The slot carries its entry again, and nothing else of the segment has changed. -/
def ReadHandle.Restored (x : ReadHandle G) (m m' : Hist G) : Prop :=
  m'.seg = m.seg.setWord x.index (asI64 x.entrySeq) ∧ m'.log = m.log

theorem hand_restored (x : ReadHandle G) (m : Hist G) :
    x.Restored m (PyReadHandle.hand x m).2 := ⟨rfl, rfl⟩

/-- The slot is published under the next number, with what has been written into it. -/
structure WriteHandle.Published (x : WriteHandle G) (w w' : RawWriter G × Hist G) : Prop where
  seg : w'.2.seg = (w.2.seg.publish w.1 x.index).2
  raw : w'.1 = w.1.next x.index
  log : w'.2.log = w.2.log ++ [bytesOf (w.2.seg.payload x.index)]

theorem hand_published (x : WriteHandle G) (w : RawWriter G × Hist G) :
    x.Published w (PyWriteHandle.hand x w).2 := ⟨rfl, rfl, rfl⟩

/-! ## Calls -/

namespace Usage

/-- What a call can do. -/
inductive Effect (hand : H → W → W) (s : Usage G H W) :
    UsageAct G W → UsageOut G R → Usage G H W → Prop
  | kept {c a} : Effect hand s c a s
  | granted {isNull flags dims v} : s.py.handle.isSome → s.Fresh dims → v.internal = dims →
      Effect hand s (.getbuffer isNull flags dims) (.view v) { s with
        py := { s.py with exports := u64 (s.py.exports + 1) }, views := s.views ++ [v] }
  | given {v} : v ∈ s.views → Effect hand s (.releasebuffer v) .done { s with
      py := s.py.releasebuffer, views := s.views.erase v }
  | handed {c a x f} : (∀ e, a ≠ .raised e) → s.py.handle = some x → s.py.exports = 0 →
      Effect hand s c a { s with
        py := { s.py with handle := none }, owner := hand x s.owner,
        returned := s.returned ++ [0], finalised := f }
  | final {free} : s.views = [] → Effect hand s (.finalise free) .done { s with finalised := true }
  | others {w} : Effect hand s (.others w) .done { s with owner := w }

@[simp] theorem left_kept (s : Usage G H W) : s.left (s.py, s.owner) = s := by
  have hno : (s.py.handle.isSome && s.py.handle.isNone) = false := by
    cases s.py.handle <;> rfl
  simp [left, hno]

theorem left_handed {s : Usage G H W} {x : H} (hx : s.py.handle = some x) (hexp : s.py.exports = 0)
    (w : W) : s.left ({ s.py with handle := none }, w) =
      { s with py := { s.py with handle := none }, owner := w, returned := s.returned ++ [0] } := by
  simp [left, hx, hexp]

/-- A method of the class is called. -/
theorem effect_left {hand : H → W → W} {s : Usage G H W} {ok : Bool} {r : PyHandle H × W}
    {c : UsageAct G W} {a : UsageOut G R} (ho : Outcome hand s.py s.owner ok r)
    (ha : ok = true → ∀ e, a ≠ .raised e) : Effect hand s c a (s.left r) := by
  cases ho with
  | kept =>
    rw [left_kept]
    exact .kept
  | handed hx hexp =>
    rw [left_handed hx hexp]
    exact .handed (ha rfl) hx hexp

/-- **The effect of a call.** -/
theorem call_effect {C : PyClass G H W R} {hand : H → W → W} (hC : C.Lawful hand)
    {s s' : Usage G H W} {c : UsageAct G W} {a : UsageOut G R} (h : s.call C c = some (a, s')) :
    Effect hand s c a s' := by
  cases c with
  | getbuffer isNull flags dims =>
    simp only [call] at h
    split_ifs at h with hok
    split at h
    · cases h
      exact .kept
    · rename_i v py hg
      cases h
      obtain ⟨hsome, hdims, rfl⟩ := hC.getbuffer _ _ _ _ _ _ hg
      exact .granted hsome (by simpa using (Bool.and_eq_true_iff.1 hok).2) hdims
  | releasebuffer v =>
    simp only [call] at h
    split_ifs at h with hv
    cases h
    exact .given hv
  | finish free =>
    simp only [call] at h
    split_ifs at h
    cases h
    refine effect_left (hC.finish s.py free s.owner) fun hok e he => ?_
    rcases hres : (C.finish s.py free s.owner).1 with _ | r <;> rw [hres] at hok he
    · cases hok
    · cases he
  | exit raised free =>
    simp only [call] at h
    split_ifs at h
    cases h
    refine effect_left (hC.exit s.py raised free s.owner) fun hok e he => ?_
    rcases hres : (C.exit s.py raised free s.owner).1 with _ | r <;> rw [hres] at hok he
    · cases hok
    · cases he
  | finalise free =>
    simp only [call] at h
    split_ifs at h with hok
    cases h
    have hviews : s.views = [] := List.isEmpty_iff.1 (Bool.and_eq_true_iff.1 hok).2
    have ho := hC.drop s.py free s.owner
    generalize C.drop s.py free s.owner = r at ho
    cases ho with
    | kept =>
      rw [left_kept]
      exact .final hviews
    | handed hx hexp =>
      rw [left_handed hx hexp]
      exact .handed (fun _ he => by cases he) hx hexp
  | others owner =>
    cases h
    exact .others

/-! ## Runs -/

/-- The exports are the views that are out, each with an address of its own, and the slot is
    the handle's until it is handed back, which is when no view is out. -/
structure Counted (s : Usage G H W) : Prop where
  exports : s.py.exports = s.views.length
  nodup : (s.views.map View.internal).Nodup
  range : ∀ v ∈ s.views, 0 < v.internal ∧ v.internal < 2 ^ 64
  slot : s.py.handle.isSome ∧ s.returned = [] ∨
    s.py.handle = none ∧ s.views = [] ∧ s.returned = [0]

theorem Counted.start (handle : H) (layout : Layout) (owner : W) :
    (start handle layout owner : Usage G H W).Counted :=
  ⟨rfl, List.nodup_nil, fun _ hv => absurd hv List.not_mem_nil, Or.inl ⟨rfl, rfl⟩⟩

namespace Counted
variable {s : Usage G H W} (h : s.Counted)
include h

/-- There are fewer views than addresses. -/
theorem views_lt {dims : ℕ} (hd : s.Fresh dims) : s.views.length + 1 < 2 ^ 64 := by
  obtain ⟨hpos, hlt, hfresh⟩ := hd
  have hnodup : (dims :: s.views.map View.internal).Nodup := by
    refine List.nodup_cons.2 ⟨fun hmem => ?_, h.nodup⟩
    obtain ⟨v, hv, he⟩ := List.mem_map.1 hmem
    exact hfresh v hv he
  have hsub : dims :: s.views.map View.internal ⊆ List.range' 1 (2 ^ 64 - 1) := by
    intro a ha
    rw [List.mem_range'_1]
    rcases List.mem_cons.1 ha with rfl | ha
    · omega
    · obtain ⟨v, hv, rfl⟩ := List.mem_map.1 ha
      have := h.range v hv
      omega
  have hle := (List.subperm_of_subset hnodup hsub).length_le
  rw [List.length_range', List.length_cons, List.length_map] at hle
  omega

/-- With no view out the slot is still the handle's, or was handed back. -/
theorem of_exports (hexp : s.py.exports = 0) : s.views = [] :=
  List.length_eq_zero_iff.1 (h.exports.symm.trans hexp)

theorem effect {hand : H → W → W} {s' : Usage G H W} {c : UsageAct G W} {a : UsageOut G R}
    (he : Effect hand s c a s') : s'.Counted := by
  cases he with
  | kept => exact h
  | final | others => exact ⟨h.exports, h.nodup, h.range, h.slot⟩
  | granted hsome hd hv =>
    have hlt := h.views_lt hd
    obtain ⟨hpos, hdlt, hfresh⟩ := hd
    refine ⟨?_, ?_, fun v hmem => ?_, ?_⟩
    · simp only [h.exports, List.length_append, List.length_singleton]
      exact u64_of_lt hlt
    · rw [List.map_append, List.map_singleton, hv]
      refine List.nodup_append.2 ⟨h.nodup, List.pairwise_singleton _ _, fun a ha b hb => ?_⟩
      obtain ⟨v, hmem, rfl⟩ := List.mem_map.1 ha
      rw [List.mem_singleton.1 hb]
      exact hfresh v hmem
    · rcases List.mem_append.1 hmem with hmem | hmem
      · exact h.range v hmem
      · rw [List.mem_singleton.1 hmem, hv]
        exact ⟨hpos, hdlt⟩
    · rcases h.slot with hslot | ⟨hnone, -⟩
      · exact Or.inl hslot
      · rw [hnone] at hsome
        cases hsome
  | @given v hv =>
    refine ⟨?_, h.nodup.sublist (List.erase_sublist.map _), fun u hu =>
      h.range u (List.mem_of_mem_erase hu), ?_⟩
    · simp only [PyHandle.releasebuffer, h.exports, List.length_erase_of_mem hv]
    · rcases h.slot with hslot | ⟨-, hnil, -⟩
      · exact Or.inl hslot
      · rw [hnil] at hv
        cases hv
  | handed _ hx hexp =>
    refine ⟨h.exports, h.nodup, h.range, Or.inr ⟨rfl, h.of_exports hexp, ?_⟩⟩
    rcases h.slot with ⟨-, hnil⟩ | ⟨hnone, -⟩
    · rw [hnil]
      rfl
    · rw [hnone] at hx
      cases hx

end Counted

/-- What can be said of a handle in use at any moment, `effect` being what handing back does. -/
structure Safe (C : PyClass G H W R) (effect : H → W → W → Prop) (s : Usage G H W) : Prop where
  counted : s.py.exports = s.views.length
  once : s.returned = [] ∨ s.returned = [0]
  raises : ∀ c e s', s.call C c = some (.raised e, s') → s' = s
  hands : ∀ c a s', s.call C c = some (a, s') → (∀ w, c ≠ .others w) →
    (s'.py.handle = s.py.handle ∧ s'.owner = s.owner ∧ s'.returned = s.returned) ∨
    ∃ x, s.py.handle = some x ∧ s.py.exports = 0 ∧ s.returned = [] ∧
      s'.py.handle = none ∧ effect x s.owner s'.owner ∧ s'.returned = [0]
  closed : s.returned ≠ [] → s.views = [] ∧ ∀ isNull flags dims a s',
    s.call C (.getbuffer isNull flags dims) = some (a, s') → ∃ e, a = .raised e

theorem Counted.safe {C : PyClass G H W R} {hand : H → W → W} (hC : C.Lawful hand)
    {effect : H → W → W → Prop} (heff : ∀ x w, effect x w (hand x w))
    {s : Usage G H W} (h : s.Counted) : s.Safe C effect where
  counted := h.exports
  once := h.slot.imp And.right fun h => h.2.2
  raises c e s' hc := by
    have he := call_effect hC hc
    cases he with
    | kept => rfl
    | handed ha => exact absurd rfl (ha e)
  hands c a s' hc hne := by
    have he := call_effect hC hc
    cases he with
    | kept | granted | given | final => exact Or.inl ⟨rfl, rfl, rfl⟩
    | others => exact absurd rfl (hne _)
    | handed _ hx hexp =>
      rcases h.slot with ⟨-, hnil⟩ | ⟨hnone, -⟩
      · exact Or.inr ⟨_, hx, hexp, hnil, rfl, heff _ _, by rw [hnil]; rfl⟩
      · rw [hnone] at hx
        cases hx
  closed hne := by
    rcases h.slot with ⟨-, hnil⟩ | ⟨hnone, hviews, -⟩
    · exact absurd hnil hne
    · refine ⟨hviews, fun isNull flags dims a s' hc => ?_⟩
      simp only [call] at hc
      split_ifs at hc
      split at hc
      · cases hc
        exact ⟨_, rfl⟩
      · rename_i hg
        have hsome := (hC.getbuffer _ _ _ _ _ _ hg).1
        rw [hnone] at hsome
        cases hsome

theorem counted_reach {C : PyClass G H W R} {hand : H → W → W} (hC : C.Lawful hand) {x : H}
    {layout : Layout} {owner : W} {s : Usage G H W}
    (h : Reach (step C) (fun _ _ _ => True) (start x layout owner) s) : s.Counted := by
  refine h.inv (Counted.start x layout owner) fun s c s' hs hstep _ => ?_
  obtain ⟨⟨a, t⟩, hc, rfl⟩ := Option.map_eq_some_iff.1 hstep
  exact hs.effect (call_effect hC hc)

/-- The slot is still in the hands of the handle, or there was a moment when no view was out
    and it was handed back. -/
def Accounted (C : PyClass G H W R) (effect : H → W → W → Prop) (s s₀ : Usage G H W) (x : H) :
    Prop :=
  s.py.handle = some x ∧ s.returned = [] ∨ s.py.handle = none ∧ s.returned = [0] ∧
    ∃ t c a t', Reach (step C) (fun _ _ _ => True) s₀ t ∧ t.views = [] ∧
      t.call C c = some (a, t') ∧ effect x t.owner t'.owner ∧
      Reach (step C) (fun _ _ _ => True) t' s

theorem accounted_reach {C : PyClass G H W R} {hand : H → W → W} (hC : C.Lawful hand)
    {effect : H → W → W → Prop} (heff : ∀ x w, effect x w (hand x w)) {x : H} {layout : Layout}
    {owner : W} {s : Usage G H W}
    (h : Reach (step C) (fun _ _ _ => True) (start x layout owner) s) :
    s.Accounted C effect (start x layout owner) x := by
  induction h with
  | refl => exact Or.inl ⟨rfl, rfl⟩
  | @tail s s' c hreach hstep hp ih =>
    obtain ⟨⟨a, t⟩, hc, rfl⟩ := Option.map_eq_some_iff.1 hstep
    have he := call_effect hC hc
    rcases ih with ⟨hx, hnil⟩ | ⟨hnone, hret, u, d, b, u', hu, hviews, hcall, heffect, hrest⟩
    · cases he with
      | kept | granted | given | final | others => exact Or.inl ⟨hx, hnil⟩
      | handed _ hx' hexp =>
        cases hx.symm.trans hx'
        refine Or.inr ⟨rfl, by rw [hnil]; rfl, s, c, a, _, hreach, ?_, hc, heff _ _, .refl⟩
        exact (counted_reach hC hreach).of_exports hexp
    · have hrest' := hrest.tail hstep hp
      refine Or.inr ⟨?_, ?_, u, d, b, u', hu, hviews, hcall, heffect, hrest'⟩
      · cases he with
        | kept | granted | given | final | others => exact hnone
        | handed => rfl
      · cases he with
        | kept | granted | given | final | others => exact hret
        | handed _ hx' _ =>
          rw [hnone] at hx'
          cases hx'

end Usage

/-- A read handle finalised while its reader is free has returned its slot. -/
theorem Usage.finalised_free {s s' : ReadUsage G} {a : UsageOut G Unit}
    (h : s.Counted) (hc : s.call (readClass G) (.finalise true) = some (a, s')) :
    s'.finalised ∧ s'.py.handle = none ∧ s'.returned = [0] := by
  have hc' := h.effect (call_effect (readClass_lawful G) hc)
  simp only [call] at hc
  split_ifs at hc with hok
  cases hc
  have hviews : s.views = [] := List.isEmpty_iff.1 (Bool.and_eq_true_iff.1 hok).2
  have hnone : ((readClass G).drop s.py true s.owner).1.handle = none := by
    simp only [readClass, PyReadHandle.drop, PyReadHandle.release]
    split_ifs with hn
    · exact Option.isNone_iff_eq_none.1 hn
    · split
      · assumption
      · exact PyHandle.finish_free (by rw [h.exports, hviews]; rfl) _ _
  refine ⟨rfl, hnone, ?_⟩
  rcases hc'.slot with ⟨hsome, -⟩ | ⟨-, -, hr⟩
  · have hsome' : ((readClass G).drop s.py true s.owner).1.handle.isSome := hsome
    rw [hnone] at hsome'
    cases hsome'
  · exact hr

/-- **A handle hands its slot back once, and only when nobody looks at it**, whatever calls
    are made on it, and in whatever order: the slot of a read handle then carries its entry
    again, that of a write handle is published.  A read handle that is finalised while its
    reader is free has handed it back. -/
theorem handles_returned (G : Geometry) :
    (∀ x layout m s, Reach (Usage.step (readClass G)) (fun _ _ _ => True)
        (Usage.start x layout m) s →
      s.Safe (readClass G) ReadHandle.Restored ∧
      s.Accounted (readClass G) ReadHandle.Restored (Usage.start x layout m) x ∧
      ∀ a s', s.call (readClass G) (.finalise true) = some (a, s') →
        s'.py.handle = none ∧ s'.returned = [0] ∧
          (s.py.handle = some x → x.Restored s.owner s'.owner)) ∧
    ∀ x layout w s, Reach (Usage.step (writeClass G)) (fun _ _ _ => True)
        (Usage.start x layout w) s →
      s.Safe (writeClass G) WriteHandle.Published ∧
      s.Accounted (writeClass G) WriteHandle.Published (Usage.start x layout w) x := by
  refine ⟨fun x layout m s h => ?_, fun x layout w s h => ?_⟩
  · have hcounted := Usage.counted_reach (readClass_lawful G) h
    have hsafe := hcounted.safe (readClass_lawful G) hand_restored
    refine ⟨hsafe, Usage.accounted_reach (readClass_lawful G) hand_restored h, fun a s' hc => ?_⟩
    obtain ⟨-, hnone, hret⟩ := Usage.finalised_free hcounted hc
    refine ⟨hnone, hret, fun hx => ?_⟩
    have hhands := hsafe.hands _ _ _ hc fun _ he => by cases he
    rcases hhands with ⟨hsame, -⟩ | ⟨y, hy, -, -, -, he, -⟩
    · rw [hnone, hx] at hsame
      cases hsame
    · cases hx.symm.trans hy
      exact he
  · exact ⟨(Usage.counted_reach (writeClass_lawful G) h).safe (writeClass_lawful G) hand_published,
      Usage.accounted_reach (writeClass_lawful G) hand_published h⟩

/-- A read handle on a pinned slot and a write handle, both finished too early at first: with
    a view out, and with the owner borrowed. -/
theorem handles_returned_views : ∃ (s s' : ReadUsage (.tiny 1)) (t t' : WriteUsage (.tiny 1))
    (a : UsageOut (.tiny 1) Unit) (b : UsageOut (.tiny 1) ℕ),
    s.call (readClass _) (.exit true true) = some (a, s') ∧ s'.returned = [0] ∧
    s.owner.seg.words (Geometry.slot _ 0) = -1 ∧ s'.owner.seg.words (Geometry.slot _ 0) = 1 ∧
    t.call (writeClass _) (.finish true) = some (b, t') ∧ t'.returned = [0] ∧
    t'.owner.2.seg.words (Geometry.slot _ 0) = 1 ∧ t'.owner.2.seg.hdr .lastEntrySeq = 1 ∧
    t'.owner.2.log = [List.replicate 8 0] := by
  have hread : ((steps (Usage.step (readClass (.tiny 1))) (fun _ _ => true)
      (Usage.start ⟨Geometry.slot _ 0, 1⟩ .bytes
        ⟨(Segment.init _ .u8 7).setWord (Geometry.slot _ 0) (-1), [], [], []⟩)
      [.getbuffer false PyBUF_STRIDES 16, .finish true,
        .releasebuffer ⟨Geometry.slot _ 0, 8, true, 1, none, 1, some 8, some 1, 16⟩,
        .finish false]).bind fun s => (s.call (readClass _) (.exit true true)).map fun r =>
          (s.py.handle, s.returned, s.owner.seg.words (Geometry.slot _ 0), r.2.returned)) =
      some (some ⟨Geometry.slot _ 0, 1⟩, [], -1, [0]) := by decide +kernel
  have hwrite : ((steps (Usage.step (writeClass (.tiny 1))) (fun _ _ => true)
      (Usage.start ⟨Geometry.slot _ 0⟩ .float64
        (⟨Geometry.slot _ 0, 0⟩, ⟨Segment.init _ .u8 7, [], [], []⟩))
      [.getbuffer false PyBUF_WRITABLE 16, .finish true,
        .releasebuffer ⟨Geometry.slot _ 0, 8, false, 8, none, 1, none, none, 16⟩, .finish false,
        .exit true true]).bind fun s => (s.call (writeClass _) (.finish true)).map fun r =>
          (s.py.handle, s.returned, r.2.returned, decide (s.owner.1 = ⟨Geometry.slot _ 0, 0⟩ ∧
            s.owner.2.log = [] ∧
            bytesOf (s.owner.2.seg.payload (Geometry.slot _ 0)) = List.replicate 8 0))) =
      some (some ⟨Geometry.slot _ 0⟩, [], [0], true) := by decide +kernel
  obtain ⟨s, hs, hrun⟩ := Option.bind_eq_some_iff.1 hread
  obtain ⟨⟨a, s'⟩, hcall, he⟩ := Option.map_eq_some_iff.1 hrun
  obtain ⟨t, ht, hrun'⟩ := Option.bind_eq_some_iff.1 hwrite
  obtain ⟨⟨b, t'⟩, hcall', he'⟩ := Option.map_eq_some_iff.1 hrun'
  simp only [Prod.mk.injEq, decide_eq_true_eq] at he he'
  obtain ⟨hx, hnil, hword, hret⟩ := he
  obtain ⟨hx', hnil', hret', hraw, hlog, hbytes⟩ := he'
  have h₁ := ((handles_returned (.tiny 1)).1 _ _ _ s
    ((reach_of_steps .refl hs).mono fun _ _ _ _ => trivial)).1
  have h₂ := ((handles_returned (.tiny 1)).2 _ _ _ t
    ((reach_of_steps .refl ht).mono fun _ _ _ _ => trivial)).1
  have hhands := h₁.hands _ _ _ hcall fun _ he => by cases he
  have hhands' := h₂.hands _ _ _ hcall' fun _ he => by cases he
  simp only [hret, hnil, hret', hnil', List.cons_ne_nil, and_false, false_or] at hhands hhands'
  obtain ⟨x, hx₁, -, -, -, hres, -⟩ := hhands
  obtain ⟨y, hy₁, -, -, -, hpub, -⟩ := hhands'
  cases hx.symm.trans hx₁
  cases hx'.symm.trans hy₁
  refine ⟨s, s', t, t', a, b, hcall, hret, hword, ?_, hcall', hret', ?_, ?_, ?_⟩
  · rw [hres.1]
    exact Segment.setWord_self ..
  · rw [hpub.seg, hraw]
    rfl
  · rw [hpub.seg, hraw]
    rfl
  · rw [hpub.log, hlog, hbytes]
    rfl

end ZeroChannel
