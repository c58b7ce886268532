/-
  A handle shows its entry as long as it is held.

  Whatever the other ends do, whoever else crashes and whatever becomes of the name: once an
  end has looked at an entry that it holds, its next look shows the same bytes
  (`held_bytes_kept`).  The argument is about cells: a cell that is held stands in its queue, is
  the only one with its number, and changes when it is let go only (`Queue.Holds.call`); and
  only the end that holds the role of the zero-copy reader can do that
  (`Directory.Describes.held`).
-/
import ZeroChannel.Proof.Directory

namespace ZeroChannel

open Concur

variable {G : Geometry} {E : Type} {ι : Type}

/-! ## Cells -/

/-- A list from the first element on that fails the test. -/
theorem dropWhile_split {α : Type} {p : α → Bool} {l rest : List α} {x : α}
    (h : l.dropWhile p = x :: rest) : l = l.takeWhile p ++ x :: rest ∧ p x = false := by
  have hnot := List.head?_dropWhile_not p l
  rw [h] at hnot
  refine ⟨?_, by simpa using hnot⟩
  rw [← h, List.takeWhile_append_dropWhile]

namespace Queue

/-- Entry `n` is held, and its payload is `b`. -/
structure Holds (q : Queue G ι) (n : ℕ) (b : Block G) : Prop where
  mem : ⟨.held n, b⟩ ∈ q.cells
  only : ∀ c ∈ q.cells, c.use = .entry n ∨ c.use = .held n → c = ⟨.held n, b⟩
  le : n ≤ q.published

namespace Holds
variable {q q' : Queue G ι} {n : ℕ} {b : Block G} (h : q.Holds n b)
include h

theorem bytesAt : q.bytesAt (.held n) = bytesOf b := by
  unfold Queue.bytesAt
  cases hf : q.cells.find? (fun c => c.use = .held n) with
  | none => exact absurd (decide_eq_true rfl) (List.find?_eq_none.1 hf _ h.mem)
  | some c =>
    have hfound := List.find?_some hf
    have huse : c.use = .held n := of_decide_eq_true hfound
    rw [h.only c (List.mem_of_find?_eq_some hf) (Or.inr huse)]
    rfl

/-- The cells are moved about, and the new ones are something else. -/
theorem of_cells (hmem : ⟨.held n, b⟩ ∈ q'.cells)
    (hnew : ∀ c ∈ q'.cells, c ∈ q.cells ∨ c.use ≠ .entry n ∧ c.use ≠ .held n)
    (hle : q.published ≤ q'.published) : q'.Holds n b := by
  refine ⟨hmem, fun c hc huse => ?_, h.le.trans hle⟩
  rcases hnew c hc with hc | ⟨he, hh⟩
  · exact h.only c hc huse
  · exact (huse.elim he hh).elim

theorem congr (hc : q'.cells = q.cells) (hp : q'.published = q.published) : q'.Holds n b :=
  h.of_cells (hc ▸ h.mem) (fun _ h' => Or.inl (hc ▸ h')) hp.ge

theorem publish {before rest : List (Cell G)} {c : Cell G} {b' : Block G}
    (hq : q.cells = before ++ c :: rest) (hc : c.use.isHeld = false) :
    (q.publish before rest b').Holds n b := by
  have hne : (⟨.held n, b⟩ : Cell G) ≠ c := by
    rintro rfl
    cases hc
  have hmem := h.mem
  rw [hq, List.mem_append, List.mem_cons] at hmem
  refine h.of_cells ?_ ?_ (Nat.le_succ _)
  · simp only [Queue.publish, List.mem_append]
    rcases hmem with hm | hm | hm
    · exact Or.inl (Or.inr hm)
    · exact absurd hm hne
    · exact Or.inl (Or.inl hm)
  · intro x hx
    simp only [Queue.publish, List.mem_append, List.mem_singleton] at hx
    rw [hq, List.mem_append, List.mem_cons]
    rcases hx with (hx | hx) | rfl
    · exact Or.inl (Or.inr (Or.inr hx))
    · exact Or.inl (Or.inl hx)
    · refine Or.inr ⟨fun he => ?_, Use.noConfusion⟩
      have := h.le
      cases he
      omega

theorem takes {before rest : List (Cell G)} {c : Cell G} (hq : q.cells = before ++ c :: rest)
    (hc : c.use.isHeld = false) :
    Holds { q with cells := before ++ { c with use := .building } :: rest } n b := by
  have hne : (⟨.held n, b⟩ : Cell G) ≠ c := by
    rintro rfl
    cases hc
  have hmem := h.mem
  rw [hq, List.mem_append, List.mem_cons] at hmem
  refine h.of_cells ?_ ?_ (Nat.le_refl _)
  · rcases hmem with hm | hm | hm
    · exact List.mem_append_left _ hm
    · exact absurd hm hne
    · exact List.mem_append_right _ (List.mem_cons_of_mem _ hm)
  · intro x hx
    rw [List.mem_append, List.mem_cons] at hx
    rw [hq, List.mem_append, List.mem_cons]
    rcases hx with hx | rfl | hx
    · exact Or.inl (Or.inl hx)
    · exact Or.inr ⟨Use.noConfusion, Use.noConfusion⟩
    · exact Or.inl (Or.inr (Or.inr hx))

theorem change {u : Use} {f : Cell G → Cell G} (hu : u ≠ .held n)
    (hf : ∀ c, c.use = u → (f c).use ≠ .entry n ∧ (f c).use ≠ .held n) :
    (q.change u f).Holds n b := by
  refine h.of_cells ?_ ?_ (Nat.le_refl _)
  · refine List.mem_map.2 ⟨_, h.mem, if_neg ?_⟩
    exact hu.symm
  · intro x hx
    obtain ⟨c, hc, rfl⟩ := List.mem_map.1 hx
    by_cases huse : c.use = u
    · rw [if_pos huse]
      exact Or.inr (hf c huse)
    · rw [if_neg huse]
      exact Or.inl hc

/-- The oldest entry newer than the watermark is another one. -/
theorem next_ne {w m : ℕ} {b' : Block G} (hn : q.next? w = some (m, b')) : m ≠ n := by
  rintro rfl
  obtain ⟨c, hc, hnew⟩ := List.mem_filterMap.1 (List.argmin_mem hn)
  unfold newer at hnew
  split at hnew
  · rename_i k hk
    split_ifs at hnew
    cases hnew
    have := h.only c hc (Or.inl hk)
    rw [this] at hk
    cases hk
  · cases hnew

variable [DecidableEq ι]

/-- **Calls leave a held entry alone**, unless they let it go. -/
theorem call {c : QueueCall G ι} {a : QueueAnswer} (hc : q.call c = some (a, q'))
    (hr : c ≠ .release n) : q'.Holds n b := by
  cases c with
  | write data =>
    simp only [Queue.call] at hc
    split_ifs at hc with hready hlen
    · split at hc
      · cases hc
        exact h
      · rename_i x rest hahead
        cases hc
        obtain ⟨hq, hx⟩ := dropWhile_split hahead
        exact h.publish hq hx
    · cases hc
      exact h
  | acquire =>
    simp only [Queue.call] at hc
    split_ifs at hc with hready
    split at hc
    · cases hc
      exact h
    · rename_i x rest hahead
      cases hc
      obtain ⟨hq, hx⟩ := dropWhile_split hahead
      exact h.takes hq hx
  | fill j v =>
    simp only [Queue.call] at hc
    split_ifs at hc
    cases hc
    refine h.change Use.noConfusion fun c hu => ?_
    simp [hu]
  | commit =>
    simp only [Queue.call] at hc
    split at hc
    · cases hc
    · rename_i x rest hahead
      cases hc
      obtain ⟨hq, hx⟩ := dropWhile_split hahead
      have huse : x.use = .building := by simpa using hx
      exact h.publish hq (by rw [huse]; rfl)
  | abandon =>
    simp only [Queue.call] at hc
    split_ifs at hc
    cases hc
    exact h.change Use.noConfusion fun c _ => ⟨Use.noConfusion, Use.noConfusion⟩
  | reattach =>
    simp only [Queue.call] at hc
    split_ifs at hc
    cases hc
    exact h
  | attachReader r =>
    cases hc
    exact h.congr rfl rfl
  | readInto r dst f =>
    simp only [Queue.call] at hc
    split_ifs at hc
    · split at hc
      · cases hc
        exact h
      · cases hc
        exact h.congr rfl rfl
    · cases hc
      exact h
  | tryAcquire r f =>
    simp only [Queue.call] at hc
    split at hc
    · cases hc
      exact h
    · rename_i m b' hnext
      cases hc
      have hne := h.next_ne hnext
      have hchange : (q.change (.entry m) fun c => { c with use := .held m }).Holds n b :=
        h.change Use.noConfusion fun c _ => ⟨Use.noConfusion, fun he => hne (Use.held.inj he)⟩
      exact hchange.congr rfl rfl
  | release m =>
    simp only [Queue.call] at hc
    split_ifs at hc
    cases hc
    have hne : m ≠ n := fun he => hr (he ▸ rfl)
    exact h.change (fun he => hne (Use.held.inj he))
      fun c _ => ⟨fun he => hne (Use.entry.inj he), Use.noConfusion⟩

end Holds

end Queue

/-- An entry held in a session. -/
theorem Session.Represents.holds {s : Session G ι} (h : s.Represents) {x : ReadHandle G}
    (hx : x ∈ s.readHandles) : s.queue.Holds x.entrySeq (s.mem.seg.payload x.index) := by
  obtain ⟨hn, -, hw⟩ := h.pin x hx
  have hcell : s.cellAt x.index = ⟨.held x.entrySeq, s.mem.seg.payload x.index⟩ := by
    rw [cellAt, (useAt_held hn).2 hw]
  refine ⟨hcell ▸ mem_cellsFrom.2 ⟨_, rfl⟩, fun c hc huse => ?_, ?_⟩
  · obtain ⟨i, rfl⟩ := mem_cellsFrom.1 hc
    have habs : (s.mem.seg.words i).natAbs = x.entrySeq := by
      rcases huse with huse | huse
      · rw [(useAt_entry hn).1 huse, Int.natAbs_natCast]
      · rw [(useAt_held hn).1 huse, Int.natAbs_neg, Int.natAbs_natCast]
    have hi : i = x.index := h.marked.inj i x.index (by omega) (by rw [habs, hw]; omega)
    rw [hi, hcell]
  · have := h.marked.le x.index
    have hpub : s.queue.published = s.mem.log.length := rfl
    omega

/-! ## Channels -/

namespace Line
variable [DecidableEq E] {l : Line E} {n : ℕ} {bytes : List UInt8}

/-- The channel holds entry `n`, which shows `bytes`. -/
def Shows (l : Line E) (n : ℕ) (bytes : List UInt8) : Prop :=
  ∃ b, l.queue.Holds n b ∧ bytesOf b = bytes

theorem Shows.bind (h : l.Shows n bytes) {who : E → Pid} {e : E} {args : OpenArgs} {l' : Line E}
    (hb : l.bind who e args = .ok l') : l'.Shows n bytes := by
  obtain ⟨b, hb', rfl⟩ := h
  have hmarks : ∀ m, Queue.Holds { l.queue with marks := m } n b := fun m => hb'.congr rfl rfl
  unfold Line.bind at hb
  split at hb
  · cases hb
    exact ⟨b, hmarks _, rfl⟩
  · split at hb
    · cases hb
    · cases hb
      exact ⟨b, hmarks _, rfl⟩

omit [DecidableEq E] in
theorem Shows.left (h : l.Shows n bytes) (gone : E → Bool) : (l.left gone).Shows n bytes := by
  obtain ⟨b, hb, rfl⟩ := h
  refine ⟨b, ?_, rfl⟩
  unfold Line.left
  dsimp only
  split_ifs
  · exact hb.change Use.noConfusion fun c _ => ⟨Use.noConfusion, Use.noConfusion⟩
  · exact hb

/-- A call that does not let the entry go. -/
theorem call_holds {b : Block l.geometry} {kind : Kind} {e : E} {held held' : List ℕ}
    {c : PortCall} {a : PortAnswer} {q' : Queue l.geometry E} (h : l.queue.Holds n b)
    (hc : l.call kind e held c = some (a, q', held')) (hr : c ≠ .release n) :
    q'.Holds n b ∧ (n ∈ held → n ∈ held') := by
  -- the calls that leave the handles alone
  have hqueue : ∀ (qc : QueueCall l.geometry E) (f : QueueAnswer → PortAnswer),
      qc ≠ .release n → ((l.queue.call qc).map fun r => (f r.1, r.2, held)) = some (a, q', held') →
        q'.Holds n b ∧ (n ∈ held → n ∈ held') := by
    intro qc f hqc hmap
    obtain ⟨⟨qa, q''⟩, hcall, he⟩ := Option.map_eq_some_iff.1 hmap
    cases he
    exact ⟨h.call hcall hqc, id⟩
  cases c with
  | write data => exact hqueue _ _ (by simp) hc
  | acquire => exact hqueue _ _ (by simp) hc
  | fill j v =>
    simp only [Line.call] at hc
    split_ifs at hc with hj
    exact hqueue _ _ (by simp) hc
  | commit => exact hqueue _ _ (by simp) hc
  | abandon => exact hqueue _ _ (by simp) hc
  | readInto dst f => exact hqueue _ _ (by simp) hc
  | readAs elem f => exact hqueue _ _ (by simp) hc
  | tryAcquire f =>
    obtain ⟨⟨qa, q''⟩, hcall, he⟩ := Option.map_eq_some_iff.1 hc
    cases he
    exact ⟨h.call hcall (by simp), List.mem_append_left _⟩
  | asBytes m =>
    simp only [Line.call] at hc
    split_ifs at hc
    cases hc
    exact ⟨h, id⟩
  | release m =>
    have hne : m ≠ n := fun he => hr (he ▸ rfl)
    simp only [Line.call] at hc
    split_ifs at hc
    obtain ⟨⟨qa, q''⟩, hcall, he⟩ := Option.map_eq_some_iff.1 hc
    cases he
    refine ⟨h.call hcall fun he => hne (QueueCall.release.inj he), fun hm => ?_⟩
    exact (List.mem_erase_of_ne hne.symm).2 hm
  | _ =>
    cases hc
    exact ⟨h, id⟩

end Line

/-! ## The directory -/

/-- What lets entry `n` of the end `e` go. -/
def ServiceAct.lets [DecidableEq E] (who : E → Pid) (e : E) (n : ℕ) : ServiceAct E → Bool
  | .call e' c => decide (e' = e ∧ c = .release n)
  | .drop e' => decide (e' = e)
  | .crash pid => decide ((who e).val = pid)
  | _ => false

namespace Directory
variable [DecidableEq E] {who : E → Pid}

/-- The end `e` holds entry `n`, which shows `bytes`. -/
def Shows (d : Directory E) (e : E) (n : ℕ) (bytes : List UInt8) : Prop :=
  ∃ k g own l, d.desks e = some k ∧ k.line = some (g, own) ∧ n ∈ k.held ∧ d.lines g = some l ∧
    l.Shows n bytes

/-- The end `e` and what channel `g` holds as `n` are left alone. -/
structure Leaves (d d' : Directory E) (e : E) (n g : ℕ) : Prop where
  desk : d'.desks e = d.desks e
  line : ∀ l, d.lines g = some l →
    ∃ l', d'.lines g = some l' ∧ ∀ bytes, l.Shows n bytes → l'.Shows n bytes

namespace Leaves
variable {d d' d'' : Directory E} {e e' : E} {n g g' : ℕ}

omit [DecidableEq E] in
theorem refl (d : Directory E) (e : E) (n g : ℕ) : d.Leaves d e n g :=
  ⟨rfl, fun l hl => ⟨l, hl, fun _ => id⟩⟩

omit [DecidableEq E] in
theorem trans (h : d.Leaves d' e n g) (h' : d'.Leaves d'' e n g) : d.Leaves d'' e n g := by
  refine ⟨h'.desk.trans h.desk, fun l hl => ?_⟩
  obtain ⟨l', hl', hs⟩ := h.line l hl
  obtain ⟨l'', hl'', hs'⟩ := h'.line l' hl'
  exact ⟨l'', hl'', fun bytes hb => hs' bytes (hs bytes hb)⟩

omit [DecidableEq E] in
theorem unname (d : Directory E) (name : String) : d.Leaves (d.unname name) e n g :=
  ⟨rfl, fun l hl => ⟨l, hl, fun _ => id⟩⟩

omit [DecidableEq E] in
theorem setLine {l l' : Line E} (hl : d.lines g' = some l)
    (h : g' = g → ∀ bytes, l.Shows n bytes → l'.Shows n bytes) :
    d.Leaves (d.setLine g' l') e n g := by
  refine ⟨rfl, fun l₀ hl₀ => ?_⟩
  by_cases hg : g = g'
  · subst hg
    rw [hl] at hl₀
    cases hl₀
    exact ⟨l', Function.update_self .., h rfl⟩
  · exact ⟨l₀, (Function.update_of_ne hg ..).trans hl₀, fun _ => id⟩

theorem setDesk (he : e' ≠ e) (k : Desk) : d.Leaves (d.setDesk e' k) e n g :=
  ⟨Function.update_of_ne he.symm .., fun l hl => ⟨l, hl, fun _ => id⟩⟩

omit [DecidableEq E] in
theorem create (hg : g < d.count) (name : String) (G : Geometry) (dtype : Dtype) :
    d.Leaves (d.create who e' name G dtype) e n g :=
  ⟨rfl, fun l hl => ⟨l, (Function.update_of_ne hg.ne ..).trans hl, fun _ => id⟩⟩

omit [DecidableEq E] in
theorem left {gone : E → Bool} (he : gone e = false) : d.Leaves (d.left gone) e n g := by
  refine ⟨by simp [Directory.left, he], fun l hl => ⟨l.left gone, ?_, fun _ hb => hb.left gone⟩⟩
  simp [Directory.left, hl]

theorem join (he : e' ≠ e) {l : Line E} (hl : d.lines g' = some l) (args : OpenArgs) (own : Bool) :
    d.Leaves (d.join who e' args g' l own).2 e n g := by
  unfold Directory.join
  cases hb : l.bind who e' args with
  | error er =>
    cases own
    · exact .refl ..
    · exact .unname ..
  | ok l' => exact (setLine hl fun _ _ h => h.bind hb).trans (setDesk he _)

omit [DecidableEq E] in
theorem find_line {name : String} {l : Line E} (h : d.find name = some (g, l)) :
    d.lines g = some l := by
  obtain ⟨g', hg, hl⟩ := Option.bind_eq_some_iff.1 h
  obtain ⟨l', hl', he⟩ := Option.map_eq_some_iff.1 hl
  cases he
  exact hl'

theorem attach (he : e' ≠ e) (args : OpenArgs) : d.Leaves (d.attach who e' args).2 e n g := by
  unfold Directory.attach
  split
  · exact .refl ..
  · rename_i g' l hf
    split
    · exact .refl ..
    · exact join he (find_line hf) args false

theorem adopt (he : e' ≠ e) (args : OpenArgs) (pb m : ℕ) {l : Line E} (hl : d.lines g' = some l) :
    d.Leaves (d.adopt who e' args pb m g' l).2 e n g := by
  unfold Directory.adopt
  split
  · exact .refl ..
  · dsimp only
    cases !d.live l.deed.val with
    | false =>
      rw [if_neg Bool.false_ne_true]
      have hset : d.Leaves (d.setLine g' l) e n g := setLine hl fun _ _ h => h
      exact hset.trans (join he (Function.update_self ..) args _)
    | true =>
      rw [if_pos rfl]
      have hset : d.Leaves (d.setLine g' { l with deed := who e' }) e n g :=
        setLine hl fun _ _ h => h
      exact hset.trans (join he (Function.update_self ..) args _)

theorem «open» (he : e' ≠ e) (args : OpenArgs) (hg : g < d.count) :
    d.Leaves (d.open who e' args).2 e n g := by
  unfold Directory.open
  split
  · split
    · exact .refl ..
    · exact .refl ..
    · split
      · rename_i hf
        exact adopt he args _ _ (find_line hf)
      · split
        · exact .refl ..
        · exact (create hg args.name _ args.dtype).trans
            (join he (Function.update_self ..) args true)
  · split
    · rename_i d' hatt
      have hleaves : d.Leaves (d.attach who e' args).2 e n g := attach he _
      rw [hatt] at hleaves
      split_ifs
      · exact hleaves.trans (setDesk he _)
      · exact hleaves
    · exact attach he args
  · exact .refl ..

theorem serve (he : e' ≠ e) {k : Desk} {c : PortCall} {a : PortAnswer}
    (hs : d.serve e' k c = some (a, d')) (hr : c = .release n → ∀ own, k.line ≠ some (g, own)) :
    d.Leaves d' e n g := by
  unfold Directory.serve at hs
  split at hs
  · obtain ⟨x, -, hx⟩ := Option.map_eq_some_iff.1 hs
    cases hx
    exact .refl ..
  · rename_i g' own hline
    obtain ⟨l, hl, hs⟩ := Option.bind_eq_some_iff.1 hs
    obtain ⟨⟨x, q, held⟩, hcall, hx⟩ := Option.map_eq_some_iff.1 hs
    cases hx
    refine (setLine hl fun hg bytes hb => ?_).trans (setDesk he _)
    obtain ⟨b, hb, rfl⟩ := hb
    exact ⟨b, (Line.call_holds hb hcall fun hc => hr hc own (hg ▸ hline)).1, rfl⟩

theorem call (he : e' ≠ e) {k : Desk} {c : PortCall} {a : PortAnswer}
    (hs : d.call who e' k c = some (a, d')) (hr : c = .release n → ∀ own, k.line ≠ some (g, own)) :
    d.Leaves d' e n g := by
  unfold Directory.call at hs
  by_cases hc : (c.connects && k.line.isNone) = true
  · have hleaves : d.Leaves (d.attach who e' k.args).2 e n g := attach he _
    have hne : c ≠ .release n := by
      rintro rfl
      cases hc
    rw [if_pos hc] at hs
    split at hs
    · cases hs
    split at hs
    · cases hs
      exact .refl ..
    split at hs
    · rename_i er d₁ hatt
      rw [hatt] at hleaves
      obtain ⟨x, -, hx⟩ := Option.map_eq_some_iff.1 hs
      cases hx
      exact hleaves
    · rename_i d₁ hatt
      rw [hatt] at hleaves
      split at hs
      · exact hleaves.trans (serve he hs fun h => absurd h hne)
      · obtain ⟨x, -, hx⟩ := Option.map_eq_some_iff.1 hs
        cases hx
        exact hleaves
    · rename_i d₁ hatt
      rw [hatt] at hleaves
      obtain ⟨k', -, hs⟩ := Option.bind_eq_some_iff.1 hs
      exact hleaves.trans (serve he hs fun h => absurd h hne)
  · rw [if_neg hc] at hs
    split_ifs at hs
    · cases hs
      exact .refl ..
    · exact serve he hs hr

end Leaves

section
variable {d d' : Directory E} {e : E} {n g : ℕ} {bytes : List UInt8}

omit [DecidableEq E] in
/-- The entry of a desk that is left alone. -/
theorem Leaves.shows {k : Desk} {own : Bool} {l : Line E} (h : d.Leaves d' e n g)
    (hk : d.desks e = some k) (hg : k.line = some (g, own)) (hn : n ∈ k.held)
    (hl : d.lines g = some l) (hs : l.Shows n bytes) : d'.Shows e n bytes := by
  obtain ⟨l', hl', hs'⟩ := h.line l hl
  exact ⟨k, g, own, l', h.desk.trans hk, hg, hn, hl', hs' bytes hs⟩

/-- The calls of the end itself. -/
theorem Shows.call (h : d.Shows e n bytes) {k : Desk} (hk : d.desks e = some k) {c : PortCall}
    {a : PortAnswer} (hs : d.call who e k c = some (a, d')) (hr : c ≠ .release n) :
    d'.Shows e n bytes := by
  obtain ⟨k', g, own, l, hk', hg, hn, hl, hb⟩ := h
  rw [hk] at hk'
  cases hk'
  have hc : ¬(c.connects && k.line.isNone) = true := by simp [hg]
  unfold Directory.call at hs
  rw [if_neg hc] at hs
  split_ifs at hs
  · cases hs
    exact ⟨k, g, own, l, hk, hg, hn, hl, hb⟩
  · simp only [Directory.serve, hg, hl, Option.bind_some] at hs
    obtain ⟨⟨x, q, held⟩, hcall, hx⟩ := Option.map_eq_some_iff.1 hs
    cases hx
    obtain ⟨b, hb, rfl⟩ := hb
    obtain ⟨hb', hheld⟩ := Line.call_holds hb hcall hr
    exact ⟨_, g, own, _, Function.update_self .., rfl, hheld hn, Function.update_self ..,
      b, hb', rfl⟩

end

variable {d d' : Directory E} {S S' : Service E} {e : E} {n : ℕ} {bytes : List UInt8}

omit [DecidableEq E] in
/-- A handle is one on an entry of the channel that its end reads in place. -/
theorem Describes.held (h : d.Describes who S) {k : Desk} (hk : d.desks e = some k)
    (hn : n ∈ k.held) : k.args.kind = .reader true ∧ ∃ g own l bytes, k.line = some (g, own) ∧
      d.lines g = some l ∧ g < d.count ∧ l.holder .zcReader = some e ∧ l.Shows n bytes := by
  have hseen := h.ends e
  rw [hk] at hseen
  obtain ⟨p, hp, hkp⟩ := Option.map_eq_some_iff.1 hseen.desk.symm
  have hhoused := hseen.housed p hp
  subst hkp
  cases hep : p.ep with
  | none =>
    rw [(hhoused.fresh hep).2] at hn
    cases hn
  | some ep =>
    have hmapped := hhoused.mapped
    rw [hep, Option.map_some] at hmapped
    obtain ⟨md, hmd, hshmem⟩ := Option.map_eq_some_iff.1 hmapped
    have hg := (hhoused.ep ep hep).2.2
    obtain ⟨l, s, hl, hb⟩ := h.lines _ hg
    have hon : S.on ep.shmem.seg e = some p := on_eq_some.2 ⟨hp, ep, hep, rfl⟩
    have hline : ((S.world.maps e).map fun md => (md.shmem.seg, md.owner)) =
        some (ep.shmem.seg, md.owner) := by
      rw [hmd, Option.map_some, hshmem]
    cases hb.places.place e p hon with
    | writer _ _ _ _ hr =>
      rw [hr] at hn
      cases hn
    | @reader zc xs hkind _ hh _ hr hxs hz =>
      cases zc with
      | false =>
        rw [hr, hz rfl] at hn
        cases hn
      | true =>
        obtain ⟨x, hx, rfl⟩ : ∃ x ∈ xs, x.entrySeq = n := by
          rw [hr, handlesOf_snd] at hn
          exact List.mem_map.1 hn
        have hholds := hb.rings.rep.holds (hxs.2 x hx)
        exact ⟨hkind, _, _, l, _, hline, hl, h.count ▸ hg, hh rfl, _, hb.queue ▸ hholds, rfl⟩

/-- Who looks at an entry or lets it go holds it. -/
theorem call_mem {k : Desk} {c : PortCall} {x : PortAnswer × Directory E}
    (hs : d.call who e k c = some x) (hc : c = .asBytes n ∨ c = .release n) : n ∈ k.held := by
  by_contra hn
  have hno : ∀ (l : Line E) kind, l.call kind e k.held c = none := by
    intro l kind
    rcases hc with rfl | rfl <;> exact if_neg hn
  have hconnects : ¬(c.connects && k.line.isNone) = true := by
    rcases hc with rfl | rfl <;> exact Bool.false_ne_true
  have hplace : ¬(c.inPlace && k.args.kind ≠ .reader true) = true := by
    rcases hc with rfl | rfl <;> exact Bool.false_ne_true
  have hidle : c.idle = none := by rcases hc with rfl | rfl <;> rfl
  unfold Directory.call at hs
  rw [if_neg hplace, if_neg hconnects] at hs
  split_ifs at hs
  unfold Directory.serve at hs
  split at hs
  · simp [hidle] at hs
  · obtain ⟨l, -, hl⟩ := Option.bind_eq_some_iff.1 hs
    simp [hno] at hl

/-- A look at the entry. -/
theorem Shows.asBytes (hs : d.Shows e n bytes) (h : d.Describes who S) :
    ∃ d', d.step who (.call e (.asBytes n)) = some (.called (.bytes bytes), d') := by
  obtain ⟨k, g, own, l, hk, hg, hn, hl, b, hb, rfl⟩ := hs
  have hkind := (h.held hk hn).1
  have hline : l.call k.args.kind e k.held (.asBytes n) =
      some (.bytes (bytesOf b), l.queue, k.held) := by
    rw [← hb.bytesAt]
    exact if_pos hn
  have hcall : d.call who e k (.asBytes n) = d.serve e k (.asBytes n) := by
    unfold Directory.call
    rw [hkind]
    rfl
  refine ⟨(d.setLine g l).setDesk e ⟨k.args, some (g, own), k.held⟩, ?_⟩
  simp only [Directory.step, hk, hcall, Directory.serve, hg, hl, hline, Option.bind_some,
    Option.map_some]

/-- **Steps leave a held entry alone**, unless they let it go. -/
theorem Shows.step (hs : d.Shows e n bytes) (h : d.Describes who S) {a : ServiceAct E}
    {b : ServiceAnswer} (hstep : d.step who a = some (b, d')) (ha : a.lets who e n = false) :
    d'.Shows e n bytes := by
  obtain ⟨k, g, own, l, hk, hg, hn, hl, hb⟩ := id hs
  obtain ⟨-, g', own', l', -, hg', hl', hcount, hrole, -⟩ := h.held hk hn
  cases hg.symm.trans hg'
  cases hl.symm.trans hl'
  cases a with
  | «open» e' args =>
    simp only [Directory.step] at hstep
    split_ifs at hstep with hfree
    cases hstep
    have he : e' ≠ e := by
      rintro rfl
      rw [hk] at hfree
      cases hfree.2
    exact (Leaves.open he args hcount).shows hk hg hn hl hb
  | call e' c =>
    obtain ⟨k', hk', hc⟩ := Option.bind_eq_some_iff.1 hstep
    obtain ⟨⟨x, d''⟩, hcall, hx⟩ := Option.map_eq_some_iff.1 hc
    cases hx
    by_cases he : e' = e
    · subst he
      refine hs.call hk' hcall fun hr => ?_
      exact absurd (decide_eq_true ⟨rfl, hr⟩) (ne_true_of_eq_false ha)
    · refine (Leaves.call he hcall ?_).shows hk hg hn hl hb
      rintro rfl own' hg'
      -- it would have to be the reader of the channel that reads in place
      have hn' := call_mem hcall (Or.inr rfl)
      obtain ⟨-, g₁, own₁, l₁, -, hg₁, hl₁, -, hrole₁, -⟩ := h.held hk' hn'
      cases hg'.symm.trans hg₁
      cases hl.symm.trans hl₁
      exact he (Option.some.inj (hrole₁.symm.trans hrole))
  | drop e' =>
    obtain ⟨k', -, hx⟩ := Option.map_eq_some_iff.1 hstep
    have he : e' ≠ e := fun he => absurd (decide_eq_true he) (ne_true_of_eq_false ha)
    have hleft : d.Leaves (d.left fun e => e = e') e n g := .left (decide_eq_false he.symm)
    cases hx
    split
    · exact (hleft.trans (.unname ..)).shows hk hg hn hl hb
    · exact hleft.shows hk hg hn hl hb
  | unlink e' name =>
    simp only [Directory.step] at hstep
    split_ifs at hstep
    cases hstep
    exact (Leaves.unname d name).shows hk hg hn hl hb
  | crash pid =>
    cases hstep
    have hleft : d.Leaves (d.left fun e => (who e).val = pid) e n g := .left ha
    exact Leaves.shows ⟨hleft.desk, hleft.line⟩ hk hg hn hl hb

/-- Runs leave it alone. -/
theorem Shows.run (hs : d.Shows e n bytes) (h : d.Describes who S)
    {tr : List (ServiceAct E × ServiceAnswer)}
    (ht : Trace (fun S a b S' => S.orderlyStep who a = some (b, S')) S tr S')
    (htr : ∀ x ∈ tr, x.1.lets who e n = false) :
    ∃ d' : Directory E, d'.Describes who S' ∧ d'.Shows e n bytes := by
  induction ht with
  | nil => exact ⟨d, h, hs⟩
  | snoc _ hstep ih =>
    obtain ⟨d₁, h₁, hs₁⟩ := ih fun x hx => htr x (List.mem_append_left _ hx)
    obtain ⟨d₂, hd, h₂⟩ := h₁.orderly hstep
    exact ⟨d₂, h₂, hs₁.step h₁ hd (htr _ (List.mem_append_right _ (List.mem_singleton_self _)))⟩

/-- The first look. -/
theorem Describes.shown (h : d.Describes who S) {b : List UInt8}
    (hs : d.step who (.call e (.asBytes n)) = some (.called (.bytes b), d')) :
    d'.Shows e n b := by
  obtain ⟨k, hk, hc⟩ := Option.bind_eq_some_iff.1 hs
  obtain ⟨x, hcall, -⟩ := Option.map_eq_some_iff.1 hc
  have hn := call_mem hcall (Or.inl rfl)
  obtain ⟨-, g, own, l, bytes, hg, hl, -, -, hb⟩ := h.held hk hn
  have hshows : d.Shows e n bytes := ⟨k, g, own, l, hk, hg, hn, hl, hb⟩
  obtain ⟨d'', hs'⟩ := hshows.asBytes h
  cases hs.symm.trans hs'
  refine hshows.step h hs (decide_eq_false fun hr => ?_)
  exact PortCall.noConfusion hr.2

end Directory

/-- **A handle shows its entry as long as it is held**: once the end has looked at it, whatever
    is written, opened, taken over or unlinked and whoever else crashes, the next look is
    answered and shows the same bytes. -/
theorem held_bytes_kept [DecidableEq E] {who : E → Pid} {live : ℕ → Bool}
    {refuses : String → ℕ → Option String} {tr tr' : List (ServiceAct E × ServiceAnswer)}
    {S : Service E} {e : E} {n : ℕ} {b : List UInt8}
    (h : Trace (fun S a b S' => S.orderlyStep who a = some (b, S'))
      (.init { World.boot live with refuses })
      (tr ++ [(.call e (.asBytes n), .called (.bytes b))] ++ tr') S)
    (htr : ∀ x ∈ tr', x.1.lets who e n = false) (ha : S.Orderly (.call e (.asBytes n))) :
    (S.step who (.call e (.asBytes n))).map Prod.fst = some (.called (.bytes b)) := by
  obtain ⟨S₂, h, hafter⟩ := h.split
  obtain ⟨S₁, hbefore, hlook⟩ := h.split
  obtain ⟨d₁, -, hd₁⟩ := Directory.describes_run hbefore
  obtain ⟨d₂, hs₂, hd₂⟩ := hd₁.orderly (trace_single hlook)
  obtain ⟨d₃, hd₃, hshows⟩ := (hd₁.shown hs₂).run hd₂ hafter htr
  obtain ⟨d₄, hs₄⟩ := hshows.asBytes hd₃
  have hstep := hd₃.step ha
  rw [hs₄] at hstep
  generalize S.step who (.call e (.asBytes n)) = r at hstep ⊢
  cases hstep with
  | some hr => exact congrArg some hr.1

/-- The reader holds an entry while its writer crashes, another one takes over, goes round the
    ring and leaves with the name. -/
theorem held_bytes_kept_succession : ∃ (who : Fin 3 → Pid)
    (tr : List (ServiceAct (Fin 3) × ServiceAnswer)) (S : Service (Fin 3)),
    tr.map Prod.snd = [.opened (.ok true), .opened (.ok true), .called (.write (.ok ())),
      .called (.tryAcquire (.ok (some 1))), .called (.bytes (List.replicate 8 5)),
      .called (.write (.ok ())), .done, .opened (.ok true), .called (.write (.ok ())),
      .called (.write (.ok ())), .done] ∧
    Trace (fun S a b S' => S.orderlyStep who a = some (b, S'))
      (.init { World.boot (fun _ => true) with refuses := fun _ _ => none }) tr S ∧
    (S.step who (.call 0 (.asBytes 1))).map Prod.fst =
      some (.called (.bytes (List.replicate 8 5))) := by
  let who : Fin 3 → Pid := fun e => ⟨e.val + 7, by omega, by omega⟩
  let reader : OpenArgs := ⟨.reader true, "ch", none, none, .u8, true, by decide⟩
  let writer : OpenArgs := ⟨.writer, "ch", some 8, some 2, .u8, false, by decide⟩
  have hrun : ((record (Service.orderlyStep who)
      (.init { World.boot (fun _ => true) with refuses := fun _ _ => none })
      [.open 1 writer, .open 0 reader, .call 1 (.write (List.replicate 8 5)),
        .call 0 (.tryAcquire none)]).bind fun p =>
      (p.2.orderlyStep who (.call 0 (.asBytes 1))).bind fun q =>
        (record (Service.orderlyStep who) q.2 [.call 1 (.write (List.replicate 8 6)), .crash 8,
          .open 2 writer, .call 2 (.write (List.replicate 8 7)),
          .call 2 (.write (List.replicate 8 9)), .drop 2]).map fun r =>
            (p.1.map Prod.snd, q.1, r.1.map Prod.snd, r.1.all (fun x => !x.1.lets who 0 1),
              decide (r.2.Orderly (.call 0 (.asBytes 1))))) =
      some ([.opened (.ok true), .opened (.ok true), .called (.write (.ok ())),
        .called (.tryAcquire (.ok (some 1)))], .called (.bytes (List.replicate 8 5)),
        [.called (.write (.ok ())), .done, .opened (.ok true), .called (.write (.ok ())),
          .called (.write (.ok ())), .done], true, true) := by
    decide +kernel
  obtain ⟨⟨tr, S₁⟩, hbefore, hrun⟩ := Option.bind_eq_some_iff.1 hrun
  obtain ⟨⟨b, S₂⟩, hlook, hrun⟩ := Option.bind_eq_some_iff.1 hrun
  obtain ⟨⟨tr', S⟩, hafter, he⟩ := Option.map_eq_some_iff.1 hrun
  simp only [Prod.mk.injEq, List.all_eq_true, Bool.not_eq_true', decide_eq_true_eq] at he
  obtain ⟨hans, rfl, hans', htr, ha⟩ := he
  have htrace := ((trace_of_record hbefore).snoc hlook).append (trace_of_record hafter)
  refine ⟨who, _, S, ?_, htrace, held_bytes_kept htrace htr ha⟩
  simp only [List.map_append, hans, hans', List.map_cons, List.map_nil]
  rfl

end ZeroChannel
