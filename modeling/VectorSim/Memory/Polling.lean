/-
# Polling

A query applies the fills that are due, all those of one call in the order of
their lines. Polling earlier splits one such batch in two, so that a fill of a
greater line may come before one of a smaller line that is due later. That makes
no difference where the two lines are in different residue classes modulo the
set counts' greatest common divisor (`stride`): a fill is local to the sets of its
class (`fillInclusive_local`), and the polled hierarchy is the one that is not
(`polling_transparent`). Two lines of one set it leaves in the order of the polls
(`polling_reorders`).
-/
import VectorSim.Memory.Coverage
import VectorSim.Lib.Reorder
import Mathlib.Data.Int.ModEq

namespace VectorSim
namespace MemoryConfig

open Checked

variable {C : MemoryConfig} {s s' t : MemoryState} {now : ℕ}

/-! ### Fills change the sets alone -/

theorem touch_frame (level : ℕ) (line : ℤ) :
    (C.touch s level line).1 = { s with sets := (C.touch s level line).1.sets } := by
  rw [touch_eq]
  rfl

theorem removeAll_frame (line : ℤ) : ∀ (levels : List ℕ) (s : MemoryState),
    levels.foldl (fun s upper => C.remove s upper line) s =
      { s with sets := (levels.foldl (fun s upper => C.remove s upper line) s).sets }
  | [], _ => rfl
  | upper :: levels, s => by
    rw [List.foldl_cons, removeAll_frame line levels (C.remove s upper line)]
    rfl

theorem fillLevel_frame (line : ℤ) (level : ℕ) :
    C.fillLevel line s level = { s with sets := (C.fillLevel line s level).sets } := by
  unfold fillLevel
  dsimp only
  cases (C.touch s level line).2 with
  | none => exact touch_frame level line
  | some e =>
    refine (removeAll_frame e _ _).trans ?_
    rw [touch_frame]
    rfl

theorem fillLevels_frame (line : ℤ) : ∀ (levels : List ℕ) (s : MemoryState),
    levels.foldl (C.fillLevel line) s = { s with sets := (levels.foldl (C.fillLevel line) s).sets }
  | [], _ => rfl
  | level :: levels, s => by
    rw [List.foldl_cons, fillLevels_frame line levels (C.fillLevel line s level)]
    rw [fillLevel_frame]

theorem fillInclusive_frame (line : ℤ) :
    C.fillInclusive s line = { s with sets := (C.fillInclusive s line).sets } := fillLevels_frame line _ s

/-! ### Fills are local -/

/-- The greatest common divisor of the set counts. -/
def stride (C : MemoryConfig) : ℕ := (C.levels.map (·.setCount)).foldr Nat.gcd 0

/-- What the schema asks of the levels of a profile: there is one, and each has a set. -/
structure Sized (C : MemoryConfig) : Prop where
  levels : 0 < C.levels.length
  sets : ∀ l ∈ C.levels, 0 < l.setCount

theorem stride_dvd {l : CacheLevel} (hl : l ∈ C.levels) : C.stride ∣ l.setCount := by
  have key : ∀ ns : List ℕ, ∀ n ∈ ns, ns.foldr Nat.gcd 0 ∣ n := by
    intro ns
    induction ns with
    | nil => exact fun n hn => (List.not_mem_nil hn).elim
    | cons m ns ih =>
      intro n hn
      rw [List.foldr_cons]
      rcases List.mem_cons.mp hn with rfl | hn
      · exact Nat.gcd_dvd_left _ _
      · exact (Nat.gcd_dvd_right _ _).trans (ih n hn)
  exact key _ _ (List.mem_map_of_mem hl)

/-- The set of a line is in the residue class of the line. -/
theorem setIndex_modEq (hC : C.Sized) {level : ℕ} (hl : level < C.levels.length) (x : ℤ) :
    (C.setIndex level x : ℤ) ≡ x [ZMOD C.stride] := by
  obtain ⟨l, hget⟩ : ∃ l, C.levels[level]? = some l := ⟨_, List.getElem?_eq_getElem hl⟩
  have hmem := List.mem_of_getElem? hget
  have hpos : (0 : ℤ) < (l.setCount : ℤ) := Int.natCast_pos.mpr (hC.sets l hmem)
  unfold setIndex
  rw [hget]
  dsimp only [Option.map_some, Option.getD_some]
  rw [Int.toNat_of_nonneg (Int.emod_nonneg _ hpos.ne')]
  exact (Int.mod_modEq x l.setCount).of_dvd (Int.natCast_dvd_natCast.mpr (stride_dvd hmem))

/-- The sets of the residue class of a line. -/
def region (C : MemoryConfig) (line : ℤ) : Set (ℕ × ℕ) := {p | (p.2 : ℤ) ≡ line [ZMOD C.stride]}

/-- The sets of a state, as a function of level and index. -/
def view (s : MemoryState) (p : ℕ × ℕ) : List ℤ := s.sets p.1 p.2

theorem remove_local (hC : C.Sized) {line e : ℤ} (he : e ≡ line [ZMOD C.stride]) {level : ℕ}
    (hl : level < C.levels.length) :
    Reorder.Local view (Lawful C) (fun s => C.remove s level e) (C.region line) where
  keeps _ h := h.remove level e
  outside s _ p hp := by
    unfold view
    rw [remove_sets, if_neg]
    rintro ⟨-, hi⟩
    exact hp (by rw [region, Set.mem_ofPred_eq, hi]; exact (setIndex_modEq hC hl e).trans he)
  inside s t _ _ h p hp := by
    have hsame : s.sets p.1 p.2 = t.sets p.1 p.2 := h p hp
    unfold view
    rw [remove_sets, remove_sets, hsame]

theorem fillLevel_local (hC : C.Sized) (line : ℤ) {level : ℕ} (hl : level < C.levels.length) :
    Reorder.Local view (Lawful C) (fun s => C.fillLevel line s level) (C.region line) := by
  have hset : (level, C.setIndex level line) ∈ C.region line := setIndex_modEq hC hl line
  -- the evicted line shares the set of the one that is filled
  have hevict : ∀ s, Lawful C s → ∀ e, (C.touch s level line).2 = some e → e ≡ line [ZMOD C.stride] := by
    intro s hs e he
    rw [touch_eq] at he
    rcases Recency.evicted_mem he with rfl | hmem
    · exact Int.ModEq.refl _
    · have hi := hs.placed level _ e hmem
      have he := setIndex_modEq hC hl e
      rw [hi] at he
      exact he.symm.trans (setIndex_modEq hC hl line)
  have hupper : ∀ e, e ≡ line [ZMOD C.stride] →
      Reorder.Local view (Lawful C) (fun s => C.backInvalidate s level (some e)) (C.region line) := fun e he =>
    Reorder.Local.foldl fun k hk => remove_local hC he ((List.mem_range.mp hk).trans hl)
  refine ⟨fun s hs => hs.fillLevel line level, fun s hs p hp => ?_, fun s t hs ht h p hp => ?_⟩
  · have htouch : view (C.touch s level line).1 p = view s p := by
      unfold view
      rw [touch_sets, if_neg]
      rintro ⟨h1, h2⟩
      obtain rfl : p = (level, C.setIndex level line) := Prod.ext h1 h2
      exact hp hset
    unfold fillLevel
    dsimp only
    cases he : (C.touch s level line).2 with
    | none => exact htouch
    | some e => exact ((hupper e (hevict s hs e he)).outside _ (hs.touch level line) p hp).trans htouch
  · have hold : s.sets level (C.setIndex level line) = t.sets level (C.setIndex level line) := h _ hset
    have htouch : ∀ q ∈ C.region line, view (C.touch s level line).1 q = view (C.touch t level line).1 q := by
      intro q hq
      have hsame : s.sets q.1 q.2 = t.sets q.1 q.2 := h q hq
      unfold view
      rw [touch_sets, touch_sets, hold, hsame]
    have hev : (C.touch s level line).2 = (C.touch t level line).2 := by
      rw [touch_eq, touch_eq, hold]
    unfold fillLevel
    dsimp only
    rw [← hev]
    cases he : (C.touch s level line).2 with
    | none => exact htouch p hp
    | some e =>
      exact (hupper e (hevict s hs e he)).inside _ _ (hs.touch level line) (ht.touch level line) htouch p hp

/-- **A fill is local to the sets of its residue class.** -/
theorem fillInclusive_local (hC : C.Sized) (line : ℤ) :
    Reorder.Local view (Lawful C) (fun s => C.fillInclusive s line) (C.region line) :=
  Reorder.Local.foldl fun _ hk => fillLevel_local hC line (List.mem_range.mp hk)

/-- Fills of different residue classes may change places. -/
theorem fillInclusive_commute (hC : C.Sized) {x y : ℤ} (h : ¬ x ≡ y [ZMOD C.stride]) :
    Reorder.Commute (Lawful C) (C.fillInclusive) x y := by
  intro s hs
  have hdisjoint : Disjoint (C.region y) (C.region x) :=
    Set.disjoint_left.mpr fun p hp hq => h (Int.ModEq.trans (Int.ModEq.symm hq) hp)
  have hview := (fillInclusive_local hC y).comm (fillInclusive_local hC x) hdisjoint hs
  have hsets : (C.fillInclusive (C.fillInclusive s x) y).sets = (C.fillInclusive (C.fillInclusive s y) x).sets := by
    funext k i
    exact congrFun hview (k, i)
  rw [fillInclusive_frame (s := C.fillInclusive s x), fillInclusive_frame (s := C.fillInclusive s y), hsets,
    fillInclusive_frame (s := s) x, fillInclusive_frame (s := s) y]

/-! ### Two batches of fills -/

/-- The lines of the fills that are due. -/
def dueLines (s : MemoryState) (now : ℕ) : List ℤ := (s.pendingFills.filter fun f => f.2.1 ≤ now).map (·.1)

theorem foldl_sets {α : Type} {f : MemoryState → α → MemoryState}
    (hf : ∀ s s' x, s'.sets = s.sets → (f s' x).sets = (f s x).sets) : ∀ (xs : List α) {s s' : MemoryState},
      s'.sets = s.sets → (xs.foldl f s').sets = (xs.foldl f s).sets
  | [], _, _, h => h
  | x :: xs, s, s', h => foldl_sets hf xs (hf s s' x h)

theorem fillLevel_sets (line : ℤ) (level : ℕ) (s s' : MemoryState) (h : s'.sets = s.sets) :
    (C.fillLevel line s' level).sets = (C.fillLevel line s level).sets := by
  have htouch : (C.touch s' level line).1.sets = (C.touch s level line).1.sets := by
    funext k i
    rw [touch_sets, touch_sets, h]
  have hev : (C.touch s' level line).2 = (C.touch s level line).2 := by
    rw [touch_eq, touch_eq, h]
  unfold fillLevel
  dsimp only
  rw [hev]
  cases (C.touch s level line).2 with
  | none => exact htouch
  | some e =>
    refine foldl_sets (fun s s' k hs => ?_) (List.range level) htouch
    funext j i
    rw [remove_sets, remove_sets, hs]

theorem fillInclusive_sets (line : ℤ) (h : s'.sets = s.sets) :
    (C.fillInclusive s' line).sets = (C.fillInclusive s line).sets :=
  foldl_sets (fun s s' k => fillLevel_sets line k s s') _ h

/-- Fills change the sets alone and depend on them alone. -/
theorem fills_frame : ∀ (ls : List ℤ) (s : MemoryState),
    ls.foldl C.fillInclusive s = { s with sets := (ls.foldl C.fillInclusive s).sets }
  | [], _ => rfl
  | line :: ls, s => by
    rw [List.foldl_cons, fills_frame ls (C.fillInclusive s line)]
    rw [fillInclusive_frame]

theorem completeFills_eq (s : MemoryState) (now : ℕ) : C.completeFills s now =
    { s with
      sets := ((dueLines s now).insertionSort (· ≤ ·) |>.foldl C.fillInclusive s).sets
      pendingFills := s.pendingFills.filter fun f => ¬ f.2.1 ≤ now } := by
  have hsort : (dueLines s now).insertionSort (· ≤ ·) =
      ((s.pendingFills.filter fun f => f.2.1 ≤ now).insertionSort fun a b => a.1 ≤ b.1).map (·.1) :=
    (List.map_insertionSort (fun a b : ℤ × ℕ × ℕ => a.1 ≤ b.1) (· ≤ ·) (·.1) _ fun _ _ _ _ => Iff.rfl).symm
  have hfold : ((dueLines s now).insertionSort (· ≤ ·)).foldl C.fillInclusive s =
      ((s.pendingFills.filter fun f => f.2.1 ≤ now).insertionSort fun a b => a.1 ≤ b.1).foldl
        (fun s f => C.fillInclusive s f.1) s := by
    rw [hsort, List.foldl_map]
  unfold completeFills
  dsimp only
  rw [← hfold, fills_frame]

/-- The fills that are due by one tick and those due between it and another. -/
theorem dueLines_split {t₁ t₂ : ℕ} (h : t₁ ≤ t₂) :
    (dueLines s t₂).Perm (dueLines s t₁ ++ dueLines (C.completeFills s t₁) t₂) := by
  unfold dueLines
  rw [← List.map_append]
  refine List.Perm.map _ ?_
  rw [completeFills_eq]
  dsimp only
  rw [List.filter_filter]
  have hsplit := (List.filter_append_perm (fun f : ℤ × ℕ × ℕ => f.2.1 ≤ t₁)
    (s.pendingFills.filter fun f => f.2.1 ≤ t₂)).symm
  rw [List.filter_filter, List.filter_filter] at hsplit
  refine hsplit.trans (List.Perm.append (List.Perm.of_eq ?_) (List.Perm.of_eq ?_))
  · refine List.filter_congr fun f _ => ?_
    rw [Bool.eq_iff_iff]
    simp only [Bool.and_eq_true, decide_eq_true_eq]
    omega
  · refine List.filter_congr fun f _ => ?_
    rw [Bool.eq_iff_iff]
    simp only [Bool.and_eq_true, decide_eq_true_eq, Bool.not_eq_true', decide_eq_false_iff_not]
    omega

/-- No fill due by `t₁` has a greater line than one that is due after it and by `t₂`, in the
same residue class. -/
def InLineOrder (C : MemoryConfig) (s : MemoryState) (t₁ t₂ : ℕ) : Prop :=
  ∀ f ∈ s.pendingFills, f.2.1 ≤ t₁ → ∀ g ∈ s.pendingFills, t₁ < g.2.1 → g.2.1 ≤ t₂ → g.1 < f.1 →
    ¬ f.1 ≡ g.1 [ZMOD C.stride]

theorem completeFills_twice_pending (s : MemoryState) {t₁ t₂ : ℕ} (h : t₁ ≤ t₂) :
    (C.completeFills (C.completeFills s t₁) t₂).pendingFills = (C.completeFills s t₂).pendingFills := by
  show (s.pendingFills.filter _).filter _ = s.pendingFills.filter _
  rw [List.filter_filter]
  refine List.filter_congr fun f _ => ?_
  rw [Bool.eq_iff_iff]
  simp only [Bool.and_eq_true, decide_eq_true_eq]
  omega

/-- **Two batches of fills leave what one leaves.** -/
theorem completeFills_twice (hC : C.Sized) (hs : Lawful C s) {t₁ t₂ : ℕ} (h : t₁ ≤ t₂)
    (horder : InLineOrder C s t₁ t₂) :
    C.completeFills (C.completeFills s t₁) t₂ = C.completeFills s t₂ := by
  have hpending := completeFills_twice_pending (C := C) s h
  have hcommute : ∀ x ∈ dueLines s t₁, ∀ y ∈ dueLines (C.completeFills s t₁) t₂, y < x →
      Reorder.Commute (Lawful C) C.fillInclusive x y := fun x hx y hy hlt => by
      obtain ⟨f, hf, rfl⟩ := List.mem_map.mp hx
      obtain ⟨g, hg, rfl⟩ := List.mem_map.mp hy
      obtain ⟨hf, hdue⟩ := List.mem_filter.mp hf
      obtain ⟨hg, hdue'⟩ := List.mem_filter.mp hg
      have hlater := completeFills_pending g hg
      have hg : g ∈ s.pendingFills := List.mem_of_mem_filter hg
      exact fillInclusive_commute hC (horder f hf (by simpa using hdue) g hg hlater (by simpa using hdue') hlt)
  have hkeeps : ∀ s x, Lawful C s → Lawful C (C.fillInclusive s x) := fun _ x hs => hs.fillInclusive x
  have hbatch := Reorder.foldl_sort_append hkeeps hs hcommute
  rw [← Reorder.sort_congr (dueLines_split h)] at hbatch
  have hsets : (C.completeFills (C.completeFills s t₁) t₂).sets = (C.completeFills s t₂).sets := by
    rw [completeFills_eq, completeFills_eq s t₂]
    dsimp only
    rw [hbatch]
    refine foldl_sets (fun s s' x => fillInclusive_sets x) _ ?_
    rw [completeFills_eq]
  rw [completeFills_eq] at hsets hpending ⊢
  rw [completeFills_eq s t₂] at hsets hpending ⊢
  dsimp only at hsets hpending
  rw [hsets, hpending, completeFills_eq]

/-! ### Queries -/

theorem SameLines.completeFills (h : SameLines s s') (now : ℕ) :
    SameLines (C.completeFills s now) (C.completeFills s' now) := by
  have hdue : dueLines s' now = dueLines s now := by
    unfold dueLines
    rw [h.pendingFills]
  rw [completeFills_eq, completeFills_eq, hdue, h.pendingFills]
  exact ⟨foldl_sets (fun _ _ x => fillInclusive_sets x) _ h.sets, rfl⟩

/-- What a query shows: the sets in their order of use, the fills on their way, and its answer. -/
def seen {α : Type} (r : MemoryState × α) : (ℕ → ℕ → List ℤ) × List (ℤ × ℕ × ℕ) × α :=
  (r.1.sets, r.1.pendingFills, r.2)

/-- States that answer alike from a tick on: they may differ in requests that have finished. -/
structure Alike (now : ℕ) (s s' : MemoryState) : Prop where
  lines : SameLines s s'
  bandwidthFree : s'.bandwidthFree = s.bandwidthFree
  outstanding : ∀ l, (s'.outstanding l).filter (now < ·) = (s.outstanding l).filter (now < ·)

theorem outstandingBlocker_alike : ∀ (ls : List ℕ) {s s' : MemoryState}, Alike now s s' →
    seen <$> C.outstandingBlocker now ls s' = seen <$> C.outstandingBlocker now ls s
  | [], s, s', h => by
    show Except.ok (seen (s', _)) = Except.ok (seen (s, _))
    unfold seen
    rw [h.lines.sets, h.lines.pendingFills]
  | l :: ls, s, s', h => by
    unfold outstandingBlocker
    dsimp only
    rw [h.outstanding l]
    cases C.outstandingLimit l with
    | error e => rfl
    | ok limit =>
      dsimp only [Bind.bind, Except.bind]
      split
      · split
        · show Except.ok (seen _) = Except.ok (seen _)
          unfold seen
          dsimp only
          rw [h.lines.sets, h.lines.pendingFills]
        · rfl
      · refine outstandingBlocker_alike ls ⟨⟨h.lines.sets, h.lines.pendingFills⟩, h.bandwidthFree, fun k => ?_⟩
        by_cases hk : k = l
        · subst hk
          simp
        · simp only [Function.update_of_ne hk]
          exact h.outstanding k

theorem worstLevel_same (h : SameLines s s') (lines : List ℤ) : C.worstLevel s' lines = C.worstLevel s lines := by
  unfold worstLevel lineLevel contains
  rw [h.sets, h.pendingFills]

theorem peekLevel_alike (m : Option MemoryAccess)
    (h : SameLines (C.completeFills s now) (C.completeFills s' now)) :
    seen <$> C.peekLevel s' m now = seen <$> C.peekLevel s m now := by
  cases m with
  | none => rfl
  | some a =>
    show Except.ok (seen _) = Except.ok (seen _)
    unfold seen
    dsimp only
    rw [worstLevel_same h, h.sets, h.pendingFills]

theorem blocker_alike (m : Option MemoryAccess)
    (h : Alike now (C.completeFills s now) (C.completeFills s' now)) :
    seen <$> C.blocker s' m now = seen <$> C.blocker s m now := by
  cases m with
  | none => rfl
  | some a =>
    have hpend : hasPending (C.completeFills s' now) a.cacheLines =
        hasPending (C.completeFills s now) a.cacheLines := by
      unfold hasPending
      rw [h.lines.pendingFills]
    unfold blocker peekLevel
    dsimp only [Bind.bind, Except.bind]
    rw [hpend, worstLevel_same h.lines, h.bandwidthFree]
    split
    · show Except.ok (seen _) = Except.ok (seen _)
      unfold seen
      rw [h.lines.sets, h.lines.pendingFills]
    · split
      · show Except.ok (seen _) = Except.ok (seen _)
        unfold seen
        rw [h.lines.sets, h.lines.pendingFills]
      · exact outstandingBlocker_alike _ h

theorem outstandingBlocker_drops : ∀ {ls : List ℕ} {s : MemoryState}
    {r : MemoryState × Option (MemoryStall × ℕ)}, C.outstandingBlocker now ls s = .ok r →
      r.1.bandwidthFree = s.bandwidthFree ∧
        ∀ l, (r.1.outstanding l).filter (now < ·) = (s.outstanding l).filter (now < ·)
  | [], _, _, h => by cases h; exact ⟨rfl, fun _ => rfl⟩
  | l :: ls, s, r, h => by
    have hupdate : ∀ k, ((Function.update s.outstanding l ((s.outstanding l).filter (now < ·))) k).filter
        (now < ·) = (s.outstanding k).filter (now < ·) := by
      intro k
      by_cases hk : k = l
      · subst hk; simp
      · rw [Function.update_of_ne hk]
    obtain ⟨limit, -, h⟩ := ok_bind.mp h
    split at h
    · split at h
      · cases h; exact ⟨rfl, hupdate⟩
      · cases h
    · obtain ⟨hfree, hout⟩ := outstandingBlocker_drops h
      exact ⟨hfree, fun k => (hout k).trans (hupdate k)⟩

/-- A poll of the hierarchy at a tick. -/
def Polls (C : MemoryConfig) (s : MemoryState) (m : Option MemoryAccess) (now : ℕ) (s' : MemoryState) : Prop :=
  C.call s (.peekLevel m now) = .ok s' ∨ C.call s (.blocker m now) = .ok s'

/-- A poll applies the fills that are due and forgets requests that have finished. -/
theorem Polls.alike {m : Option MemoryAccess} (h : Polls C s m now s') :
    Alike now (C.completeFills s now) s' := by
  rcases h with h | h
  · obtain ⟨r, hr, rfl⟩ := ok_map.mp h
    cases m with
    | none => cases hr
    | some a => cases hr; exact ⟨.refl, rfl, fun _ => rfl⟩
  · obtain ⟨r, hr, rfl⟩ := ok_map.mp h
    suffices hrest : r.1.bandwidthFree = (C.completeFills s now).bandwidthFree ∧ ∀ l,
        (r.1.outstanding l).filter (now < ·) = ((C.completeFills s now).outstanding l).filter (now < ·) from
      ⟨blocker_same hr, hrest.1, hrest.2⟩
    cases m with
    | none => cases hr
    | some a =>
      obtain ⟨⟨t, level⟩, ht, hr⟩ := ok_bind.mp hr
      cases ht
      dsimp only at hr
      split at hr
      · cases hr; exact ⟨rfl, fun _ => rfl⟩
      · split at hr
        · cases hr; exact ⟨rfl, fun _ => rfl⟩
        · exact outstandingBlocker_drops hr

theorem Alike.later {t₁ t₂ : ℕ} (h : Alike t₁ s s') (hle : t₁ ≤ t₂) : Alike t₂ s s' := by
  refine ⟨h.lines, h.bandwidthFree, fun l => ?_⟩
  have hdrop : ∀ ticks : List ℕ, ticks.filter (t₂ < ·) = (ticks.filter (t₁ < ·)).filter (t₂ < ·) := by
    intro ticks
    rw [List.filter_filter]
    refine List.filter_congr fun t _ => ?_
    rw [Bool.eq_iff_iff]
    simp only [Bool.and_eq_true, decide_eq_true_eq]
    omega
  rw [hdrop, h.outstanding l, ← hdrop]

/-- **Polling is transparent** to the fills on their way, and to the lines in their order of
use and every later answer where the fills that come due in between keep the line order. -/
theorem polling_transparent (C : MemoryConfig) (hC : C.Sized) (mode : CacheMode) (lines : List ℤ)
    (s : MemoryState) (h : Reachable C mode lines s) (t₁ t₂ : ℕ) (hle : t₁ ≤ t₂)
    (m₁ m : Option MemoryAccess) (s₁ : MemoryState) (hpoll : Polls C s m₁ t₁ s₁) :
    (∀ r₁ r, Polls C s₁ m t₂ r₁ → Polls C s m t₂ r → r₁.pendingFills = r.pendingFills) ∧
    (InLineOrder C s t₁ t₂ →
      seen <$> C.peekLevel s₁ m t₂ = seen <$> C.peekLevel s m t₂ ∧
      seen <$> C.blocker s₁ m t₂ = seen <$> C.blocker s m t₂) := by
  have halike := hpoll.alike
  have hlines := halike.lines.completeFills (C := C) t₂
  constructor
  · intro r₁ r h₁ h₂
    rw [h₁.alike.lines.pendingFills, h₂.alike.lines.pendingFills, hlines.pendingFills]
    exact completeFills_twice_pending s hle
  · intro horder
    have htwice := completeFills_twice hC h.lawful hle horder
    rw [htwice] at hlines
    refine ⟨peekLevel_alike m hlines, blocker_alike m ⟨hlines, ?_, fun l => ?_⟩⟩
    · rw [completeFills_eq, completeFills_eq]
      exact halike.bandwidthFree.trans (by rw [completeFills_eq])
    · have hout := (halike.later hle).outstanding l
      rw [completeFills_eq] at hout
      rw [completeFills_eq, completeFills_eq]
      exact hout

end MemoryConfig

/-! ### Two fills of one set -/

namespace Sample

/-- One line of L1 over a DRAM of ten ticks. -/
def oneLine : MemoryConfig where
  levels := [{ latencyTicks := some 1, readBytesPerCycle := some 8, writeBytesPerCycle := some 8,
               maxOutstanding := some 4, ways := 1, setCount := 1 }]
  dram := ⟨some 10, some 8, some 8, some 4⟩
  ticksPerCycle := 1

end Sample

open MemoryConfig in
/-- Loads of line 2 and, a tick later, of line 5 come due at ticks 10 and 11, in the order of the lines. -/
theorem polling_sample : ∃ s s₁, Reachable Sample.oneLine .cold [] s ∧
    s.pendingFills = [(2, 10, 1), (5, 11, 1)] ∧ Polls Sample.oneLine s (some (Sample.load [2])) 10 s₁ ∧
    (∀ r₁ r, Polls Sample.oneLine s₁ (some (Sample.load [5])) 11 r₁ → Polls Sample.oneLine s (some (Sample.load [5])) 11 r →
      r₁.pendingFills = r.pendingFills) ∧
    seen <$> Sample.oneLine.peekLevel s₁ (some (Sample.load [5])) 11 =
      seen <$> Sample.oneLine.peekLevel s (some (Sample.load [5])) 11 ∧
    seen <$> Sample.oneLine.blocker s₁ (some (Sample.load [5])) 11 =
      seen <$> Sample.oneLine.blocker s (some (Sample.load [5])) 11 := by
  have hC : Sample.oneLine.Sized := ⟨by decide, by decide⟩
  have hrun : (Sample.oneLine.call empty (.access (some (Sample.load [2])) 0) >>= fun s =>
      Sample.oneLine.call s (.access (some (Sample.load [5])) 1) >>= fun s =>
        (fun _ => s.pendingFills) <$> Sample.oneLine.call s (.blocker (some (Sample.load [2])) 10)).toOption =
      some [(2, 10, 1), (5, 11, 1)] := by decide +kernel
  obtain ⟨s₀, h₀, hrun⟩ := Checked.ok_bind.mp (Checked.toOption_ok.mp hrun)
  obtain ⟨s, h, hrun⟩ := Checked.ok_bind.mp hrun
  obtain ⟨s₁, hpoll, hfills⟩ := Checked.ok_map.mp hrun
  have hreach : Reachable Sample.oneLine .cold [] s := ⟨empty, rfl, .call (.call .refl trivial h₀) trivial h⟩
  have horder : InLineOrder Sample.oneLine s 10 11 := by
    intro f hf hdue g hg hlater _ hlt
    rw [hfills] at hf hg
    simp only [List.mem_cons, List.not_mem_nil, or_false] at hf hg
    rcases hf with rfl | rfl
    · rcases hg with rfl | rfl <;> simp at hlt hlater
    · simp at hdue
  obtain ⟨hpending, hanswers⟩ :=
    polling_transparent Sample.oneLine hC .cold [] s hreach 10 11 (by decide) _ (some (Sample.load [5])) s₁ (.inr hpoll)
  exact ⟨s, s₁, hreach, hfills, .inr hpoll, hpending, hanswers horder⟩

open MemoryConfig in
/-- Loads of line 5 and, a tick later, of line 2 come due at ticks 10 and 11. Polled at both,
line 2 stays in the set; polled at the second alone, line 5 does. -/
theorem polling_reorders : ∃ s s₁, Reachable Sample.oneLine .cold [] s ∧
    Polls Sample.oneLine s (some (Sample.load [2])) 10 s₁ ∧
    (·.2) <$> Sample.oneLine.peekLevel s₁ (some (Sample.load [2])) 11 = .ok 0 ∧
    (·.2) <$> Sample.oneLine.peekLevel s (some (Sample.load [2])) 11 = .ok 1 := by
  have hrun : (Sample.oneLine.call empty (.access (some (Sample.load [5])) 0) >>= fun s =>
      Sample.oneLine.call s (.access (some (Sample.load [2])) 1) >>= fun s =>
        Sample.oneLine.call s (.peekLevel (some (Sample.load [2])) 10) >>= fun s₁ =>
          Sample.oneLine.peekLevel s₁ (some (Sample.load [2])) 11 >>= fun r₁ =>
            (fun r => (r₁.2, r.2)) <$> Sample.oneLine.peekLevel s (some (Sample.load [2])) 11).toOption =
        some (0, 1) := by decide +kernel
  obtain ⟨s₀, h₀, hrun⟩ := Checked.ok_bind.mp (Checked.toOption_ok.mp hrun)
  obtain ⟨s, h, hrun⟩ := Checked.ok_bind.mp hrun
  obtain ⟨s₁, hpoll, hrun⟩ := Checked.ok_bind.mp hrun
  obtain ⟨r₁, hr₁, hrun⟩ := Checked.ok_bind.mp hrun
  obtain ⟨r, hr, hanswers⟩ := Checked.ok_map.mp hrun
  obtain ⟨ha₁, ha⟩ := Prod.mk.inj hanswers
  refine ⟨s, s₁, ⟨empty, rfl, .call (.call .refl trivial h₀) trivial h⟩, .inl hpoll, ?_, ?_⟩
  · rw [hr₁]
    exact congrArg Except.ok ha₁
  · rw [hr]
    exact congrArg Except.ok ha

end VectorSim
