/-
# Inclusion

A fill brings its line into every level and takes what a level evicts from the
levels above it, so the calls of a hierarchy keep it inclusive (`Inclusive.call`).
The warming of the initial state touches the levels below the warmed one without
asking whether they can hold the working set, and takes nothing from the levels
above them: a hierarchy is inclusive in all its states exactly where they can
(`reachable_inclusive_iff`), which a lower level of more sets and fewer ways need
not (`warmed_not_inclusive`).
-/
import VectorSim.Memory.History

namespace VectorSim
namespace MemoryConfig

open Checked

variable {C : MemoryConfig} {s s' : MemoryState} {now target : ℕ} {lines : List ℤ}

/-- The lines of each level are lines of the next. -/
def Inclusive (C : MemoryConfig) (s : MemoryState) : Prop :=
  ∀ level, level + 1 < C.levels.length → ∀ x, C.contains s level x = true → C.contains s (level + 1) x = true

/-! ### Fills -/

/-- Inclusion while a fill is under way: the line is in the levels filled so far, and may be
in the last of them alone. -/
def InclusiveBut (C : MemoryConfig) (line : ℤ) (filled : ℕ) (s : MemoryState) : Prop :=
  ∀ level, level + 1 < C.levels.length → ∀ x, C.contains s level x = true →
    C.contains s (level + 1) x = true ∨ x = line ∧ level + 1 = filled

theorem contains_fillLevel (h : Lawful C s) (line : ℤ) (level k : ℕ) (x : ℤ) :
    C.contains (C.fillLevel line s level) k x = true ↔
      (if k = level then x = line ∨ C.contains s k x = true else C.contains s k x = true) ∧
        (k ≤ level → (C.touch s level line).2 ≠ some x) := by
  unfold fillLevel
  dsimp only
  rw [contains_backInvalidate (h.touch level line), contains_touch h]
  by_cases hk : k = level
  · subst hk
    simp
  · rw [if_neg hk, if_neg hk, and_congr_right_iff]
    intro _
    constructor
    · exact fun hn hle he => hn ⟨by omega, he⟩
    · exact fun hn ⟨hlt, he⟩ => hn hlt.le he

theorem InclusiveBut.fillLevel {line : ℤ} {level : ℕ} (h : Lawful C s) (hs : InclusiveBut C line level s) :
    InclusiveBut C line (level + 1) (C.fillLevel line s level) := by
  intro k hk x hx
  rw [contains_fillLevel h] at hx ⊢
  obtain ⟨hin, hev⟩ := hx
  by_cases hlevel : k = level
  · -- the level just filled may be ahead of the next
    subst hlevel
    rw [if_pos rfl] at hin
    rw [if_neg (Nat.succ_ne_self k)]
    rcases hin with rfl | hin
    · exact .inr ⟨rfl, rfl⟩
    · rcases hs k hk x hin with hnext | ⟨rfl, -⟩
      · exact .inl ⟨hnext, fun hle => absurd hle (by omega)⟩
      · exact .inr ⟨rfl, rfl⟩
  · rw [if_neg hlevel] at hin
    left
    rcases hs k hk x hin with hnext | ⟨rfl, he⟩
    · refine ⟨?_, fun hle => hev (by omega)⟩
      split
      · exact .inr hnext
      · exact hnext
    · rw [if_pos he]
      exact ⟨.inl rfl, fun hle => hev (by omega)⟩

/-- The invariant of a fill, level by level. -/
theorem inclusiveBut_levels (line : ℤ) (h : Lawful C s) (hs : Inclusive C s) : ∀ n : ℕ,
    Lawful C ((List.range n).foldl (C.fillLevel line) s) ∧
      InclusiveBut C line n ((List.range n).foldl (C.fillLevel line) s)
  | 0 => ⟨h, fun k hk x hx => .inl (hs k hk x hx)⟩
  | n + 1 => by
    obtain ⟨hl, hi⟩ := inclusiveBut_levels line h hs n
    rw [List.range_succ, List.foldl_append]
    exact ⟨hl.fillLevel line n, hi.fillLevel hl⟩

/-- **A fill keeps the hierarchy inclusive.** -/
theorem Inclusive.fillInclusive (h : Lawful C s) (hs : Inclusive C s) (line : ℤ) :
    Inclusive C (C.fillInclusive s line) := by
  intro k hk x hx
  rcases (inclusiveBut_levels line h hs C.levels.length).2 k hk x hx with hnext | ⟨-, he⟩
  · exact hnext
  · omega

theorem Inclusive.fills : ∀ (fs : List (ℤ × ℕ × ℕ)) {s : MemoryState}, Lawful C s → Inclusive C s →
    Inclusive C (fs.foldl (fun s f => C.fillInclusive s f.1) s)
  | [], _, _, h => h
  | f :: fs, _, hl, h => Inclusive.fills fs (hl.fillInclusive f.1) (h.fillInclusive hl f.1)

theorem Inclusive.congr (hs : Inclusive C s) (h : ∀ k x, C.contains s' k x = true ↔ C.contains s k x = true) :
    Inclusive C s' := by
  intro k hk x hx
  rw [h] at hx ⊢
  exact hs k hk x hx

theorem contains_congr (h : s'.sets = s.sets) (k : ℕ) (x : ℤ) : C.contains s' k x = C.contains s k x := by
  unfold contains
  rw [h]

/-- A hit in L1 moves no line. -/
theorem contains_requestLines (h : Lawful C s) (hin : ∀ x ∈ lines, C.contains s 0 x = true)
    (hs : s'.sets = s.sets) (completion k : ℕ) (x : ℤ) :
    C.contains (C.requestLines s' 0 completion lines) k x = true ↔ C.contains s k x = true := by
  rw [requestLines_hit, contains_congr (touchLines_sets lines hs)]
  exact contains_touchLines lines h hin k x

theorem Inclusive.completeFills (h : Lawful C s) (hs : Inclusive C s) (now : ℕ) :
    Inclusive C (C.completeFills s now) :=
  (Inclusive.fills _ h hs).congr fun k x => by rw [contains_congr]; rfl

/-- **Every call does.** -/
theorem Inclusive.call {c : Call} (h : Lawful C s) (hs : Inclusive C s) (hc : C.call s c = .ok s') :
    Inclusive C s' := by
  obtain ⟨now, hsame | ⟨a, -, hp, hreq⟩⟩ := call_cases hc
  · exact (hs.completeFills h now).congr fun k x => by rw [contains_congr hsame.sets]
  · have hcomplete := hs.completeFills h now
    cases hreq with
    | miss _ _ sets _ => exact hcomplete.congr fun k x => by rw [contains_congr sets]
    | hit level sets _ =>
      rcases Nat.eq_zero_or_pos C.levels.length with hzero | hpos
      · intro k hk
        omega
      · have hin := contains_of_hit hpos hp level
        refine hcomplete.congr fun k x => ?_
        rw [contains_congr sets]
        exact contains_touchLines _ (h.completeFills now) hin k x

/-! ### Warming -/

/-- How a set changes when lines are touched one after the other. -/
def warmSet (C : MemoryConfig) (level i : ℕ) (lines : List ℤ) (set : List ℤ) : List ℤ :=
  lines.foldl (fun set line =>
    if C.setIndex level line = i then (Recency.touch (C.ways level) line set).1 else set) set

/-- A line is touched in each level of a list. -/
theorem touchLevels_sets (line : ℤ) (level i : ℕ) : ∀ (levels : List ℕ) (s : MemoryState), levels.Nodup →
    (levels.foldl (fun s l => (C.touch s l line).1) s).sets level i =
      if level ∈ levels ∧ C.setIndex level line = i then
        (Recency.touch (C.ways level) line (s.sets level i)).1
      else s.sets level i
  | [], s, _ => by simp
  | l :: levels, s, hn => by
    obtain ⟨hnot, hn⟩ := List.nodup_cons.mp hn
    rw [List.foldl_cons, touchLevels_sets line level i levels _ hn, touch_sets]
    by_cases hl : level = l
    · subst hl
      rw [if_neg fun h => hnot h.1]
      by_cases hi : C.setIndex level line = i
      · subst hi
        rw [if_pos ⟨rfl, rfl⟩, if_pos ⟨List.mem_cons_self, rfl⟩]
      · rw [if_neg fun h => hi h.2.symm, if_neg fun h => hi h.2]
    · rw [if_neg fun h : level = l ∧ _ => hl h.1]
      simp only [List.mem_cons, hl, false_or]

theorem warm_sets_fold (level i : ℕ) : ∀ (ls : List ℤ) (s : MemoryState),
    (ls.foldl (fun s line => (List.range' target (C.levels.length - target)).foldl
        (fun s l => (C.touch s l line).1) s) s).sets level i =
      if target ≤ level ∧ level < C.levels.length then C.warmSet level i ls (s.sets level i)
      else s.sets level i
  | [], s => by simp [warmSet]
  | line :: ls, s => by
    rw [List.foldl_cons, warm_sets_fold level i ls, touchLevels_sets _ _ _ _ _ List.nodup_range']
    have hmem : level ∈ List.range' target (C.levels.length - target) ↔
        target ≤ level ∧ level < C.levels.length := by
      rw [List.mem_range'_1]
      omega
    simp only [hmem]
    by_cases hl : target ≤ level ∧ level < C.levels.length
    · rw [if_pos hl, if_pos hl]
      unfold warmSet
      rw [List.foldl_cons]
      by_cases hi : C.setIndex level line = i
      · rw [if_pos ⟨hl, hi⟩, if_pos hi]
      · rw [if_neg fun h => hi h.2, if_neg hi]
    · rw [if_neg hl, if_neg hl, if_neg fun h => hl h.1]

/-- The sets of the warmed hierarchy. -/
theorem warm_sets (level i : ℕ) : (C.warm target lines).sets level i =
    if target ≤ level ∧ level < C.levels.length then
      C.warmSet level i (lines.insertionSort (· ≤ ·)) []
    else [] := warm_sets_fold level i _ empty

theorem canHold_iff {level : ℕ} : C.canHold level lines = true ↔
    ∀ i, (lines.filter fun x => C.setIndex level x = i).length ≤ C.ways level := by
  unfold canHold
  rw [List.all_eq_true]
  constructor
  · intro h i
    by_cases hi : ∃ x ∈ lines, C.setIndex level x = i
    · obtain ⟨x, hx, rfl⟩ := hi
      simpa using h x hx
    · rw [List.filter_eq_nil_iff.mpr fun x hx => by simpa using fun he => hi ⟨x, hx, he⟩]
      exact Nat.zero_le _
  · intro h x _
    simpa using h (C.setIndex level x)

/-- A set that can hold its lines keeps them in the order of the touches. -/
theorem warmSet_room {level i : ℕ} : ∀ (rest before : List ℤ), (before ++ rest).Nodup →
    ((before ++ rest).filter fun x => C.setIndex level x = i).length ≤ C.ways level →
    C.warmSet level i rest (before.filter fun x => C.setIndex level x = i) =
      (before ++ rest).filter fun x => C.setIndex level x = i
  | [], before, _, _ => by simp [warmSet]
  | line :: rest, before, hn, hw => by
    have hsplit : before ++ line :: rest = (before ++ [line]) ++ rest := by simp
    rw [hsplit] at hn hw ⊢
    rw [← warmSet_room rest (before ++ [line]) hn hw]
    unfold warmSet
    rw [List.foldl_cons]
    congr 1
    rw [List.filter_append]
    by_cases hi : C.setIndex level line = i
    · rw [if_pos hi, Recency.touch_room]
      · simp [hi]
      · intro hmem
        have hmem := List.mem_of_mem_filter hmem
        exact (List.nodup_append.mp (List.nodup_append.mp hn).1).2.2 line hmem line (by simp) rfl
      · rw [List.filter_append, List.filter_append, List.length_append, List.length_append] at hw
        have hone : ([line].filter fun x => C.setIndex level x = i).length = 1 := by simp [hi]
        omega
    · rw [if_neg hi]
      simp [hi]

/-- **A level that can hold the working set holds it once it is warmed.** -/
theorem contains_warm {level : ℕ} (hn : lines.Nodup) (h : C.canHold level lines = true) (htarget : target ≤ level)
    (hlevel : level < C.levels.length) (x : ℤ) : C.contains (C.warm target lines) level x = true ↔ x ∈ lines := by
  have hperm := lines.perm_insertionSort (· ≤ ·)
  have hfit : ((lines.insertionSort (· ≤ ·)).filter fun y => C.setIndex level y = C.setIndex level x).length ≤
      C.ways level := by
    rw [(hperm.filter _).length_eq]
    exact canHold_iff.mp h _
  rw [contains_iff, warm_sets, if_pos ⟨htarget, hlevel⟩]
  have hroom := warmSet_room (lines.insertionSort (· ≤ ·)) [] (hperm.nodup_iff.mpr hn) hfit
  rw [List.filter_nil, List.nil_append] at hroom
  rw [hroom, List.mem_filter, hperm.mem_iff]
  simp

theorem not_contains_warm {level : ℕ} (h : ¬ (target ≤ level ∧ level < C.levels.length)) (x : ℤ) :
    C.contains (C.warm target lines) level x = false := by
  rw [Bool.eq_false_iff, ne_eq, contains_iff, warm_sets, if_neg h]
  exact List.not_mem_nil

/-- A warmed hierarchy is inclusive where the levels below the warmed one can hold the
working set. -/
theorem warm_inclusive_iff (hn : lines.Nodup) (htarget : C.canHold target lines = true) :
    Inclusive C (C.warm target lines) ↔
      ∀ level, target < level → level < C.levels.length → C.canHold level lines = true := by
  constructor
  · intro hs level hlt hlevel
    -- the working set is in the warmed level, hence in those below it
    have hall : ∀ k, target + k < C.levels.length → ∀ x ∈ lines,
        C.contains (C.warm target lines) (target + k) x = true := by
      intro k
      induction k with
      | zero => exact fun hk x hx => (contains_warm hn htarget le_rfl hk x).mpr hx
      | succ k ih => exact fun hk x hx => hs _ hk x (ih (by omega) x hx)
    refine canHold_iff.mpr fun i => ?_
    have hsub : ∀ x ∈ lines.filter (fun x => C.setIndex level x = i),
        x ∈ (C.warm target lines).sets level i := by
      intro x hx
      obtain ⟨hmem, hi⟩ := List.mem_filter.mp hx
      obtain rfl : C.setIndex level x = i := by simpa using hi
      have := hall (level - target) (by omega) x hmem
      rw [Nat.add_sub_cancel' hlt.le] at this
      exact contains_iff.mp this
    exact ((hn.filter _).subperm hsub).length_le.trans ((Lawful.warm target lines).bounded level i)
  · intro h k hk x hx
    by_cases hle : target ≤ k
    · have hcan : ∀ l, target ≤ l → l < C.levels.length → C.canHold l lines = true := by
        intro l hl hlt
        rcases hl.eq_or_lt with rfl | hl
        · exact htarget
        · exact h l hl hlt
      rw [contains_warm hn (hcan k hle (by omega)) hle (by omega)] at hx
      rw [contains_warm hn (hcan (k + 1) (by omega) hk) (by omega) hk]
      exact hx
    · rw [not_contains_warm (fun hc => hle hc.1)] at hx
      cases hx

/-! ### The states of a hierarchy -/

/-- The level from which the hierarchy is warmed down. -/
def warmedLevel (C : MemoryConfig) (mode : CacheMode) (lines : List ℤ) : Option ℕ :=
  match mode with
  | .cold => none
  | .hotL1 => some 0
  | .hotCapacity => (List.range C.levels.length).find? fun l => C.canHold l lines.dedup

theorem inclusive_empty : Inclusive C empty := by
  intro k _ x hx
  rw [contains_iff] at hx
  exact (List.not_mem_nil hx).elim

/-- What the constructor returns: the empty hierarchy, or one that is warmed down from a
level that can hold the working set. -/
theorem initialState_cases {mode : CacheMode} (h : C.initialState mode lines = .ok s) :
    C.warmedLevel mode lines = none ∧ s = empty ∨ ∃ target, C.warmedLevel mode lines = some target ∧
      C.canHold target lines.dedup = true ∧ s = C.warm target lines.dedup := by
  unfold initialState at h
  dsimp only at h
  cases mode with
  | cold => cases h; exact .inl ⟨rfl, rfl⟩
  | hotL1 =>
    dsimp only at h
    split at h
    · next hcan => cases h; exact .inr ⟨0, rfl, hcan, rfl⟩
    · cases h
  | hotCapacity =>
    dsimp only at h
    split at h
    · next l hl =>
      cases h
      exact .inr ⟨l, hl, by simpa using List.find?_some hl, rfl⟩
    · cases h

/-- **The states of a hierarchy are inclusive exactly where every level below the warmed one
can hold the working set.** -/
theorem reachable_inclusive_iff (C : MemoryConfig) (mode : CacheMode) (lines : List ℤ) (s₀ : MemoryState)
    (h : C.initialState mode lines = .ok s₀) :
    (∀ s, Reachable C mode lines s → Inclusive C s) ↔ ∀ target ∈ C.warmedLevel mode lines,
      ∀ level, target < level → level < C.levels.length → C.canHold level lines.dedup = true := by
  have hinit : Inclusive C s₀ ↔ ∀ target ∈ C.warmedLevel mode lines,
      ∀ level, target < level → level < C.levels.length → C.canHold level lines.dedup = true := by
    rcases initialState_cases h with ⟨hw, rfl⟩ | ⟨target, hw, hcan, rfl⟩
    · simp [hw, inclusive_empty]
    · rw [hw, warm_inclusive_iff lines.nodup_dedup hcan]
      simp
  rw [← hinit]
  constructor
  · exact fun hall => hall s₀ ⟨s₀, h, .refl⟩
  · rintro hs s ⟨s₀', hs₀', hreach⟩
    obtain rfl : s₀' = s₀ := Except.ok.inj (hs₀'.symm.trans h)
    have hboth := hreach.invariant (P := fun s => Lawful C s ∧ Inclusive C s) ⟨.initialState h, hs⟩
      fun _ _ _ _ ht hc => ⟨ht.1.call hc, ht.2.call ht.1 hc⟩
    exact hboth.2

end MemoryConfig

/-! ### A level of fewer ways -/

namespace Sample

/-- A 48 KiB L1 of twelve ways over a 512 KiB L2 of eight, with lines of 64 bytes. -/
def twelveWays : MemoryConfig where
  levels := [{ latencyTicks := some 5, readBytesPerCycle := some 64, writeBytesPerCycle := some 64,
               maxOutstanding := some 12, ways := 12, setCount := 64 },
             { latencyTicks := some 14, readBytesPerCycle := some 64, writeBytesPerCycle := some 64,
               maxOutstanding := some 32, ways := 8, setCount := 1024 }]
  dram := ⟨some 300, some 16, some 16, some 32⟩
  ticksPerCycle := 1

/-- Nine lines 64 KiB apart. -/
def nineLines : List ℤ := (List.range 9).map fun i => 1024 * (i : ℤ)

end Sample

open MemoryConfig in
theorem reachable_inclusive_sample : ∃ s₀, Sample.twelveWays.initialState .hotL1 [0, 1, 2] = .ok s₀ ∧
    ∀ s, Reachable Sample.twelveWays .hotL1 [0, 1, 2] s → Inclusive Sample.twelveWays s := by
  obtain ⟨s₀, h⟩ := Checked.exists_ok (x := Sample.twelveWays.initialState .hotL1 [0, 1, 2]) (by decide +kernel)
  have hcan : ∀ level < 2, Sample.twelveWays.canHold level [0, 1, 2] = true := by decide +kernel
  exact ⟨s₀, h, (reachable_inclusive_iff _ _ _ s₀ h).mpr fun _ _ level _ hl => hcan level hl⟩

open MemoryConfig in
/-- The nine lines fill the L1 set they share, and the L2 set loses the first. -/
theorem warmed_not_inclusive : ∃ s, Reachable Sample.twelveWays .hotL1 Sample.nineLines s ∧
    Sample.twelveWays.contains s 0 0 = true ∧ Sample.twelveWays.contains s 1 0 = false ∧
    ¬ Inclusive Sample.twelveWays s := by
  obtain ⟨s₀, h⟩ := Checked.exists_ok (x := Sample.twelveWays.initialState .hotL1 Sample.nineLines)
    (by decide +kernel)
  have hrun : (Sample.twelveWays.initialState .hotL1 Sample.nineLines).toOption.map (fun s =>
      (Sample.twelveWays.contains s 0 0, Sample.twelveWays.contains s 1 0)) = some (true, false) := by
    decide +kernel
  rw [h] at hrun
  obtain ⟨hin, hout⟩ := Prod.mk.inj (Option.some.inj hrun)
  refine ⟨s₀, ⟨s₀, h, .refl⟩, hin, hout, fun hs => ?_⟩
  have := hs 0 (by decide) 0 hin
  rw [hout] at this
  cases this

end VectorSim
