/-
# What an access covers

An access that is let through should leave each of its lines in L1 or on its way
there by the tick it completes, and should be charged for each line that was
missing (`Covers`). An access that finds a fill on its way for one of its lines
merges with it as a whole: it asks for none of its other lines. So it covers its
lines exactly where it finds none on its way, or all of them on their way or in
L1 (`access_covers_iff`).
-/
import VectorSim.Memory.Inclusion

namespace VectorSim
namespace MemoryConfig

open Checked

variable {C : MemoryConfig} {s s' : MemoryState} {now : ℕ} {a : MemoryAccess} {line : ℤ}

/-- A fill of the line is on its way. -/
def Pending (s : MemoryState) (line : ℤ) : Prop := ∃ f ∈ s.pendingFills, f.1 = line

/-- The line is neither in L1 nor on its way there. -/
def Missing (C : MemoryConfig) (s : MemoryState) (line : ℤ) : Prop :=
  C.contains s 0 line = false ∧ ¬ Pending s line

/-- The access from `s` to `s'` is charged as a miss of the line: each level the line misses
in has one more outstanding request, and the level that serves the access is busy for its
bytes. -/
structure Charged (C : MemoryConfig) (s s' : MemoryState) (a : MemoryAccess) (now : ℕ) (r : AccessResult)
    (line : ℤ) : Prop where
  level : C.lineLevel s line ≤ r.level
  outstanding : ∀ l ∈ C.missPath (C.lineLevel s line), s'.outstanding l = s.outstanding l ++ [r.completionTick]
  bandwidth : ∃ bytes, bytesPerCycle (C.levelEntry r.level) a.access = some bytes ∧
    C.bandwidthTicks a.bytes bytes = .ok r.bandwidthTicks ∧
    s'.bandwidthFree r.level a.access = now + r.bandwidthTicks

/-- The access from `s` to `s'` covers its lines. -/
structure Covers (C : MemoryConfig) (s s' : MemoryState) (a : MemoryAccess) (now : ℕ) (r : AccessResult) :
    Prop where
  /-- Each line is in L1, or gets there by the completion tick. -/
  arrives : ∀ line ∈ a.cacheLines, C.contains s' 0 line = true ∨
    ∃ f ∈ s'.pendingFills, f.1 = line ∧ f.2.1 ≤ now + r.latencyTicks
  completion : r.completionTick = now + r.latencyTicks
  /-- Each line that was missing is charged for. -/
  charged : ∀ line ∈ a.cacheLines, Missing C s line → Charged C s s' a now r line

/-- The lines of an access do not mix: none is on its way, or none is missing. -/
def Unmixed (C : MemoryConfig) (s : MemoryState) (a : MemoryAccess) : Prop :=
  (∀ line ∈ a.cacheLines, ¬ Pending s line) ∨ ∀ line ∈ a.cacheLines, ¬ Missing C s line

theorem hasPending_iff {lines : List ℤ} : hasPending s lines = true ↔ ∃ line ∈ lines, Pending s line := by
  simp [hasPending, Pending]

theorem missPath_mono {l k : ℕ} (hl : l ≤ C.dramLevel) (hk : k ≤ C.dramLevel) (h : l ≤ k) :
    C.missPath l ⊆ C.missPath k := by
  intro x hx
  unfold missPath at hx ⊢
  unfold dramLevel at *
  split at hx <;> split <;> rw [List.mem_range] at * <;> omega

/-! ### An access that merges -/

/-- An access that merges returns the last of the fills it waits for, and leaves the lines as
they were. -/
theorem merge_covers_iff {completion : ℕ}
    (hfresh : ∀ f ∈ s.pendingFills, now < f.2.1)
    (hmax : ((s.pendingFills.filter fun f => f.1 ∈ a.cacheLines).map (·.2.1)).max? = some completion)
    (level : ℕ) : Covers C s (merged s level a.cacheLines.length) a now ⟨level, completion - now, 0, completion⟩ ↔
      ∀ line ∈ a.cacheLines, ¬ Missing C s line := by
  obtain ⟨hmem, hle⟩ := List.max?_eq_some_iff.mp hmax
  have hlater : now ≤ completion := by
    obtain ⟨f, hf, rfl⟩ := List.mem_map.mp hmem
    exact (hfresh f (List.mem_of_mem_filter hf)).le
  have hback : now + (completion - now) = completion := by omega
  constructor
  · intro h line hline hmiss
    rcases h.arrives line hline with hin | ⟨f, hf, he, -⟩
    · have hin : C.contains s 0 line = true := hin
      rw [hmiss.1] at hin
      cases hin
    · exact hmiss.2 ⟨f, hf, he⟩
  · intro h
    refine ⟨fun line hline => ?_, hback.symm, fun line hline hmiss => absurd hmiss (h line hline)⟩
    by_cases hin : C.contains s 0 line = true
    · exact .inl hin
    · right
      have hpend : Pending s line := by
        by_contra hnot
        exact h line hline ⟨by simpa using hin, hnot⟩
      obtain ⟨f, hf, rfl⟩ := hpend
      refine ⟨f, hf, rfl, ?_⟩
      dsimp only
      rw [hback]
      exact hle _ (List.mem_map.mpr ⟨f, List.mem_filter.mpr ⟨hf, by simpa using hline⟩, rfl⟩)

/-! ### An access that is charged -/

theorem requestLines_outstanding {level completion : ℕ} : ∀ (lines : List ℤ) (s : MemoryState),
    (C.requestLines s level completion lines).outstanding = s.outstanding ∧
      (C.requestLines s level completion lines).bandwidthFree = s.bandwidthFree
  | [], _ => ⟨rfl, rfl⟩
  | line :: lines, s => by
    unfold requestLines
    rw [List.foldl_cons]
    obtain ⟨h1, h2⟩ : _ ∧ _ := requestLines_outstanding lines
      (if level = 0 then (C.touch s 0 line).1 else { s with
        pendingFills := s.pendingFills.filter (·.1 ≠ line) ++ [(line, completion, level)] })
    refine ⟨h1.trans ?_, h2.trans ?_⟩
    · split
      · rw [touch_eq]; rfl
      · rfl
    · split
      · rw [touch_eq]; rfl
      · rfl

theorem lineLevel_le_dram (hp : ¬ Pending s line) : C.lineLevel s line ≤ C.dramLevel := by
  unfold lineLevel
  have hnone : s.pendingFills.find? (·.1 = line) = none :=
    List.find?_eq_none.mpr fun f hf => by simpa using fun he => hp ⟨f, hf, he⟩
  rw [hnone]
  dsimp only
  cases hfind : (List.range C.levels.length).find? fun l => C.contains s l line with
  | none => exact le_rfl
  | some l => exact (List.mem_range.mp (List.mem_of_find?_eq_some hfind)).le

theorem worstLevel_le_dram (hp : ∀ line ∈ a.cacheLines, ¬ Pending s line) :
    C.worstLevel s a.cacheLines ≤ C.dramLevel := by
  have hfold : ∀ (ls : List ℕ) (n : ℕ), n ≤ C.dramLevel → (∀ l ∈ ls, l ≤ C.dramLevel) →
      ls.foldl max n ≤ C.dramLevel := by
    intro ls
    induction ls with
    | nil => exact fun n hn _ => hn
    | cons l ls ih =>
      exact fun n hn hl => ih _ (max_le hn (hl l List.mem_cons_self)) fun k hk => hl k (List.mem_cons_of_mem _ hk)
  unfold worstLevel
  split
  · unfold dramLevel
    omega
  · refine hfold _ 0 (Nat.zero_le _) fun l hl => ?_
    obtain ⟨line, hline, rfl⟩ := List.mem_map.mp hl
    exact lineLevel_le_dram (hp line hline)

/-- An access that finds none of its lines on its way covers them all. -/
theorem charge_covers (hC : 0 < C.levels.length) (hs : Lawful C s)
    (hp : ∀ line ∈ a.cacheLines, ¬ Pending s line) {r : MemoryState × AccessResult}
    (h : C.charge s a (C.worstLevel s a.cacheLines) now = .ok r) : Covers C s r.1 a now r.2 := by
  have hpend : hasPending s a.cacheLines = false := by
    rw [Bool.eq_false_iff, ne_eq, hasPending_iff]
    rintro ⟨line, hline, hin⟩
    exact hp line hline hin
  unfold charge at h
  dsimp only at h
  split at h
  · next latency bytes hlatency hbytes =>
    obtain ⟨bandwidth, hbandwidth, h⟩ := ok_bind.mp h
    cases h
    refine ⟨fun line hline => ?_, rfl, fun line hline hmiss => ?_⟩
    · by_cases hlevel : C.worstLevel s a.cacheLines = 0
      · left
        have hin := contains_of_hit hC hpend hlevel
        dsimp only
        rw [hlevel]
        refine (contains_requestLines hs hin ?_ _ 0 line).mpr (hin line hline)
        rfl
      · right
        dsimp only
        rw [requestLines_miss hlevel]
        exact ⟨(line, now + latency, _), mem_requestFills.mpr (.inl ⟨hline, rfl⟩), rfl, le_rfl⟩
    · have hle : C.lineLevel s line ≤ C.worstLevel s a.cacheLines := lineLevel_le_worst hline
      refine ⟨hle, fun l hl => ?_, bytes, hbytes, hbandwidth, ?_⟩
      · dsimp only
        rw [(requestLines_outstanding _ _).1]
        dsimp only
        exact if_pos (missPath_mono (lineLevel_le_dram (hp line hline)) (worstLevel_le_dram hp) hle hl)
      · dsimp only
        rw [(requestLines_outstanding _ _).2]
        simp
  · cases h

/-- **An access that is let through covers its lines exactly where they do not mix**: none of
them is on its way to L1 already, or none of the others is missing. -/
theorem access_covers_iff (C : MemoryConfig) (hC : 0 < C.levels.length) (mode : CacheMode) (lines : List ℤ)
    (s : MemoryState) (h : Reachable C mode lines s) (a : MemoryAccess) (now : ℕ) (t : MemoryState)
    (hb : C.blocker s (some a) now = .ok (t, none)) (s' : MemoryState) (r : AccessResult)
    (ha : C.access s (some a) now = .ok (s', r)) :
    Covers C t s' a now r ↔ Unmixed C (C.completeFills s now) a := by
  have hsame : SameLines (C.completeFills s now) t := blocker_same hb
  have hunmixed : Unmixed C (C.completeFills s now) a ↔ Unmixed C t a := by
    unfold Unmixed Missing Pending
    simp only [hsame.pendingFills, contains_congr hsame.sets]
  obtain ⟨a', t', he, hb', hfix, hcases⟩ := access_ok ha
  obtain rfl := Option.some.inj he
  obtain rfl : t' = t := by
    rw [hb'] at hb
    exact (Prod.mk.inj (Except.ok.inj hb)).1
  have hfresh : ∀ f ∈ t'.pendingFills, now < f.2.1 := by
    rw [← hfix]
    exact completeFills_pending
  rw [hunmixed]
  rcases hcases with ⟨completion, hmax, hr⟩ | ⟨hpend, hcharge⟩
  · obtain ⟨rfl, rfl⟩ := Prod.mk.inj hr
    rw [merge_covers_iff hfresh hmax]
    refine ⟨.inr, fun hu => hu.elim (fun hnone => ?_) id⟩
    -- the fill it merges with belongs to one of its lines
    obtain ⟨f, hf, -⟩ := List.mem_map.mp (List.max?_eq_some_iff.mp hmax).1
    obtain ⟨hf, hin⟩ := List.mem_filter.mp hf
    exact absurd ⟨f, hf, rfl⟩ (hnone f.1 (by simpa using hin))
  · have hnone : ∀ line ∈ a.cacheLines, ¬ Pending t' line := fun line hline hin => by
      rw [hasPending_iff.mpr ⟨line, hline, hin⟩] at hpend
      cases hpend
    have hlawful : Lawful C t' := (h.lawful.completeFills now).congr hsame.sets
    exact iff_of_true (charge_covers hC hlawful hnone hcharge) (.inl hnone)

end MemoryConfig

/-! ### An access that crosses into a missing line -/

namespace Sample

/-- A load of the given lines. -/
def load (lines : List ℤ) : MemoryAccess where
  access := .load
  address := 0
  bytes := 8
  cacheLines := lines

end Sample

open MemoryConfig in
theorem access_covers_sample : ∃ s t s' r, Reachable Sample.twelveWays .cold [] s ∧
    Sample.twelveWays.blocker s (some (Sample.load [0, 1])) 0 = .ok (t, none) ∧
    Sample.twelveWays.access s (some (Sample.load [0, 1])) 0 = .ok (s', r) ∧
    Covers Sample.twelveWays t s' (Sample.load [0, 1]) 0 r := by
  obtain ⟨⟨s', r⟩, ha⟩ := Checked.exists_ok
    (x := Sample.twelveWays.access empty (some (Sample.load [0, 1])) 0) (by decide +kernel)
  obtain ⟨a, t, he, hb, -⟩ := access_ok ha
  obtain rfl := Option.some.inj he
  have hreach : Reachable Sample.twelveWays .cold [] empty := ⟨empty, rfl, .refl⟩
  refine ⟨empty, t, s', r, hreach, hb, ha, ?_⟩
  refine (access_covers_iff Sample.twelveWays (by decide) .cold [] empty hreach _ 0 t hb s' r ha).mpr (.inl ?_)
  rintro line - ⟨f, hf, -⟩
  exact List.not_mem_nil hf

open MemoryConfig in
/-- A load of lines 0 and 1 that follows a load of line 0 waits for line 0 and asks for no
line 1. -/
theorem access_leaves_missing : ∃ s t s' r, Reachable Sample.twelveWays .cold [] s ∧
    Sample.twelveWays.blocker s (some (Sample.load [0, 1])) 1 = .ok (t, none) ∧
    Sample.twelveWays.access s (some (Sample.load [0, 1])) 1 = .ok (s', r) ∧
    Sample.twelveWays.contains s' 0 1 = false ∧ ¬ Pending s' 1 ∧
    ¬ Covers Sample.twelveWays t s' (Sample.load [0, 1]) 1 r := by
  obtain ⟨s, hs⟩ := Checked.exists_ok
    (x := Sample.twelveWays.call empty (.access (some (Sample.load [0])) 0)) (by decide +kernel)
  have hreach : Reachable Sample.twelveWays .cold [] s := ⟨empty, rfl, .call .refl trivial hs⟩
  have hrun : ((Sample.twelveWays.call empty (.access (some (Sample.load [0])) 0)).bind fun s =>
      (Sample.twelveWays.access s (some (Sample.load [0, 1])) 1).map fun r =>
        (Sample.twelveWays.contains r.1 0 1, r.1.pendingFills.map (·.1))).toOption = some (false, [0]) := by
    decide +kernel
  rw [hs] at hrun
  obtain ⟨⟨s', r⟩, ha, hview⟩ := Checked.ok_map.mp (Checked.toOption_ok.mp hrun)
  obtain ⟨hout, hfills⟩ := Prod.mk.inj hview
  have hpend : ¬ Pending s' 1 := by
    rintro ⟨f, hf, he⟩
    have hmem : f.1 ∈ s'.pendingFills.map (·.1) := List.mem_map_of_mem hf
    rw [hfills, he] at hmem
    exact absurd hmem (by decide)
  obtain ⟨a, t, he, hb, -⟩ := access_ok ha
  obtain rfl := Option.some.inj he
  refine ⟨s, t, s', r, hreach, hb, ha, hout, hpend, fun hcov => ?_⟩
  rcases hcov.arrives 1 (by decide) with hin | ⟨f, hf, he, -⟩
  · rw [hout] at hin
    cases hin
  · exact hpend ⟨f, hf, he⟩

end VectorSim
