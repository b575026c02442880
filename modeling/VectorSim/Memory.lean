/-
# The memory hierarchy

`src/simulator/memory.py`: set-associative LRU caches, the fills on their way,
and the bandwidth and outstanding-miss limits of each level. A level is its
position in `level_order`; the position after the last is `"dram"`. A profile
value that is still `"measure"` is `none`, and reading it raises.

The queries change the state: `blocker` applies the fills that are due and
drops the outstanding requests that have finished, and `access` asks `blocker`
again before it charges the access.
-/
import VectorSim.Model
import VectorSim.Lib.Checked

namespace VectorSim

open Checked

/-- `CacheMode`. -/
inductive CacheMode
  | hotL1 | hotCapacity | cold
  deriving DecidableEq, Repr

inductive MemoryError
  /-- "working set cannot be represented as L1 resident" -/
  | notResident
  /-- "working set exceeds modeled cache capacity" -/
  | exceedsCapacity
  /-- "memory access requested for a non-memory uop" -/
  | nonMemoryUop
  /-- "access issued while blocked" -/
  | accessWhileBlocked
  /-- `int("measure")`, or a latency that is no whole number of ticks -/
  | unmeasured
  /-- a bandwidth below one byte per cycle -/
  | divisionByZero
  /-- `min` of no outstanding request: a limit of zero -/
  | emptyMin
  deriving DecidableEq, Repr

/-- The service parameters of a level or of DRAM, latencies in ticks. -/
structure LevelEntry where
  latencyTicks : Option ℕ
  readBytesPerCycle : Option ℚ
  writeBytesPerCycle : Option ℚ
  maxOutstanding : Option ℕ
  deriving DecidableEq, Repr

structure CacheLevel extends LevelEntry where
  ways : ℕ
  setCount : ℕ
  deriving DecidableEq, Repr

/-- The schema asks for a level of cache at least (`level_order[0]`). -/
structure MemoryConfig where
  levels : List CacheLevel
  dram : LevelEntry
  ticksPerCycle : ℕ
  levels_ne : levels ≠ [] := by exact List.cons_ne_nil _ _
  deriving DecidableEq, Repr

/-- One level of a single line, served as the memory behind it is. -/
def MemoryConfig.oneLine (entry : LevelEntry) (ticksPerCycle : ℕ) : MemoryConfig where
  levels := [⟨entry, 1, 1⟩]
  dram := entry
  ticksPerCycle := ticksPerCycle

/-- The mutable fields of `MemoryHierarchy`. A set lists its lines from the
least to the most recently used. -/
structure MemoryState where
  sets : ℕ → ℕ → List ℤ
  bandwidthFree : ℕ → AccessKind → ℕ
  outstanding : ℕ → List ℕ
  pendingFills : List (ℤ × ℕ × ℕ)
  hits : ℕ → ℕ

/-- What an access returns: `MemoryAccess(level, latency, bandwidth, completion)`. -/
structure AccessResult where
  level : ℕ
  latencyTicks : ℕ
  bandwidthTicks : ℕ
  completionTick : ℕ
  deriving DecidableEq, Repr

namespace MemoryConfig

variable (C : MemoryConfig)

/-- The position of `"dram"`. -/
def dramLevel : ℕ := C.levels.length

def setIndex (level : ℕ) (line : ℤ) : ℕ :=
  (line % ((C.levels[level]?.map (·.setCount)).getD 1 : ℕ)).toNat

def ways (level : ℕ) : ℕ := (C.levels[level]?.map (·.ways)).getD 0

/-- `_level_entry`. -/
def levelEntry (level : ℕ) : LevelEntry :=
  match C.levels[level]? with
  | some l => l.toLevelEntry
  | none => C.dram

/-- `SetAssociativeCache.contains`. -/
def contains (s : MemoryState) (level : ℕ) (line : ℤ) : Bool :=
  line ∈ s.sets level (C.setIndex level line)

/-- The recency list of a set. -/
def setLines (s : MemoryState) (level : ℕ) (line : ℤ) (lines : List ℤ) : MemoryState :=
  let level' := Function.update (s.sets level) (C.setIndex level line) lines
  { s with sets := Function.update s.sets level level' }

/-- `SetAssociativeCache.remove`. -/
def remove (s : MemoryState) (level : ℕ) (line : ℤ) : MemoryState :=
  C.setLines s level line ((s.sets level (C.setIndex level line)).filter (· ≠ line))

/-- `SetAssociativeCache.touch`: the line becomes the most recent of its set; the
line it evicts, if any. -/
def touch (s : MemoryState) (level : ℕ) (line : ℤ) : MemoryState × Option ℤ :=
  let old := s.sets level (C.setIndex level line)
  if line ∈ old then (C.setLines s level line (old.filter (· ≠ line) ++ [line]), none)
  else if C.ways level < (old ++ [line]).length then
    (C.setLines s level line (old ++ [line]).tail, (old ++ [line]).head?)
  else (C.setLines s level line (old ++ [line]), none)

/-- `SetAssociativeCache.can_hold`. -/
def canHold (level : ℕ) (lines : List ℤ) : Bool :=
  lines.all fun l => (lines.filter fun k => C.setIndex level k = C.setIndex level l).length ≤ C.ways level

/-- The upper levels lose a line that a lower one evicts. -/
def backInvalidate (s : MemoryState) (level : ℕ) : Option ℤ → MemoryState
  | none => s
  | some line => (List.range level).foldl (fun s upper => C.remove s upper line) s

/-- `_fill_inclusive`: the levels up to the source and then the ones below it, each
touched in turn. -/
def fillInclusive (s : MemoryState) (line : ℤ) : MemoryState :=
  (List.range C.levels.length).foldl (fun s level =>
    let r := C.touch s level line
    C.backInvalidate r.1 level r.2) s

/-- `_complete_fills`: the fills that are due, in the order of their lines. -/
def completeFills (s : MemoryState) (now : ℕ) : MemoryState :=
  let completed := (s.pendingFills.filter fun f => f.2.1 ≤ now).insertionSort (fun a b => a.1 ≤ b.1)
  let s' := completed.foldl (fun s f => C.fillInclusive s f.1) s
  { s' with pendingFills := s.pendingFills.filter fun f => ¬ f.2.1 ≤ now }

/-- The level that serves one line. -/
def lineLevel (s : MemoryState) (line : ℤ) : ℕ :=
  match s.pendingFills.find? (·.1 = line) with
  | some f => f.2.2
  | none => ((List.range C.levels.length).find? fun l => C.contains s l line).getD C.dramLevel

/-- The worst level over the lines of an access. Of no line it is the last level
(`level_order[-1]`). -/
def worstLevel (s : MemoryState) (lines : List ℤ) : ℕ :=
  if lines = [] then C.levels.length - 1 else (lines.map (C.lineLevel s)).foldl max 0

/-- `peek_level`. -/
def peekLevel (s : MemoryState) (m : Option MemoryAccess) (now : ℕ) :
    Except MemoryError (MemoryState × ℕ) :=
  match m with
  | none => .error .nonMemoryUop
  | some a =>
    let s' := C.completeFills s now
    .ok (s', C.worstLevel s' a.cacheLines)

/-- `_miss_path`: the levels an access served at `level` misses in. -/
def missPath (level : ℕ) : List ℕ :=
  if level = C.dramLevel then List.range (C.levels.length + 1) else List.range level

/-- `_outstanding_limit`. -/
def outstandingLimit (level : ℕ) : Except MemoryError ℕ :=
  match (C.levelEntry level).maxOutstanding with
  | some n => .ok n
  | none => .error .unmeasured

inductive MemoryStall
  | bandwidth | outstanding
  deriving DecidableEq, Repr

/-- The loop of `blocker` over the miss path. -/
def outstandingBlocker (now : ℕ) : List ℕ → MemoryState →
    Except MemoryError (MemoryState × Option (MemoryStall × ℕ))
  | [], s => .ok (s, none)
  | l :: ls, s => do
    let pending := (s.outstanding l).filter (now < ·)
    let s := { s with outstanding := Function.update s.outstanding l pending }
    let limit ← C.outstandingLimit l
    if limit ≤ pending.length then
      match pending.min? with
      | some t => .ok (s, some (.outstanding, t))
      | none => .error .emptyMin
    else outstandingBlocker now ls s

/-- A line of the access is on its way already. -/
def hasPending (s : MemoryState) (lines : List ℤ) : Bool :=
  lines.any fun l => s.pendingFills.any (·.1 = l)

/-- `blocker`. -/
def blocker (s : MemoryState) (m : Option MemoryAccess) (now : ℕ) :
    Except MemoryError (MemoryState × Option (MemoryStall × ℕ)) := do
  let (s, level) ← C.peekLevel s m now
  match m with
  | none => .error .nonMemoryUop
  | some a =>
    if hasPending s a.cacheLines then .ok (s, none)
    else if now < s.bandwidthFree level a.access then
      .ok (s, some (.bandwidth, s.bandwidthFree level a.access))
    else C.outstandingBlocker now (C.missPath level) s

/-- `math.ceil(Fraction(bytes, int(bytes_per_cycle)) * ticks_per_cycle)`. -/
def bandwidthTicks (bytes : ℕ) (bytesPerCycle : ℚ) : Except MemoryError ℕ :=
  if bytesPerCycle.floor = 0 then .error .divisionByZero
  else .ok (⌈(bytes : ℚ) / bytesPerCycle.floor * C.ticksPerCycle⌉).toNat

def bytesPerCycle (e : LevelEntry) : AccessKind → Option ℚ
  | .store => e.writeBytesPerCycle
  | .load => e.readBytesPerCycle

/-- The state after the lines of a non-merged access: touched in L1, or on their way. -/
def requestLines (s : MemoryState) (level : ℕ) (completion : ℕ) (lines : List ℤ) : MemoryState :=
  lines.foldl (fun s line =>
    if level = 0 then (C.touch s 0 line).1
    else { s with pendingFills :=
      s.pendingFills.filter (·.1 ≠ line) ++ [(line, completion, level)] }) s

/-- The charge of an access that merges with no pending fill. -/
def charge (s : MemoryState) (a : MemoryAccess) (level : ℕ) (now : ℕ) :
    Except MemoryError (MemoryState × AccessResult) := do
  let entry := C.levelEntry level
  match entry.latencyTicks, bytesPerCycle entry a.access with
  | some latency, some bpc =>
    let bandwidth ← C.bandwidthTicks a.bytes bpc
    let completion := now + latency
    let free := Function.update (s.bandwidthFree level) a.access (now + bandwidth)
    let s := { s with
      bandwidthFree := Function.update s.bandwidthFree level free
      outstanding := fun l => if l ∈ C.missPath level then s.outstanding l ++ [completion] else s.outstanding l
      hits := Function.update s.hits level (s.hits level + a.cacheLines.length) }
    .ok (C.requestLines s level completion a.cacheLines, ⟨level, latency, bandwidth, completion⟩)
  | _, _ => .error .unmeasured

/-- `access`. -/
def access (s : MemoryState) (m : Option MemoryAccess) (now : ℕ) :
    Except MemoryError (MemoryState × AccessResult) := do
  let (s, reason) ← C.blocker s m now
  match reason with
  | some _ => .error .accessWhileBlocked
  | none => do
    let (s, level) ← C.peekLevel s m now
    match m with
    | none => .error .nonMemoryUop
    | some a =>
      let pending := s.pendingFills.filter fun f => f.1 ∈ a.cacheLines
      match (pending.map (·.2.1)).max? with
      | some completion =>
        .ok ({ s with hits := Function.update s.hits level (s.hits level + a.cacheLines.length) },
          ⟨level, completion - now, 0, completion⟩)
      | none => C.charge s a level now

/-- The empty hierarchy. -/
def empty : MemoryState where
  sets := fun _ _ => []
  bandwidthFree := fun _ _ => 0
  outstanding := fun _ => []
  pendingFills := []
  hits := fun _ => 0

/-- Warms the levels from `target` down with the sorted lines of the working set. -/
def warm (target : ℕ) (lines : List ℤ) : MemoryState :=
  (lines.insertionSort (· ≤ ·)).foldl (fun s line =>
    (List.range' target (C.levels.length - target)).foldl (fun s l => (C.touch s l line).1) s) empty

/-- `_initialize`. -/
def initialState (mode : CacheMode) (lines : List ℤ) : Except MemoryError MemoryState :=
  let lines := lines.dedup
  match mode with
  | .cold => .ok empty
  | .hotL1 => if C.canHold 0 lines then .ok (C.warm 0 lines) else .error .notResident
  | .hotCapacity =>
    match (List.range C.levels.length).find? fun l => C.canHold l lines with
    | some l => .ok (C.warm l lines)
    | none => .error .exceedsCapacity

/-! ### Asking again -/

variable {C} {s s' : MemoryState} {now : ℕ}

/-- Where no fill is due nothing happens. -/
theorem completeFills_eq_self (h : ∀ f ∈ s.pendingFills, now < f.2.1) : C.completeFills s now = s := by
  have hnone : s.pendingFills.filter (fun f => f.2.1 ≤ now) = [] :=
    List.filter_eq_nil_iff.mpr fun f hf => by simpa using h f hf
  have hall : s.pendingFills.filter (fun f => ¬ f.2.1 ≤ now) = s.pendingFills :=
    List.filter_eq_self.mpr fun f hf => by simpa using h f hf
  unfold completeFills
  rw [hnone, hall]
  rfl

/-- The fills that are left are due later. -/
theorem completeFills_pending : ∀ f ∈ (C.completeFills s now).pendingFills, now < f.2.1 := by
  intro f hf
  simpa using (List.mem_filter.mp (show f ∈ s.pendingFills.filter fun f => ¬ f.2.1 ≤ now from hf)).2

/-- The outstanding requests of the levels that were asked, without those that have finished. -/
def dropFinished (s : MemoryState) (now : ℕ) (levels : List ℕ) : MemoryState :=
  { s with outstanding := fun l =>
      if l ∈ levels then (s.outstanding l).filter (now < ·) else s.outstanding l }

theorem outstandingBlocker_none : ∀ {ls : List ℕ} {s s' : MemoryState},
    C.outstandingBlocker now ls s = .ok (s', none) ↔ s' = dropFinished s now ls ∧
      ∀ l ∈ ls, ∃ limit, C.outstandingLimit l = .ok limit ∧
        ((s.outstanding l).filter (now < ·)).length < limit
  | [], s, s' => by
    constructor
    · intro h
      cases h
      exact ⟨by simp [dropFinished], by simp⟩
    · rintro ⟨rfl, -⟩
      simp [outstandingBlocker, dropFinished]
  | l :: ls, s, s' => by
    have hstate : dropFinished
        { s with outstanding := Function.update s.outstanding l ((s.outstanding l).filter (now < ·)) } now ls =
          dropFinished s now (l :: ls) := by
      simp only [dropFinished, MemoryState.mk.injEq, true_and, and_true]
      funext k
      by_cases hk : k = l
      · subst hk
        by_cases hm : k ∈ ls <;> simp [hm]
      · by_cases hm : k ∈ ls <;> simp [hk, hm]
    have hfilter : ∀ k, ((Function.update s.outstanding l ((s.outstanding l).filter (now < ·))) k).filter
        (now < ·) = (s.outstanding k).filter (now < ·) := by
      intro k
      by_cases hk : k = l
      · subst hk; simp
      · simp [hk]
    have hcons : C.outstandingBlocker now (l :: ls) s = .ok (s', none) ↔
        ∃ limit, C.outstandingLimit l = .ok limit ∧ ((s.outstanding l).filter (now < ·)).length < limit ∧
          C.outstandingBlocker now ls { s with
            outstanding := Function.update s.outstanding l ((s.outstanding l).filter (now < ·)) } =
              .ok (s', none) := by
      rw [outstandingBlocker, ok_bind]
      refine exists_congr fun limit => and_congr_right fun _ => ?_
      by_cases hlim : limit ≤ ((s.outstanding l).filter (now < ·)).length
      · rw [if_pos hlim]
        constructor
        · intro h
          split at h <;> cases h
        · exact fun h => absurd h.1 (by omega)
      · rw [if_neg hlim]
        exact (and_iff_right (by omega)).symm
    rw [hcons]
    simp only [outstandingBlocker_none, hstate, hfilter, List.mem_cons, forall_eq_or_imp]
    constructor
    · rintro ⟨limit, h1, h2, h3, h4⟩
      exact ⟨h3, ⟨limit, h1, h2⟩, h4⟩
    · rintro ⟨h3, ⟨limit, h1, h2⟩, h4⟩
      exact ⟨limit, h1, h2, h3, h4⟩

/-- **An access that was not blocked is not blocked when it is asked for again.** -/
theorem blocker_again {m : Option MemoryAccess} (h : C.blocker s m now = .ok (s', none)) :
    C.blocker s' m now = .ok (s', none) := by
  cases m with
  | none => cases h
  | some a =>
    unfold blocker peekLevel at h
    obtain ⟨⟨t, level⟩, ht, h⟩ := ok_bind.mp h
    cases ht
    dsimp only at h
    have hbind : ∀ t, C.blocker t (some a) now =
        if hasPending (C.completeFills t now) a.cacheLines then .ok (C.completeFills t now, none)
        else if now < (C.completeFills t now).bandwidthFree
            (C.worstLevel (C.completeFills t now) a.cacheLines) a.access then
          .ok (C.completeFills t now, some (.bandwidth, (C.completeFills t now).bandwidthFree
            (C.worstLevel (C.completeFills t now) a.cacheLines) a.access))
        else C.outstandingBlocker now (C.missPath (C.worstLevel (C.completeFills t now) a.cacheLines))
          (C.completeFills t now) := fun t => rfl
    have hpending : ∀ f ∈ (C.completeFills s now).pendingFills, now < f.2.1 := completeFills_pending
    generalize C.completeFills s now = t at h hpending
    split at h
    · next hpend =>
      cases h
      rw [hbind, completeFills_eq_self hpending, if_pos hpend]
    · next hpend =>
      split at h
      · cases h
      · next hfree =>
        obtain ⟨rfl, hlimits⟩ := outstandingBlocker_none.mp h
        -- only the outstanding requests have changed, and those that remain are counted again
        generalize hpath : C.missPath (C.worstLevel t a.cacheLines) = path at hlimits
        have hfix : C.completeFills (dropFinished t now path) now = dropFinished t now path :=
          completeFills_eq_self hpending
        have hlevel : C.worstLevel (dropFinished t now path) a.cacheLines = C.worstLevel t a.cacheLines := rfl
        have hfilter : ∀ l ∈ path, ((dropFinished t now path).outstanding l).filter (now < ·) =
            (t.outstanding l).filter (now < ·) := by
          intro l hl
          simp [dropFinished, hl]
        have hsame : hasPending (dropFinished t now path) a.cacheLines = hasPending t a.cacheLines := rfl
        have hfree' : (dropFinished t now path).bandwidthFree = t.bandwidthFree := rfl
        rw [hbind, hfix, hsame, if_neg hpend, hlevel, hfree', if_neg hfree, hpath, outstandingBlocker_none]
        refine ⟨?_, fun l hl => hfilter l hl ▸ hlimits l hl⟩
        simp only [dropFinished, MemoryState.mk.injEq, true_and, and_true]
        funext l
        by_cases hl : l ∈ path <;> simp [hl]

end MemoryConfig

end VectorSim
