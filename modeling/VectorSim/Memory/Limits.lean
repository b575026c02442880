/-
# The limits of a level

An access that merges with no pending fill is a request at each level it misses
in, from its tick to the tick it completes, and it occupies the bandwidth of the
level that serves it (`Transfer`). Whatever the accesses and the polls between
them, a level never has more requests in flight than its limit, and the
transfers of one level and direction never overlap (`limits_hold`).

The hierarchy forgets finished requests only where a check looks. At a tick from
now on, the requests it still remembers are the transfers in flight (`Kept`).
-/
import VectorSim.Memory.HotL1
import Mathlib.Order.CompletePartialOrder

namespace VectorSim
namespace MemoryConfig

open Checked

variable {C : MemoryConfig} {s s' s₀ t : MemoryState} {now later : ℕ} {a : MemoryAccess}

/-- An access that was charged: the level that serves it, its direction and its times. -/
structure Transfer where
  level : ℕ
  access : AccessKind
  start : ℕ
  bandwidth : ℕ
  completion : ℕ

/-- The ticks at which it occupies the bandwidth of its level. -/
def Transfer.occupies (x : Transfer) : Set ℕ := Set.Ico x.start (x.start + x.bandwidth)

/-- The transfers in flight at a tick that are charged to a level. -/
def inFlight (C : MemoryConfig) (level tick : ℕ) (xs : List Transfer) : ℕ :=
  xs.countP fun x => level ∈ C.missPath x.level ∧ x.start ≤ tick ∧ tick < x.completion

/-- The transfer of an access: none where it merges with a pending fill. -/
def transferOf (C : MemoryConfig) (s : MemoryState) (a : MemoryAccess) (now : ℕ) (r : AccessResult) : List Transfer :=
  if hasPending (C.completeFills s now) a.cacheLines then []
  else [⟨r.level, a.access, now, r.bandwidthTicks, r.completionTick⟩]

/-- The hierarchy is polled and accessed at ticks that do not decrease: the transfers so far, the
last tick and the state. -/
inductive Serves (C : MemoryConfig) (s₀ : MemoryState) : List Transfer → ℕ → MemoryState → Prop
  | start : Serves C s₀ [] 0 s₀
  | poll {xs : List Transfer} {m : Option MemoryAccess} {s s' : MemoryState} {now later : ℕ}
      (before : Serves C s₀ xs now s) (forward : now ≤ later) (returns : Polls C s m later s') :
      Serves C s₀ xs later s'
  | access {xs : List Transfer} {a : MemoryAccess} {r : AccessResult} {s s' : MemoryState} {now later : ℕ}
      (before : Serves C s₀ xs now s) (forward : now ≤ later)
      (returns : C.access s (some a) later = .ok (s', r)) : Serves C s₀ (xs ++ transferOf C s a later r) later s'

/-! ### What the hierarchy remembers -/

/-- The state remembers the transfers, and these keep the limits. -/
structure Kept (C : MemoryConfig) (xs : List Transfer) (now : ℕ) (s : MemoryState) : Prop where
  started : ∀ x ∈ xs, x.start ≤ now
  remembered : ∀ tick, now ≤ tick → ∀ level,
    (s.outstanding level).countP (tick < ·) = C.inFlight level tick xs
  limited : ∀ level limit, C.outstandingLimit level = .ok limit → ∀ tick, C.inFlight level tick xs ≤ limit
  ended : ∀ x ∈ xs, x.start + x.bandwidth ≤ s.bandwidthFree x.level x.access
  disjoint : xs.Pairwise fun x y => x.level = y.level → x.access = y.access → Disjoint x.occupies y.occupies

theorem Kept.initial (hout : s.outstanding = empty.outstanding) : Kept C [] 0 s := by
  refine ⟨by simp, fun tick _ level => ?_, fun level limit _ tick => Nat.zero_le _, by simp, .nil⟩
  rw [hout]
  rfl

/-- Requests that have finished by a tick are not counted after it. -/
theorem countP_filter_later {ts : List ℕ} {tick : ℕ} (h : now ≤ tick) :
    (ts.filter (now < ·)).countP (tick < ·) = ts.countP (tick < ·) := by
  rw [List.countP_filter]
  refine List.countP_congr fun x _ => ?_
  simp only [Bool.and_eq_true, decide_eq_true_eq]
  omega

/-- The transfers are kept by states that answer alike. -/
theorem Kept.alike {xs : List Transfer} (h : Kept C xs now s) (hle : now ≤ later) (hs : Alike later s s') :
    Kept C xs later s' := by
  refine ⟨fun x hx => (h.started x hx).trans hle, fun tick htick level => ?_, h.limited, ?_, h.disjoint⟩
  · rw [← countP_filter_later htick, hs.outstanding level, countP_filter_later htick]
    exact h.remembered tick (hle.trans htick) level
  · rw [hs.bandwidthFree]
    exact h.ended

/-- Fills change neither the requests nor the bandwidth. -/
theorem Kept.completeFills {xs : List Transfer} (h : Kept C xs now s) (tick : ℕ) :
    Kept C xs now (C.completeFills s tick) := by
  rw [completeFills_eq]
  exact ⟨h.started, h.remembered, h.limited, h.ended, h.disjoint⟩

/-! ### A poll -/

theorem Kept.poll {xs : List Transfer} {m : Option MemoryAccess} (h : Kept C xs now s) (hle : now ≤ later)
    (hpoll : Polls C s m later s') : Kept C xs later s' :=
  (h.completeFills later).alike hle hpoll.alike

/-! ### An access -/

/-- An access that is let through and merges with no fill finds the bandwidth free, and below
their limits the levels it misses in. -/
theorem blocker_free (h : C.blocker s (some a) now = .ok (t, none)) (hp : hasPending t a.cacheLines = false) :
    t.bandwidthFree (C.worstLevel t a.cacheLines) a.access ≤ now ∧
      ∀ level ∈ C.missPath (C.worstLevel t a.cacheLines), ∃ limit, C.outstandingLimit level = .ok limit ∧
        (t.outstanding level).countP (now < ·) < limit := by
  have hsame := blocker_same h
  have hpend : hasPending (C.completeFills s now) a.cacheLines = false := by
    unfold hasPending at hp ⊢
    rwa [hsame.pendingFills] at hp
  have hworst := worstLevel_same (C := C) hsame a.cacheLines
  obtain ⟨⟨u, level⟩, hu, h⟩ := ok_bind.mp h
  cases hu
  dsimp only at h
  rw [hpend, if_neg (by simp)] at h
  split at h
  · cases h
  · next hfree =>
    obtain ⟨hdropped, hlimits⟩ := outstandingBlocker_none.mp h
    rw [hworst]
    constructor
    · rw [hdropped]
      exact not_lt.mp hfree
    · intro level hlevel
      obtain ⟨limit, hlimit, hlt⟩ := hlimits level hlevel
      refine ⟨limit, hlimit, ?_⟩
      have hout : t.outstanding level =
          ((C.completeFills s now).outstanding level).filter (now < ·) := by
        rw [hdropped]
        exact if_pos hlevel
      rw [hout, countP_filter_later le_rfl, List.countP_eq_length_filter]
      exact hlt

/-- What a charge adds: the request at the levels on the miss path, the transfer to the
bandwidth of its level. -/
theorem charge_adds {level : ℕ} {r : AccessResult} (h : C.charge t a level now = .ok (s', r)) :
    r.level = level ∧
      (∀ l, s'.outstanding l = if l ∈ C.missPath level then t.outstanding l ++ [r.completionTick] else t.outstanding l) ∧
      s'.bandwidthFree = Function.update t.bandwidthFree level
        (Function.update (t.bandwidthFree level) a.access (now + r.bandwidthTicks)) := by
  unfold charge at h
  dsimp only at h
  split at h
  · obtain ⟨bandwidth, -, h⟩ := ok_bind.mp h
    cases h
    refine ⟨rfl, fun l => ?_, ?_⟩
    · rw [(requestLines_outstanding _ _).1]
    · rw [(requestLines_outstanding _ _).2]
  · cases h

theorem inFlight_append (level tick : ℕ) (xs : List Transfer) (x : Transfer) :
    C.inFlight level tick (xs ++ [x]) = C.inFlight level tick xs +
      if level ∈ C.missPath x.level ∧ x.start ≤ tick ∧ tick < x.completion then 1 else 0 := by
  unfold inFlight
  rw [List.countP_append, List.countP_singleton]
  simp only [decide_eq_true_eq]

/-- **A charged access keeps the limits.** -/
theorem Kept.charge {xs : List Transfer} {level : ℕ} {r : AccessResult} (h : Kept C xs now t)
    (hfree : t.bandwidthFree level a.access ≤ now)
    (hlimits : ∀ l ∈ C.missPath level, ∃ limit, C.outstandingLimit l = .ok limit ∧
      (t.outstanding l).countP (now < ·) < limit) (hc : C.charge t a level now = .ok (s', r)) :
    Kept C (xs ++ [⟨r.level, a.access, now, r.bandwidthTicks, r.completionTick⟩]) now s' := by
  obtain ⟨hlevel, hout, hbandwidth⟩ := charge_adds hc
  rw [hlevel]
  refine ⟨?_, fun tick htick l => ?_, fun l limit hlimit tick => ?_, ?_, ?_⟩
  · intro x hx
    rcases List.mem_append.mp hx with hx | hx
    · exact h.started x hx
    · rw [List.mem_singleton.mp hx]
  · rw [inFlight_append, hout, ← h.remembered tick htick l]
    by_cases hl : l ∈ C.missPath level
    · rw [if_pos hl, List.countP_append, List.countP_singleton]
      simp [hl, htick]
    · simp [hl]
  · rw [inFlight_append]
    dsimp only
    split
    · next hnew =>
      -- from now on the transfers in flight are those the check has counted
      obtain ⟨hl, htick, -⟩ := hnew
      obtain ⟨limit', hlimit', hlt⟩ := hlimits l hl
      obtain rfl : limit' = limit := Except.ok.inj (hlimit'.symm.trans hlimit)
      have hmono : (t.outstanding l).countP (tick < ·) ≤ (t.outstanding l).countP (now < ·) :=
        List.countP_mono_left fun x _ hx => by
          simp only [decide_eq_true_eq] at hx ⊢
          omega
      rw [h.remembered tick htick] at hmono
      omega
    · exact h.limited l limit hlimit tick
  · intro x hx
    rw [hbandwidth]
    rcases List.mem_append.mp hx with hx | hx
    · have hended := h.ended x hx
      by_cases hkind : x.level = level ∧ x.access = a.access
      · rw [hkind.1, hkind.2] at hended ⊢
        simp only [Function.update_self]
        omega
      · by_cases hl : x.level = level
        · rw [hl] at hended ⊢
          rw [Function.update_self, Function.update_of_ne fun ha => hkind ⟨hl, ha⟩]
          exact hended
        · rw [Function.update_of_ne hl]
          exact hended
    · rw [List.mem_singleton.mp hx]
      simp
  · rw [List.pairwise_append]
    refine ⟨h.disjoint, List.pairwise_singleton _ _, fun x hx y hy hl ha => ?_⟩
    obtain rfl := List.mem_singleton.mp hy
    have hended := h.ended x hx
    dsimp only at hl ha
    rw [hl, ha] at hended
    refine Set.disjoint_left.mpr fun tick hin hin' => ?_
    have hbefore : tick < x.start + x.bandwidth := hin.2
    have hafter : now ≤ tick := hin'.1
    omega

theorem Kept.access {xs : List Transfer} {r : AccessResult} (h : Kept C xs now s) (hle : now ≤ later)
    (hc : C.access s (some a) later = .ok (s', r)) : Kept C (xs ++ transferOf C s a later r) later s' := by
  obtain ⟨a', t, he, hb, -, hcases⟩ := access_ok hc
  obtain rfl := Option.some.inj he
  have hpoll : Polls C s (some a) later t := .inr (ok_map.mpr ⟨_, hb, rfl⟩)
  have hkept : Kept C xs later t := h.poll hle hpoll
  have hsame : hasPending (C.completeFills s later) a.cacheLines = hasPending t a.cacheLines := by
    unfold hasPending
    rw [(blocker_same hb).pendingFills]
  unfold transferOf
  rw [hsame]
  rcases hcases with ⟨completion, hmax, hr⟩ | ⟨hpend, hcharge⟩
  · obtain ⟨rfl, rfl⟩ := Prod.mk.inj hr
    obtain ⟨f, hf, -⟩ := List.mem_map.mp (List.max?_eq_some_iff.mp hmax).1
    obtain ⟨hf, hin⟩ := List.mem_filter.mp hf
    have hpend : hasPending t a.cacheLines = true := hasPending_iff.mpr ⟨f.1, by simpa using hin, f, hf, rfl⟩
    rw [if_pos hpend, List.append_nil]
    exact ⟨hkept.started, hkept.remembered, hkept.limited, hkept.ended, hkept.disjoint⟩
  · rw [hpend, if_neg (by simp)]
    obtain ⟨hfree, hlimits⟩ := blocker_free hb hpend
    exact hkept.charge hfree hlimits hcharge

/-! ### A run of accesses -/

theorem Serves.kept {xs : List Transfer} (h : Serves C s₀ xs now s) (hout : s₀.outstanding = empty.outstanding) :
    Kept C xs now s := by
  induction h with
  | start => exact .initial hout
  | poll _ forward returns ih => exact ih.poll forward returns
  | access _ forward returns ih => exact ih.access forward returns

theorem initialState_outstanding {mode : CacheMode} {lines : List ℤ} (h : C.initialState mode lines = .ok s) :
    s.outstanding = empty.outstanding := by
  rcases initialState_cases h with ⟨-, rfl⟩ | ⟨target, -, -, rfl⟩
  · rfl
  · exact warm_frame (p := MemoryState.outstanding) (fun s level line => by rw [touch_frame]) target

/-- **The outstanding-miss and bandwidth limits hold**: whatever was accessed, no level has more
requests in flight at any tick than its limit, and no two transfers of one level and direction
overlap. -/
theorem limits_hold (C : MemoryConfig) (mode : CacheMode) (lines : List ℤ) (s₀ : MemoryState)
    (hs₀ : C.initialState mode lines = .ok s₀) (xs : List Transfer) (now : ℕ) (s : MemoryState)
    (h : Serves C s₀ xs now s) :
    (∀ level limit, C.outstandingLimit level = .ok limit → ∀ tick, C.inFlight level tick xs ≤ limit) ∧
      xs.Pairwise fun x y => x.level = y.level → x.access = y.access → Disjoint x.occupies y.occupies :=
  have hkept := h.kept (initialState_outstanding hs₀)
  ⟨hkept.limited, hkept.disjoint⟩

end MemoryConfig

open MemoryConfig in
/-- Two loads of lines that are in no cache, the second when DRAM has sent the first. -/
theorem limits_hold_sample : ∃ xs s, Serves Sample.twelveWays empty xs 1 s ∧ xs.length = 2 ∧
    (∀ level limit, Sample.twelveWays.outstandingLimit level = .ok limit → ∀ tick,
      Sample.twelveWays.inFlight level tick xs ≤ limit) ∧
    xs.Pairwise fun x y => x.level = y.level → x.access = y.access → Disjoint x.occupies y.occupies := by
  have hrun : ((Sample.twelveWays.access empty (some (Sample.load [0])) 0).bind fun r =>
      (Sample.twelveWays.access r.1 (some (Sample.load [1])) 1).map fun r' =>
        ((transferOf Sample.twelveWays empty (Sample.load [0]) 0 r.2).length,
          (transferOf Sample.twelveWays r.1 (Sample.load [1]) 1 r'.2).length)).toOption = some (1, 1) := by
    decide +kernel
  obtain ⟨⟨s, r⟩, hfirst, hrest⟩ := Checked.ok_bind.mp (Checked.toOption_ok.mp hrun)
  obtain ⟨⟨s', r'⟩, hsecond, hlengths⟩ := Checked.ok_map.mp hrest
  obtain ⟨hone, htwo⟩ := Prod.mk.inj hlengths
  have hstart : Serves Sample.twelveWays empty [] 0 empty := .start
  have hserves := (hstart.access le_rfl hfirst).access (Nat.zero_le 1) hsecond
  refine ⟨_, s', hserves, ?_, limits_hold Sample.twelveWays .cold [] empty rfl _ 1 s' hserves⟩
  rw [List.length_append, List.length_append, hone, htwo]
  rfl

end VectorSim
