/-
# The latency floor

Where the latencies of the levels do not decrease from L1 outward, an access that
is charged takes at least as long as a hit in L1. One that merges with pending
fills completes with the last of them: it takes the ticks that are left, at least
one, and as long as a hit just when that fill is due no sooner than a hit would be
(`latency_floor`).
-/
import VectorSim.Memory.Coverage

namespace VectorSim
namespace MemoryConfig

open Checked

variable {C : MemoryConfig} {s s' t : MemoryState} {now : ℕ} {a : MemoryAccess}

/-- The latencies that are measured do not decrease from L1 outward. -/
def Outward (C : MemoryConfig) : Prop :=
  ∀ level level', level ≤ level' → ∀ ticks ticks', (C.levelEntry level).latencyTicks = some ticks →
    (C.levelEntry level').latencyTicks = some ticks' → ticks ≤ ticks'

/-- The tick of the last pending fill that an access merges with. -/
def lastFill (s : MemoryState) (a : MemoryAccess) : Option ℕ :=
  ((s.pendingFills.filter fun f => f.1 ∈ a.cacheLines).map (·.2.1)).max?

/-- What an access returns: the ticks to the last fill it merges with, or the latency of the
level it is charged to. -/
theorem access_latency {r : AccessResult} (h : C.access s (some a) now = .ok (s', r)) :
    (∃ completion, lastFill (C.completeFills s now) a = some completion ∧
      r.completionTick = completion ∧ r.latencyTicks = completion - now) ∨
    lastFill (C.completeFills s now) a = none ∧ (C.levelEntry r.level).latencyTicks = some r.latencyTicks ∧
      r.completionTick = now + r.latencyTicks := by
  obtain ⟨a', t, he, hb, -, hcases⟩ := access_ok h
  obtain rfl := Option.some.inj he
  have hlast : lastFill (C.completeFills s now) a = lastFill t a := by
    unfold lastFill
    rw [(blocker_same hb).pendingFills]
  rw [hlast]
  rcases hcases with ⟨completion, hmax, hr⟩ | ⟨hpend, hcharge⟩
  · obtain ⟨-, rfl⟩ := Prod.mk.inj hr
    exact .inl ⟨completion, hmax, rfl, rfl⟩
  · refine .inr ⟨?_, ?_⟩
    · have hnone : t.pendingFills.filter (fun f => f.1 ∈ a.cacheLines) = [] := by
        rw [List.filter_eq_nil_iff]
        intro f hf hin
        rw [hasPending_iff.mpr ⟨f.1, by simpa using hin, f, hf, rfl⟩] at hpend
        cases hpend
      unfold lastFill
      rw [hnone]
      rfl
    · unfold charge at hcharge
      dsimp only at hcharge
      split at hcharge
      · next hlatency _ =>
        obtain ⟨bandwidth, -, h⟩ := ok_bind.mp hcharge
        cases h
        exact ⟨hlatency, rfl⟩
      · cases hcharge

/-- The last fill is due later. -/
theorem lastFill_later {completion : ℕ} (h : lastFill (C.completeFills s now) a = some completion) :
    now < completion := by
  obtain ⟨f, hf, rfl⟩ := List.mem_map.mp (List.max?_eq_some_iff.mp h).1
  exact completeFills_pending f (List.mem_of_mem_filter hf)

/-- **The latency floor**: an access that merges with no fill takes no less than a hit in L1;
one that merges completes with the last of its fills, and takes no less than a hit just when
that fill is due no sooner. -/
theorem latency_floor (C : MemoryConfig) (hC : Outward C) (hit : ℕ)
    (hhit : (C.levelEntry 0).latencyTicks = some hit) (s : MemoryState) (a : MemoryAccess) (now : ℕ)
    (s' : MemoryState) (r : AccessResult) (h : C.access s (some a) now = .ok (s', r)) :
    match lastFill (C.completeFills s now) a with
    | none => hit ≤ r.latencyTicks
    | some completion => now < completion ∧ r.completionTick = completion ∧ r.latencyTicks = completion - now ∧
        (hit ≤ r.latencyTicks ↔ now + hit ≤ completion) := by
  rcases access_latency h with ⟨completion, hlast, hcompletion, hlatency⟩ | ⟨hlast, hlatency, -⟩
  · have hlater := lastFill_later hlast
    rw [hlast]
    exact ⟨hlater, hcompletion, hlatency, by omega⟩
  · rw [hlast]
    exact hC 0 r.level (Nat.zero_le _) hit r.latencyTicks hhit hlatency

end MemoryConfig

/-! ### An access as the fill arrives -/

open MemoryConfig

theorem twelveWays_outward : Outward Sample.twelveWays := by
  intro level level' hle ticks ticks' h h'
  match level, level' with
  | 0, 0 | 1, 1 => exact (Option.some.inj (h.symm.trans h')).le
  | 0, 1 | 0, _ + 2 | 1, _ + 2 | _ + 2, _ + 2 =>
    cases h
    cases h'
    decide
  | 1, 0 | _ + 2, 0 | _ + 2, 1 => omega

theorem latency_floor_sample : ∃ s s' r, Sample.twelveWays.access s (some (Sample.load [0])) 1 = .ok (s', r) ∧
    r.latencyTicks = 299 ∧ 5 ≤ r.latencyTicks := by
  obtain ⟨s, hs⟩ := Checked.exists_ok
    (x := Sample.twelveWays.call empty (.access (some (Sample.load [0])) 0)) (by decide +kernel)
  have hrun : ((Sample.twelveWays.call empty (.access (some (Sample.load [0])) 0)).bind fun s =>
      (Sample.twelveWays.access s (some (Sample.load [0])) 1).map fun _ =>
        lastFill (Sample.twelveWays.completeFills s 1) (Sample.load [0])).toOption = some (some 300) := by
    decide +kernel
  rw [hs] at hrun
  obtain ⟨⟨s', r⟩, hr, hlast⟩ := Checked.ok_map.mp (Checked.toOption_ok.mp hrun)
  have h := latency_floor Sample.twelveWays twelveWays_outward 5 rfl s (Sample.load [0]) 1 s' r hr
  rw [hlast] at h
  exact ⟨s, s', r, hr, h.2.2.1, h.2.2.2.mpr (by decide)⟩

/-- A load one tick before the line arrives takes one tick, a load of a line in L1 five. -/
theorem merge_below_floor : Outward Sample.twelveWays ∧ (Sample.twelveWays.levelEntry 0).latencyTicks = some 5 ∧
    ∃ s s' r, Reachable Sample.twelveWays .cold [] s ∧
      Sample.twelveWays.access s (some (Sample.load [0])) 299 = .ok (s', r) ∧ r.latencyTicks = 1 ∧
      ¬ 5 ≤ r.latencyTicks := by
  obtain ⟨s, hs⟩ := Checked.exists_ok
    (x := Sample.twelveWays.call empty (.access (some (Sample.load [0])) 0)) (by decide +kernel)
  have hrun : ((Sample.twelveWays.call empty (.access (some (Sample.load [0])) 0)).bind fun s =>
      (Sample.twelveWays.access s (some (Sample.load [0])) 299).map (·.2.latencyTicks)).toOption = some 1 := by
    decide +kernel
  rw [hs] at hrun
  obtain ⟨⟨s', r⟩, hr, hone⟩ := Checked.ok_map.mp (Checked.toOption_ok.mp hrun)
  have hone : r.latencyTicks = 1 := hone
  exact ⟨twelveWays_outward, rfl, s, s', r, ⟨empty, rfl, .call .refl trivial hs⟩, hr, hone, by omega⟩

end VectorSim
