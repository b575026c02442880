/-
# The bandwidth an access is charged

`access` charges the ticks of a transfer at `int(bytes_per_cycle)`. For a whole
number of bytes per cycle that is the least number of ticks the transfer fits in,
for every transfer; for any other rate some transfer is charged too much, or the
division is by zero (`charges_exact_iff`).
-/
import VectorSim.Memory.Coverage

namespace VectorSim
namespace MemoryConfig

open Checked

variable {C : MemoryConfig} {level latency bytes n : ℕ} {b : ℚ} {k : AccessKind}

/-- The numbers of ticks in which a transfer of `bytes` fits at `b` bytes per cycle. -/
def fitting (C : MemoryConfig) (bytes : ℕ) (b : ℚ) : Set ℕ := {n | (bytes : ℚ) ≤ n * b / C.ticksPerCycle}

/-- Every transfer of a kind at a level is charged the least number of ticks it fits in. -/
def ChargesExactly (C : MemoryConfig) (level : ℕ) (k : AccessKind) (b : ℚ) : Prop :=
  ∀ s a now, a.access = k → 1 ≤ a.bytes → ∃ s' r, C.charge s a level now = .ok (s', r) ∧
    IsLeast (C.fitting a.bytes b) r.bandwidthTicks ∧ s'.bandwidthFree level k = now + r.bandwidthTicks

theorem mem_fitting (htpc : 0 < C.ticksPerCycle) (hb : 0 < b) :
    n ∈ C.fitting bytes b ↔ (bytes : ℚ) / b * C.ticksPerCycle ≤ n := by
  have htpc : (0 : ℚ) < C.ticksPerCycle := by exact_mod_cast htpc
  show (bytes : ℚ) ≤ n * b / C.ticksPerCycle ↔ _
  rw [le_div_iff₀ htpc, div_mul_eq_mul_div, div_le_iff₀ hb]

/-- The exact charge is the ceiling at the exact rate. -/
theorem isLeast_fitting (htpc : 0 < C.ticksPerCycle) (hb : 0 < b) :
    IsLeast (C.fitting bytes b) (⌈(bytes : ℚ) / b * C.ticksPerCycle⌉).toNat := by
  have hpos : (0 : ℤ) ≤ ⌈(bytes : ℚ) / b * C.ticksPerCycle⌉ := by positivity
  constructor
  · rw [mem_fitting htpc hb]
    calc (bytes : ℚ) / b * C.ticksPerCycle ≤ (⌈(bytes : ℚ) / b * C.ticksPerCycle⌉ : ℤ) := Int.le_ceil _
      _ = (((⌈(bytes : ℚ) / b * C.ticksPerCycle⌉).toNat : ℤ) : ℚ) := by rw [Int.toNat_of_nonneg hpos]
      _ = ((⌈(bytes : ℚ) / b * C.ticksPerCycle⌉).toNat : ℚ) := Int.cast_natCast _
  · intro m hm
    rw [mem_fitting htpc hb] at hm
    have hceil : ⌈(bytes : ℚ) / b * C.ticksPerCycle⌉ ≤ (m : ℤ) := Int.ceil_le.mpr (by exact_mod_cast hm)
    omega

/-- What a charge takes of the bandwidth. -/
theorem charge_bandwidth (hlatency : (C.levelEntry level).latencyTicks = some latency)
    (hbytes : bytesPerCycle (C.levelEntry level) k = some b) (s : MemoryState) {a : MemoryAccess} (now : ℕ)
    (ha : a.access = k) :
    (∀ m, C.bandwidthTicks a.bytes b = .ok m →
      ∃ s', C.charge s a level now = .ok (s', ⟨level, latency, m, now + latency⟩) ∧ s'.bandwidthFree level k = now + m) ∧
    ∀ s' r, C.charge s a level now = .ok (s', r) → C.bandwidthTicks a.bytes b = .ok r.bandwidthTicks := by
  subst ha
  unfold charge
  dsimp only
  rw [hlatency, hbytes]
  dsimp only
  constructor
  · intro m hm
    rw [hm]
    refine ⟨_, rfl, ?_⟩
    rw [(requestLines_outstanding _ _).2]
    simp
  · intro s' r h
    obtain ⟨m, hm, h⟩ := ok_bind.mp h
    cases h
    exact hm

/-- A rate that is no whole number charges a long transfer too much. -/
theorem exists_overcharged (htpc : 0 < C.ticksPerCycle) {whole : ℤ} (hwhole : 0 < whole) (hlt : (whole : ℚ) < b) :
    ∃ bytes : ℕ, 1 ≤ bytes ∧
      (⌈(bytes : ℚ) / b * C.ticksPerCycle⌉).toNat < (⌈(bytes : ℚ) / whole * C.ticksPerCycle⌉).toNat := by
  have htpc : (0 : ℚ) < C.ticksPerCycle := by exact_mod_cast htpc
  have hw : (0 : ℚ) < whole := by exact_mod_cast hwhole
  have hb : 0 < b := hw.trans hlt
  -- what a byte is charged too much
  have hexcess : 0 < (1 / (whole : ℚ) - 1 / b) * C.ticksPerCycle :=
    mul_pos (sub_pos.mpr (one_div_lt_one_div_of_lt hw hlt)) htpc
  obtain ⟨bytes, hbytes⟩ := exists_nat_gt (1 / ((1 / (whole : ℚ) - 1 / b) * C.ticksPerCycle))
  have hpos : (0 : ℚ) < bytes := (one_div_pos.mpr hexcess).trans hbytes
  have hone : 1 ≤ (bytes : ℚ) * ((1 / (whole : ℚ) - 1 / b) * C.ticksPerCycle) :=
    ((div_lt_iff₀ hexcess).mp hbytes).le
  have hmore : (bytes : ℚ) / b * C.ticksPerCycle + 1 ≤ (bytes : ℚ) / whole * C.ticksPerCycle := by
    calc (bytes : ℚ) / b * C.ticksPerCycle + 1
        ≤ (bytes : ℚ) / b * C.ticksPerCycle + bytes * ((1 / (whole : ℚ) - 1 / b) * C.ticksPerCycle) := by
          linarith only [hone]
      _ = (bytes : ℚ) / whole * C.ticksPerCycle := by ring
  have hceil : ⌈(bytes : ℚ) / b * C.ticksPerCycle⌉ + 1 ≤ ⌈(bytes : ℚ) / whole * C.ticksPerCycle⌉ := by
    rw [← Int.ceil_add_one]
    exact Int.ceil_mono hmore
  have hnonneg : (0 : ℤ) ≤ ⌈(bytes : ℚ) / b * C.ticksPerCycle⌉ := by positivity
  exact ⟨bytes, by exact_mod_cast hpos, by omega⟩

/-- **Transfers are charged exactly just when the rate is a whole number of bytes per cycle.** -/
theorem charges_exact_iff (C : MemoryConfig) (level latency : ℕ) (k : AccessKind) (b : ℚ)
    (htpc : 0 < C.ticksPerCycle) (hb : 0 < b) (hlatency : (C.levelEntry level).latencyTicks = some latency)
    (hbytes : bytesPerCycle (C.levelEntry level) k = some b) : ChargesExactly C level k b ↔ ∃ n : ℕ, b = n := by
  have hfloor : ((b.floor : ℤ) : ℚ) ≤ b := Int.floor_le b
  have hnonneg : (0 : ℤ) ≤ b.floor := Int.floor_nonneg.mpr hb.le
  constructor
  · intro h
    by_contra hno
    have hlt : ((b.floor : ℤ) : ℚ) < b := by
      refine lt_of_le_of_ne hfloor fun he => hno ⟨b.floor.toNat, ?_⟩
      have hcast : ((b.floor.toNat : ℤ) : ℚ) = b := by rw [Int.toNat_of_nonneg hnonneg, he]
      exact_mod_cast hcast.symm
    rcases hnonneg.eq_or_lt with hzero | hpos
    · -- the division is by zero
      let a : MemoryAccess := { access := k, address := 0, bytes := 1, cacheLines := [] }
      obtain ⟨s', r, hr, -⟩ := h empty a 0 rfl le_rfl
      have hticks := (charge_bandwidth hlatency hbytes empty 0 (show a.access = k from rfl)).2 s' r hr
      rw [bandwidthTicks, if_pos hzero.symm] at hticks
      cases hticks
    · obtain ⟨bytes, hone, hmore⟩ := exists_overcharged htpc hpos hlt
      let a : MemoryAccess := { access := k, address := 0, bytes := bytes, cacheLines := [] }
      obtain ⟨s', r, hr, hleast, -⟩ := h empty a 0 rfl hone
      have hticks := (charge_bandwidth hlatency hbytes empty 0 (show a.access = k from rfl)).2 s' r hr
      rw [bandwidthTicks, if_neg hpos.ne'] at hticks
      have hfits : IsLeast (C.fitting bytes b) _ := isLeast_fitting htpc hb
      have hle := hleast.2 hfits.1
      rw [← Except.ok.inj hticks] at hle
      exact absurd hmore (not_lt.mpr hle)
  · rintro ⟨n, rfl⟩ s a now ha _
    have hwhole : (n : ℚ).floor = (n : ℤ) := Int.floor_natCast (R := ℚ) n
    have hn : (n : ℤ) ≠ 0 := by
      intro h
      rw [show n = 0 by exact_mod_cast h] at hb
      exact absurd hb (by simp)
    have hticks : C.bandwidthTicks a.bytes n = .ok (⌈(a.bytes : ℚ) / n * C.ticksPerCycle⌉).toNat := by
      rw [bandwidthTicks, hwhole, if_neg hn, Int.cast_natCast]
    obtain ⟨s', hs', hfree⟩ := (charge_bandwidth hlatency hbytes s now ha).1 _ hticks
    exact ⟨s', _, hs', isLeast_fitting htpc hb, hfree⟩

end MemoryConfig

/-! ### Rates with a fraction -/

namespace Sample

/-- A level that reads a byte and a half and writes half a byte per cycle. -/
def slowLevel : MemoryConfig where
  levels := [{ latencyTicks := some 4, readBytesPerCycle := some (3 / 2), writeBytesPerCycle := some (1 / 2),
               maxOutstanding := some 1, ways := 1, setCount := 1 }]
  dram := { latencyTicks := some 40, readBytesPerCycle := some 4, writeBytesPerCycle := some 4, maxOutstanding := some 1 }
  ticksPerCycle := 6

end Sample

open MemoryConfig in
theorem charges_exact_sample : ChargesExactly Sample.slowLevel 1 .load 4 :=
  (charges_exact_iff Sample.slowLevel 1 40 .load 4 (by decide) (by norm_num) rfl rfl).mpr ⟨4, by norm_num⟩

open MemoryConfig in
/-- Three bytes fit in twelve ticks and are charged eighteen; a store divides by zero. -/
theorem fraction_overcharged :
    ((Sample.slowLevel.charge empty { access := .load, address := 0, bytes := 3, cacheLines := [] } 0 0).map
        (·.2.bandwidthTicks)).toOption = some 18 ∧ 12 ∈ Sample.slowLevel.fitting 3 (3 / 2) ∧
      Checked.errorOf ((Sample.slowLevel.charge empty { access := .store, address := 0, bytes := 3, cacheLines := [] } 0 0).map
        (·.2.bandwidthTicks)) = some .divisionByZero ∧
      ¬ ChargesExactly Sample.slowLevel 0 .load (3 / 2) ∧ ¬ ChargesExactly Sample.slowLevel 0 .store (1 / 2) := by
  have hload : ((Sample.slowLevel.charge empty { access := .load, address := 0, bytes := 3, cacheLines := [] } 0 0).map
      (·.2.bandwidthTicks)).toOption = some 18 := by decide +kernel
  have hstore : Checked.errorOf ((Sample.slowLevel.charge empty
      { access := .store, address := 0, bytes := 3, cacheLines := [] } 0 0).map (·.2.bandwidthTicks)) =
        some .divisionByZero := by decide +kernel
  have hfits : 12 ∈ Sample.slowLevel.fitting 3 (3 / 2) := by
    show ((3 : ℕ) : ℚ) ≤ (12 : ℕ) * (3 / 2) / (6 : ℕ)
    norm_num
  refine ⟨hload, hfits, hstore, fun h => ?_, fun h => ?_⟩
  · obtain ⟨s', r, hr, hleast, -⟩ := h empty { access := .load, address := 0, bytes := 3, cacheLines := [] } 0 rfl (by decide)
    rw [hr] at hload
    have hcharged : r.bandwidthTicks = 18 := Option.some.inj hload
    have hle : r.bandwidthTicks ≤ 12 := hleast.2 hfits
    omega
  · obtain ⟨s', r, hr, -⟩ := h empty { access := .store, address := 0, bytes := 3, cacheLines := [] } 0 rfl (by decide)
    rw [hr] at hstore
    cases hstore

end VectorSim
