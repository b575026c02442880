/-
# What the frontends promise the binder

The instructions of a trace are numbered by their positions, each access has the
lines of its bytes, and an access depends on the last store before it to each of
its lines (`FrontendTrace.lastStores`).
-/
import VectorSim.BufferSafety

namespace VectorSim

open LastWriter

/-- A trace that one of the frontends builds. -/
def FrontendTrace (trace : List Instruction) : Prop :=
  (∃ p count vlenBits, Rvv.buildDynamicTrace p count vlenBits = .ok trace) ∨
    ∃ p count, X86.buildDynamicTrace p count = .ok trace

/-- The instructions are numbered, and an access depends on the last store to each of its lines. -/
structure LastStores (ds : List Instruction) : Prop where
  id : ∀ (k : ℕ) (d : Instruction), ds[k]? = some d → d.id = k
  lines : ∀ d ∈ ds, ∀ m, d.memory = some m → m.cacheLines = cacheLinesOf m.address m.bytes 64
  stores : ∀ (k : ℕ) (d : Instruction) (m : MemoryAccess), ds[k]? = some d → d.memory = some m →
    ∀ l ∈ m.cacheLines, ∀ w, IsLast ((ds.take k).map storedLines) l w → w ∈ d.memoryDependencies

/-- The table of the stores before an instruction gives it the last of each line. -/
theorem mem_memoryDependencies (ds : List Instruction) {last : ℤ → Option Id} {lines : List ℤ} {l : ℤ} {w : ℕ}
    (h : Tracks (ds.map storedLines) last) (hl : l ∈ lines) (hw : IsLast (ds.map storedLines) l w) :
    w ∈ sorted (lines.filterMap last) :=
  mem_sorted.mpr (List.mem_filterMap.mpr ⟨l, hl, (h l w).mpr hw⟩)

namespace Rvv

theorem run_lastStores (p : Program) (count vlenBits : ℕ) : LastStores ((runOf p count vlenBits).map (·.dynamic)) where
  id := (run_lineOrdered p count vlenBits).id
  lines := (run_lineOrdered p count vlenBits).lines
  stores k d m hk hm l hl w hw := by
    rw [List.getElem?_map, Option.map_eq_some_iff] at hk
    obtain ⟨v, hv, rfl⟩ := hk
    have hok := visitOk hv
    obtain ⟨c, hrec⟩ := hok.recorded
    have htable := hok.tables.lines
    rw [← List.map_take] at hw
    rw [(record_memory hrec).2, hm]
    refine mem_memoryDependencies (((runOf p count vlenBits).take k).map (·.dynamic)) ?_ hl hw
    rw [List.map_map]
    exact htable

end Rvv

namespace X86

theorem turns_lastStores (p : Program) (count : ℕ) : LastStores ((turns p count).map dynamicOf) where
  id := (turns_lineOrdered p count).id
  lines := (turns_lineOrdered p count).lines
  stores k d m hk hm l hl w hw := by
    rw [List.getElem?_map, Option.map_eq_some_iff] at hk
    obtain ⟨t, ht, rfl⟩ := hk
    obtain ⟨htables, hturn⟩ := turns_tables ht
    obtain ⟨-, -, haccess, hdependencies⟩ := record_parts hturn.recorded
    rw [dynamicOf, haccess, Option.map_eq_some_iff] at hm
    obtain ⟨a, ha, rfl⟩ := hm
    rw [← List.map_take] at hw
    rw [dynamicOf, hdependencies, ha]
    refine mem_memoryDependencies (((turns p count).take k).map dynamicOf) ?_ hl hw
    rw [List.map_map]
    exact htables.lines

/-- The trace is what the turns record. -/
theorem buildDynamicTrace_turns {p : Program} {count : ℕ} {trace : List Instruction}
    (h : buildDynamicTrace p count = .ok trace) : (turns p count).map dynamicOf = trace := by
  obtain ⟨_, -, h⟩ := Checked.ok_bind.mp h
  obtain ⟨x, hx, h⟩ := Checked.ok_bind.mp h
  cases h
  have hstart : Tables [] (initial count) := ⟨rfl, tracks_nil⟩
  have hend := Trail.run_invariant hstart
    (fun ts x t hI hx hmakes => Tables.snoc (by rw [hx]; exact hI) (turn_of_makes hmakes)) hx
  exact hend.1.instructions.symm

end X86

/-- **A trace of either frontend has its last stores.** -/
theorem FrontendTrace.lastStores {trace : List Instruction} (h : FrontendTrace trace) : LastStores trace := by
  rcases h with ⟨p, count, vlenBits, h⟩ | ⟨p, count, h⟩
  · rw [← (Rvv.buildDynamicTrace_visits h).1]
    exact Rvv.run_lastStores p count vlenBits
  · rw [← X86.buildDynamicTrace_turns h]
    exact X86.turns_lastStores p count

end VectorSim
