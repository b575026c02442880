/-
# Turns of the x86 frontend

What one turn of the loop of `buildDynamicTrace` does: it records the
instruction at its position, appends it and evaluates it; where it goes on from
there changes the position only (`turn_of_makes`).
-/
import VectorSim.Frontend.X86Words
import VectorSim.Lib.LastWriter

namespace VectorSim
namespace X86

open Checked LastWriter

/-- A turn of the loop. -/
abbrev Turn : Type := Trail.Turn Execution Item

/-- The turns of the loop of `build_dynamic_trace`. -/
def turns (p : Program) (count : ℕ) : List Turn := Trail.trail (step p) (maxSteps count) (initial count)

/-- The parts of a turn. -/
structure IsTurn (p : Program) (t : Turn) : Prop where
  static : p.static[t.before.pc]? = some t.item.static
  recorded : record p t.before t.item.static = .ok t.item.recorded
  state : updateScalarState t.item.static { t.before.state with constants := t.item.recorded.constants } =
    .ok t.after.state
  rest : ∃ pc, t.after = { append t.before t.item.static t.item.recorded with pc := pc, state := t.after.state }

/-- Going on changes the position only. -/
theorem advance_ok {p : Program} {x : Execution} {i : StaticInstruction} {z : Execution × Bool}
    (h : advance p x i = .ok z) : ∃ pc, z.1 = { x with pc := pc } := by
  unfold advance at h
  split at h
  · cases h
    exact ⟨x.pc, rfl⟩
  · obtain ⟨taken, -, h⟩ := ok_bind.mp h
    split at h
    · split at h
      · cases h
      · split at h
        · cases h
        · cases h
          exact ⟨_, rfl⟩
    · cases h
      exact ⟨_, rfl⟩

theorem turn_of_makes {p : Program} {t : Turn} (h : Trail.Makes (step p) t) : IsTurn p t := by
  obtain ⟨goesOn, h⟩ := h
  unfold step at h
  obtain ⟨i, hi, h⟩ := Option.map_eq_some_iff.mp h
  unfold execute at h
  obtain ⟨r, hr, h⟩ := ok_bind.mp h
  obtain ⟨s, hs, h⟩ := ok_bind.mp h
  obtain ⟨z, hz, h⟩ := ok_bind.mp h
  simp only [Except.ok.injEq, Prod.mk.injEq] at h
  obtain ⟨hitem, rfl⟩ := h
  obtain ⟨pc, hpc⟩ := advance_ok hz
  dsimp only at hpc
  have hstate : t.after.state = s := by rw [hpc]
  refine ⟨by rw [hi, ← hitem], by rw [← hitem]; exact hr, ?_, pc, ?_⟩
  · rw [hstate, ← hitem]
    exact hs
  · rw [hstate, hpc, ← hitem]

/-- Every turn of the loop is one. -/
theorem isTurn {p : Program} {count : ℕ} {t : Turn} (ht : t ∈ turns p count) : IsTurn p t := by
  obtain ⟨k, hk⟩ := List.mem_iff_getElem?.mp ht
  have h := Trail.trail_invariant (I := fun _ _ => True) trivial (fun _ _ _ _ _ _ => trivial) k t hk
  exact turn_of_makes h.2

/-- An invariant of the state through turns that meet a condition. -/
theorem turns_invariant {p : Program} {count : ℕ} {I : Execution → Prop} {C : Turn → Prop} (start : I (initial count))
    (next : ∀ t, IsTurn p t → C t → I t.before → I t.after) (hC : ∀ t ∈ turns p count, C t) :
    ∀ t ∈ turns p count, I t.before ∧ I t.after := by
  intro t ht
  obtain ⟨k, hk⟩ := List.mem_iff_getElem?.mp ht
  have hinv := Trail.trail_invariant (I := fun ts x => (∀ t ∈ ts, C t) → I x) (fun _ => start) ?_ k t hk
  · have hbefore := hinv.1 fun t' ht' => hC t' (List.mem_of_mem_take ht')
    exact ⟨hbefore, next t (turn_of_makes hinv.2) (hC t ht) hbefore⟩
  · intro ts x t hI hx hmakes hts
    have hI' := hI fun t' ht' => hts t' (List.mem_append_left _ ht')
    exact next t (turn_of_makes hmakes) (hts t (by simp)) (by rw [hx]; exact hI')

/-! ### The tables -/

/-- The dynamic instruction of a turn. -/
def dynamicOf (t : Turn) : Instruction := t.item.recorded.dynamic

/-- Where the tables stand after some turns from the start. -/
structure Tables (ts : List Turn) (x : Execution) : Prop where
  instructions : x.instructions = ts.map dynamicOf
  lines : Tracks (ts.map fun t => storedLines (dynamicOf t)) x.lastStoreByLine

theorem record_parts {p : Program} {x : Execution} {i : StaticInstruction} {r : Recorded}
    (h : record p x i = .ok r) :
    memoryOf x.state i = .ok (r.constants, r.memory) ∧ r.dynamic.id = x.instructions.length ∧
      r.dynamic.memory = r.memory.map (·.access) ∧
      r.dynamic.memoryDependencies =
        sorted (((r.memory.map (·.access.cacheLines)).getD []).filterMap x.lastStoreByLine) := by
  unfold record at h
  obtain ⟨m, hm, h⟩ := ok_bind.mp h
  split at h
  · cases h
  · cases h
    exact ⟨hm, rfl, rfl, rfl⟩

theorem Tables.snoc {p : Program} {ts : List Turn} {t : Turn} (h : Tables ts t.before) (ht : IsTurn p t) :
    Tables (ts ++ [t]) t.after := by
  obtain ⟨pc, hafter⟩ := ht.rest
  have hid : (dynamicOf t).id = ts.length := by
    rw [dynamicOf, (record_parts ht.recorded).2.1, h.instructions, List.length_map]
  constructor
  · rw [hafter, List.map_append]
    simp [append, h.instructions, dynamicOf]
  · rw [hafter, List.map_append]
    refine tracks_append h.lines (fun l hl => ?_) fun l hl => ?_
    · rw [List.length_map, ← hid]
      exact if_pos (mem_storedLines.mp hl)
    · exact if_neg (mt mem_storedLines.mpr hl)

/-- Before every turn the tables are those of the turns before. -/
theorem turns_tables {p : Program} {count k : ℕ} {t : Turn} (h : (turns p count)[k]? = some t) :
    Tables ((turns p count).take k) t.before ∧ IsTurn p t := by
  have hstart : Tables [] (initial count) := ⟨rfl, tracks_nil⟩
  have hinv := Trail.trail_invariant hstart
    (fun ts x t hI hx hmakes => Tables.snoc (by rw [hx]; exact hI) (turn_of_makes hmakes)) k t h
  exact ⟨hinv.1, turn_of_makes hinv.2⟩

end X86
end VectorSim
