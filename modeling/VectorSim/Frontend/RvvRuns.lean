/-
# Runs of the RVV frontend

The frontend as a sequence of visits: each with the state before it and the
dynamic instruction it records. `visits` are those of a run, and
`buildDynamicTrace_visits` says that the trace is what they recorded. At each of
them the tables of last writers are those of the instructions before
(`Visits.registers`, `Visits.lines`).
-/
import VectorSim.Frontend.Rvv
import VectorSim.Lib.LastWriter

namespace VectorSim
namespace Rvv

open Checked LastWriter

variable {p : Program} {x x' : Execution}

/-- An instruction the frontend comes by, with the state before it and what it records. -/
structure Visit where
  state : Execution
  item : StaticInstruction
  dynamic : Instruction

/-- The visits of the loop, until it ends or raises. -/
def visits (p : Program) : ℕ → Execution → List Visit
  | 0, _ => []
  | steps + 1, x =>
    match p.static[x.pc]? with
    | none => []
    | some i =>
      match record p x i, step p x i with
      | .ok d, .ok r => ⟨x, i, d.2⟩ :: if r.2 then visits p steps r.1 else []
      | _, _ => []

/-- Some visits in a row: the state they start from and the one they end in. -/
inductive Visits (p : Program) (x : Execution) : List Visit → Execution → Prop
  | nil : Visits p x [] x
  | snoc {vs y i c d y' b} (before : Visits p x vs y) (fetched : p.static[y.pc]? = some i)
      (recorded : record p y i = .ok (c, d)) (stepped : step p y i = .ok (y', b)) :
      Visits p x (vs ++ [⟨y, i, d⟩]) y'

theorem step_record {i : StaticInstruction} {r : Execution × Bool} (h : step p x i = .ok r) :
    ∃ c d, record p x i = .ok (c, d) := by
  obtain ⟨d, hd, -⟩ := ok_bind.mp h
  exact ⟨d.1, d.2, hd⟩

/-- The loop makes its visits. -/
theorem loop_visits {x₀ : Execution} : ∀ (n : ℕ) {vs : List Visit} {x x' : Execution}, Visits p x₀ vs x →
    loop p n x = .ok x' → Visits p x₀ (vs ++ visits p n x) x'
  | 0, vs, x, x', hv, h => by
    unfold loop at h
    split at h
    · cases h
    · cases h
      rw [visits, List.append_nil]
      exact hv
  | n + 1, vs, x, x', hv, h => by
    unfold loop at h
    unfold visits
    cases hi : p.static[x.pc]? with
    | none =>
      rw [hi] at h
      cases h
      rw [List.append_nil]
      exact hv
    | some i =>
      rw [hi] at h
      obtain ⟨⟨y, b⟩, hstep, h⟩ := ok_bind.mp h
      obtain ⟨c, d, hrec⟩ := step_record hstep
      have hnext := Visits.snoc hv hi hrec hstep
      dsimp only at h ⊢
      rw [hrec, hstep]
      dsimp only
      cases b with
      | true =>
        have hrest := loop_visits n hnext h
        rw [List.append_assoc] at hrest
        exact hrest
      | false =>
        cases h
        exact hnext

/-! ### What a step changes -/

theorem updateScalarState_frame {i : StaticInstruction} (h : updateScalarState x i = .ok x') :
    x'.instructions = x.instructions ∧ x'.lastRegisterWriter = x.lastRegisterWriter ∧
      x'.lastStoreByLine = x.lastStoreByLine ∧ (x'.vectorState = x.vectorState ∨
        vectorStateFromOperands x.registers x.vectorState i.operands = .ok x'.vectorState) := by
  unfold updateScalarState at h
  split at h
  · obtain ⟨_, -, h⟩ := ok_bind.mp h
    obtain ⟨_, -, h⟩ := ok_bind.mp h
    obtain ⟨_, -, h⟩ := ok_bind.mp h
    cases h
    exact ⟨rfl, rfl, rfl, .inl rfl⟩
  · split at h
    · obtain ⟨_, -, h⟩ := ok_bind.mp h
      split at h
      · obtain ⟨_, -, h⟩ := ok_bind.mp h
        cases h
        exact ⟨rfl, rfl, rfl, .inl rfl⟩
      · obtain ⟨_, -, h⟩ := ok_bind.mp h
        obtain ⟨_, -, h⟩ := ok_bind.mp h
        cases h
        exact ⟨rfl, rfl, rfl, .inl rfl⟩
    · split at h
      · obtain ⟨_, -, h⟩ := ok_bind.mp h
        obtain ⟨_, -, h⟩ := ok_bind.mp h
        obtain ⟨_, -, h⟩ := ok_bind.mp h
        obtain ⟨_, -, h⟩ := ok_bind.mp h
        obtain ⟨_, -, h⟩ := ok_bind.mp h
        obtain ⟨_, -, h⟩ := ok_bind.mp h
        cases h
        exact ⟨rfl, rfl, rfl, .inl rfl⟩
      · split at h
        · obtain ⟨_, -, h⟩ := ok_bind.mp h
          obtain ⟨_, -, h⟩ := ok_bind.mp h
          obtain ⟨_, -, h⟩ := ok_bind.mp h
          obtain ⟨_, -, h⟩ := ok_bind.mp h
          cases h
          exact ⟨rfl, rfl, rfl, .inl rfl⟩
        · split at h
          · obtain ⟨_, -, h⟩ := ok_bind.mp h
            obtain ⟨_, -, h⟩ := ok_bind.mp h
            obtain ⟨_, -, h⟩ := ok_bind.mp h
            cases h
            exact ⟨rfl, rfl, rfl, .inl rfl⟩
          · split at h
            · obtain ⟨_, hstate, h⟩ := ok_bind.mp h
              obtain ⟨_, -, h⟩ := ok_bind.mp h
              cases h
              exact ⟨rfl, rfl, rfl, .inr hstate⟩
            · cases h
              exact ⟨rfl, rfl, rfl, .inl rfl⟩

/-- A step appends the dynamic instruction and changes no table but as `append` does; it keeps the vector
state, or sets the one of a `vsetvli`. -/
theorem step_frame {i : StaticInstruction} {c : List String} {d : Instruction} {b : Bool}
    (hrec : record p x i = .ok (c, d)) (h : step p x i = .ok (x', b)) :
    x'.instructions = x.instructions ++ [d] ∧
      x'.lastRegisterWriter = (append x c d).lastRegisterWriter ∧
      x'.lastStoreByLine = (append x c d).lastStoreByLine ∧ (x'.vectorState = x.vectorState ∨
        vectorStateFromOperands x.registers x.vectorState i.operands = .ok x'.vectorState) := by
  obtain ⟨r, hr, h⟩ := ok_bind.mp h
  rw [hrec] at hr
  cases hr
  obtain ⟨y, hy, h⟩ := ok_bind.mp h
  have hframe := updateScalarState_frame hy
  split at h
  · cases h
    exact hframe
  · obtain ⟨taken, -, h⟩ := ok_bind.mp h
    split at h
    · split at h
      · cases h
      · split at h
        · cases h
        · cases h
          exact hframe
    · cases h
      exact hframe

/-! ### The tables -/

/-- The registers an instruction is recorded to write, but for `zero`. -/
def writtenRegisters (d : Instruction) : List String := d.registerWrites.filter (· ≠ "zero")

theorem record_id {i : StaticInstruction} {c : List String} {d : Instruction}
    (h : record p x i = .ok (c, d)) : d.id = x.instructions.length := by
  obtain ⟨_, -, h⟩ := ok_bind.mp h
  obtain ⟨_, -, h⟩ := ok_bind.mp h
  dsimp only at h
  split at h
  · cases h
  · obtain ⟨_, -, h⟩ := ok_bind.mp h
    cases h
    rfl

/-- Where the tables stand after some visits from the start. -/
structure Tables (vs : List Visit) (x : Execution) : Prop where
  instructions : x.instructions = vs.map (·.dynamic)
  registers : Tracks (vs.map fun v => writtenRegisters v.dynamic) x.lastRegisterWriter
  lines : Tracks (vs.map fun v => storedLines v.dynamic) x.lastStoreByLine

theorem Tables.snoc {vs : List Visit} {i : StaticInstruction} {c : List String} {d : Instruction} {b : Bool}
    (h : Tables vs x) (hrec : record p x i = .ok (c, d)) (hstep : step p x i = .ok (x', b)) :
    Tables (vs ++ [⟨x, i, d⟩]) x' := by
  obtain ⟨hinstr, hwriter, hstore, -⟩ := step_frame hrec hstep
  have hid : d.id = vs.length := by
    rw [record_id hrec, h.instructions, List.length_map]
  refine ⟨?_, ?_, ?_⟩
  · rw [hinstr, h.instructions, List.map_append]
    rfl
  · rw [List.map_append, hwriter]
    refine tracks_append h.registers (fun r hr => ?_) fun r hr => ?_
    · have hw : r ∈ d.registerWrites ∧ r ≠ "zero" := by simpa [writtenRegisters] using hr
      simp only [append, if_pos hw, hid, List.length_map]
    · have hw : ¬ (r ∈ d.registerWrites ∧ r ≠ "zero") := by simpa [writtenRegisters] using hr
      simp only [append, if_neg hw]
  · rw [List.map_append, hstore]
    refine tracks_append h.lines (fun l hl => ?_) fun l hl => ?_
    · simp only [append, if_pos (mem_storedLines.mp hl), hid, List.length_map]
    · simp only [append, if_neg (mt mem_storedLines.mpr hl)]

theorem tables_initial (count vlenBits : ℕ) : Tables [] (initial count vlenBits) :=
  ⟨rfl, tracks_nil, tracks_nil⟩

/-- At every visit of a run the tables are those of the visits before, and what it records is
what the state and the instruction say. -/
structure VisitOk (p : Program) (vs : List Visit) (k : ℕ) (v : Visit) : Prop where
  fetched : v.item ∈ p.static
  recorded : ∃ c, record p v.state v.item = .ok (c, v.dynamic)
  tables : Tables (vs.take k) v.state

/-- The visits are some in a row, also of a loop that raises. -/
theorem visits_visits {x₀ : Execution} : ∀ (n : ℕ) {vs : List Visit} {x : Execution}, Visits p x₀ vs x →
    ∃ x', Visits p x₀ (vs ++ visits p n x) x'
  | 0, vs, x, hv => ⟨x, by simpa [visits] using hv⟩
  | n + 1, vs, x, hv => by
    unfold visits
    cases hi : p.static[x.pc]? with
    | none => exact ⟨x, by simpa using hv⟩
    | some i =>
      dsimp only
      cases hrec : record p x i with
      | error e => exact ⟨x, by simpa using hv⟩
      | ok d =>
        cases hstep : step p x i with
        | error e => exact ⟨x, by simpa using hv⟩
        | ok r =>
          have hnext := Visits.snoc hv hi hrec hstep
          dsimp only
          by_cases hgoes : r.2 = true
          · rw [if_pos hgoes, ← List.singleton_append, ← List.append_assoc]
            exact visits_visits n hnext
          · rw [if_neg hgoes]
            exact ⟨r.1, hnext⟩

theorem Visits.tables {count vlenBits : ℕ} {vs : List Visit} (h : Visits p (initial count vlenBits) vs x) :
    Tables vs x ∧ ∀ k v, vs[k]? = some v → VisitOk p vs k v := by
  induction h with
  | nil => exact ⟨tables_initial count vlenBits, fun k v hv => by simp at hv⟩
  | @snoc vs y i c d y' b _ fetched recorded stepped ih =>
    refine ⟨ih.1.snoc recorded stepped, fun k v hv => ?_⟩
    by_cases hk : k < vs.length
    · rw [List.getElem?_append_left hk] at hv
      obtain ⟨hf, hr, ht⟩ := ih.2 k v hv
      exact ⟨hf, hr, by rw [List.take_append_of_le_length hk.le]; exact ht⟩
    · have hlt := (List.getElem?_eq_some_iff.mp hv).1
      rw [List.length_append, List.length_singleton] at hlt
      obtain rfl : k = vs.length := by omega
      have hnew : (vs ++ [(⟨y, i, d⟩ : Visit)])[vs.length]? = some ⟨y, i, d⟩ := by simp
      rw [hnew] at hv
      cases hv
      refine ⟨List.mem_of_getElem? fetched, ⟨c, recorded⟩, ?_⟩
      rw [List.take_left]
      exact ih.1

/-- Every visit of a run is one, also of a run that raises. -/
theorem visitOk {n count vlenBits k : ℕ} {v : Visit} (h : (visits p n (initial count vlenBits))[k]? = some v) :
    VisitOk p (visits p n (initial count vlenBits)) k v := by
  obtain ⟨x', hv⟩ := visits_visits (p := p) n (.nil (x := initial count vlenBits))
  rw [List.nil_append] at hv
  exact hv.tables.2 k v h

/-- **The trace is what the visits record.** -/
theorem buildDynamicTrace_visits {count vlenBits : ℕ} {trace : List Instruction}
    (h : buildDynamicTrace p count vlenBits = .ok trace) :
    (visits p (10000 + count * 256) (initial count vlenBits)).map (·.dynamic) = trace ∧
      ∀ k v, (visits p (10000 + count * 256) (initial count vlenBits))[k]? = some v →
        VisitOk p (visits p (10000 + count * 256) (initial count vlenBits)) k v := by
  obtain ⟨_, -, h⟩ := ok_bind.mp h
  obtain ⟨_, -, h⟩ := ok_bind.mp h
  obtain ⟨x, hx, h⟩ := ok_bind.mp h
  cases h
  have hv := loop_visits _ .nil hx
  rw [List.nil_append] at hv
  obtain ⟨htables, hall⟩ := hv.tables
  exact ⟨htables.instructions.symm, hall⟩

end Rvv
end VectorSim
