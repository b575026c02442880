/-
# The trail of a bounded loop

A loop that makes turns until there is none left, until a turn says stop or
until a turn raises, with a bound on their number. `trail` is what its turns
saw: the state before each, what the turn says of itself and the state after.
An invariant of the turns made so far holds before every one of them and at the
end (`run_invariant`).
-/
import Mathlib.Data.List.Basic
import Mathlib.Tactic.Common

namespace Trail

variable {σ δ ε : Type} (step : σ → Option (Except ε (δ × σ × Bool)))

/-- A turn: the state before, what it says, the state after. -/
structure Turn (σ δ : Type) where
  before : σ
  item : δ
  after : σ

/-- The loop, with the error of a bound that is exceeded. -/
def run (exceeded : ε) : ℕ → σ → Except ε σ
  | 0, x => if (step x).isSome then .error exceeded else .ok x
  | n + 1, x =>
    match step x with
    | none => .ok x
    | some (.error e) => .error e
    | some (.ok (_, y, goesOn)) => if goesOn then run exceeded n y else .ok y

/-- The turns of the loop. -/
def trail : ℕ → σ → List (Turn σ δ)
  | 0, _ => []
  | n + 1, x =>
    match step x with
    | some (.ok (d, y, goesOn)) => ⟨x, d, y⟩ :: if goesOn then trail n y else []
    | _ => []

variable {step} {exceeded : ε}

/-- The turn is one of the loop's. -/
def Makes (step : σ → Option (Except ε (δ × σ × Bool))) (t : Turn σ δ) : Prop :=
  ∃ b, step t.before = some (.ok (t.item, t.after, b))

/-- An invariant of the turns made so far, through some turns more. -/
theorem trail_from {I : List (Turn σ δ) → σ → Prop}
    (next : ∀ ts x t, I ts x → t.before = x → Makes step t → I (ts ++ [t]) t.after) :
    ∀ (n : ℕ) {ts : List (Turn σ δ)} {x : σ}, I ts x →
      ∀ k t, (trail step n x)[k]? = some t → I (ts ++ (trail step n x).take k) t.before ∧ Makes step t
  | 0, ts, x, _, k, t, ht => by simp [trail] at ht
  | n + 1, ts, x, hI, k, t, ht => by
    unfold trail at ht ⊢
    split at ht
    · next d z goesOn hs =>
      have hmakes : Makes step (⟨x, d, z⟩ : Turn σ δ) := ⟨goesOn, hs⟩
      cases k with
      | zero =>
        cases ht
        exact ⟨by simpa using hI, hmakes⟩
      | succ k =>
        cases goesOn with
        | false => simp at ht
        | true =>
          obtain ⟨hbefore, hm⟩ := trail_from next n (next ts x ⟨x, d, z⟩ hI rfl hmakes) k t ht
          exact ⟨by simpa [hs] using hbefore, hm⟩
    · simp at ht

/-- An invariant of the turns made so far, at the end of the loop. -/
theorem run_from {I : List (Turn σ δ) → σ → Prop}
    (next : ∀ ts x t, I ts x → t.before = x → Makes step t → I (ts ++ [t]) t.after) :
    ∀ (n : ℕ) {ts : List (Turn σ δ)} {x y : σ}, I ts x → run step exceeded n x = .ok y → I (ts ++ trail step n x) y
  | 0, ts, x, y, hI, h => by
    unfold run at h
    split at h
    · cases h
    · cases h
      simpa [trail] using hI
  | n + 1, ts, x, y, hI, h => by
    unfold run at h
    unfold trail
    cases hs : step x with
    | none =>
      rw [hs] at h
      cases h
      simpa using hI
    | some r =>
      rw [hs] at h
      rcases r with e | ⟨d, z, goesOn⟩
      · cases h
      · dsimp only at h ⊢
        have hnext := next ts x ⟨x, d, z⟩ hI rfl ⟨goesOn, hs⟩
        cases goesOn with
        | false =>
          cases h
          exact hnext
        | true =>
          have hend := run_from next n hnext h
          simpa using hend

/-- **An invariant of the turns made so far** holds before every one of them, also of a loop that
raises. -/
theorem trail_invariant {I : List (Turn σ δ) → σ → Prop} {n : ℕ} {x : σ} (start : I [] x)
    (next : ∀ ts x t, I ts x → t.before = x → Makes step t → I (ts ++ [t]) t.after) (k : ℕ) (t : Turn σ δ)
    (ht : (trail step n x)[k]? = some t) : I ((trail step n x).take k) t.before ∧ Makes step t := by
  simpa using trail_from next n start k t ht

/-- **An invariant of the turns made so far** holds before every turn and at the end. -/
theorem run_invariant {I : List (Turn σ δ) → σ → Prop} {n : ℕ} {x y : σ} (start : I [] x)
    (next : ∀ ts x t, I ts x → t.before = x → Makes step t → I (ts ++ [t]) t.after)
    (h : run step exceeded n x = .ok y) :
    I (trail step n x) y ∧
      ∀ k t, (trail step n x)[k]? = some t → I ((trail step n x).take k) t.before ∧ Makes step t := by
  have hend := run_from next n start h
  exact ⟨by simpa using hend, trail_invariant start next⟩

end Trail
