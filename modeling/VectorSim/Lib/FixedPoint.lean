/-
# Fixed points of two procedures

Two procedures are repeated, one after the other, until a turn in which
neither changes anything. `run` is that loop with a number of turns it may
make; the rules say that it is a sequence of the procedures' steps
(`run_steps`), what its last turn looked like (`run_last`), and that enough
turns are enough where a measure goes down at every change (`run_raises`).
-/
import VectorSim.Lib.Checked

namespace FixedPoint

open Checked

variable {σ ε : Type} (first : σ → Bool × σ) (second : σ → Except ε (Bool × σ)) (exhausted : ε)

/-- The loop: each procedure says whether it changed anything, and the state after it. -/
def run : ℕ → σ → Except ε σ
  | 0, _ => .error exhausted
  | turns + 1, s => do
    let c := first s
    let r ← second c.2
    if c.1 || r.1 then run turns r.2 else .ok r.2

variable {first second exhausted}

/-- The loop goes where its procedures go. -/
theorem run_steps {R : σ → σ → Prop} {turns : ℕ} {s s' : σ} (h : run first second exhausted turns s = .ok s')
    (trans : ∀ {a b c}, R a b → R b c → R a c)
    (hfirst : ∀ s, R s (first s).2) (hsecond : ∀ s r, second s = .ok r → R s r.2) : R s s' := by
  induction turns generalizing s with
  | zero => cases h
  | succ turns ih =>
    obtain ⟨r, hr, h⟩ := ok_bind.mp h
    have hturn := trans (hfirst s) (hsecond _ _ hr)
    split at h
    · exact trans hturn (ih h)
    · cases h; exact hturn

/-- In the last turn neither procedure changed anything. -/
theorem run_last {R : σ → σ → Prop} {turns : ℕ} {s s' : σ} (h : run first second exhausted turns s = .ok s')
    (refl : ∀ s, R s s) (trans : ∀ {a b c}, R a b → R b c → R a c)
    (hfirst : ∀ s, R s (first s).2) (hsecond : ∀ s r, second s = .ok r → R s r.2) :
    ∃ s₀ s₁, R s s₀ ∧ first s₀ = (false, s₁) ∧ second s₁ = .ok (false, s') := by
  induction turns generalizing s with
  | zero => cases h
  | succ turns ih =>
    obtain ⟨r, hr, h⟩ := ok_bind.mp h
    split at h
    · obtain ⟨s₀, s₁, h₀, h₁⟩ := ih h
      exact ⟨s₀, s₁, trans (trans (hfirst s) (hsecond _ _ hr)) h₀, h₁⟩
    · next hc =>
      cases h
      obtain ⟨hf, hs⟩ : (first s).1 = false ∧ r.1 = false := by simpa using hc
      refine ⟨s, (first s).2, refl s, Prod.ext hf rfl, ?_⟩
      rw [hr]
      exact congrArg _ (Prod.ext hs rfl)

/-- The errors of the loop are those of its second procedure, where every change makes a
measure smaller and the measure is less than the number of turns. -/
theorem run_raises {P : σ → Prop} {Q : ε → Prop} {μ : σ → ℕ} {turns : ℕ} {s : σ} (hs : P s)
    (hμ : μ s < turns) (hfirst : ∀ s, P s → P (first s).2 ∧ μ (first s).2 + (first s).1.toNat ≤ μ s)
    (hsecond : ∀ s r, P s → second s = .ok r → P r.2 ∧ μ r.2 + r.1.toNat ≤ μ s)
    (hraises : ∀ s, P s → Raises Q (second s)) : Raises Q (run first second exhausted turns s) := by
  induction turns generalizing s with
  | zero => exact absurd hμ (Nat.not_lt_zero _)
  | succ turns ih =>
    obtain ⟨h1, h2⟩ := hfirst s hs
    refine (hraises _ h1).bind fun r hr => ?_
    obtain ⟨h3, h4⟩ := hsecond _ _ h1 hr
    split
    · next hc =>
      have hpos : 1 ≤ (first s).1.toNat + r.1.toNat := by
        rcases Bool.or_eq_true_iff.mp hc with hc | hc <;> simp [hc]
      exact ih h3 (by omega)
    · exact raises_ok

/-- Two loops whose procedures a map carries into each other: so it does the loops. -/
theorem run_map {τ : Type} {φ : σ → τ} {first' : τ → Bool × τ} {second' : τ → Except ε (Bool × τ)}
    (hfirst : ∀ s, first' (φ s) = ((first s).1, φ (first s).2))
    (hsecond : ∀ s, second' (φ s) = (second s).map fun r => (r.1, φ r.2)) (turns : ℕ) (s : σ) :
    run first' second' exhausted turns (φ s) = (run first second exhausted turns s).map φ := by
  induction turns generalizing s with
  | zero => rfl
  | succ turns ih =>
    unfold run
    dsimp only
    rw [hfirst, hsecond]
    cases second (first s).2 with
    | error e => rfl
    | ok r =>
      show (if (first s).1 || r.1 then run first' second' exhausted turns (φ r.2) else .ok (φ r.2)) =
        (if (first s).1 || r.1 then run first second exhausted turns r.2 else .ok r.2).map φ
      split
      · exact ih r.2
      · rfl

/-- Two loops whose procedures are in step, up to errors of `Q`, are so themselves. -/
theorem run_upTo {τ : Type} {Q : ε → Prop} {first' : τ → Bool × τ} {second' : τ → Except ε (Bool × τ)}
    {R : σ → τ → Prop}
    (hfirst : ∀ s t, R s t → (first' t).1 = (first s).1 ∧ R (first s).2 (first' t).2)
    (hsecond : ∀ s t, R s t → UpTo Q (fun r r' => r'.1 = r.1 ∧ R r.2 r'.2) (second s) (second' t))
    (turns : ℕ) {s : σ} {t : τ} (h : R s t) :
    UpTo Q R (run first second exhausted turns s) (run first' second' exhausted turns t) := by
  induction turns generalizing s t with
  | zero => exact upTo_error exhausted
  | succ turns ih =>
    obtain ⟨hc, hs⟩ := hfirst s t h
    unfold run
    refine (hsecond _ _ hs).bind fun r r' _ hr => ?_
    rw [hc, hr.1]
    split
    · exact ih hr.2
    · exact upTo_ok hr.2

end FixedPoint
