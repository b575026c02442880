/-
# Event loops that end

A simulator's loop ends where its work gets done. Between two pieces of work it may
visit ticks at which nothing happens, but only up to a tick at which something is due.
`exists_ends` is that argument, for any loop: a measure of the work, and for each state
a due tick that the loop keeps while it does nothing. `Steady` says what a simulator has to
show for it: that nothing is under way for ever, and that with nothing under way it works.
-/
import VectorSim.Lib.EventLoop

namespace EventLoop

open Checked

variable {σ ε : Type} {L : Loop σ ε}

/-- One iteration in a state that has something due at `h`: the work goes down, or it is
not yet `h` and the state goes on with the same due tick. -/
def Advances (L : Loop σ ε) (P : ℕ → σ → Prop) (Due : ℕ → ℕ → σ → Prop) (μ : σ → ℕ) (h now : ℕ) (s : σ) : Prop :=
  ∃ s₁, L.visit now s = .ok s₁ ∧ (L.unfinished s₁ = true → ∃ s₂ t, L.next now s₁ = .ok (s₂, t) ∧ now < t ∧
    P t s₂ ∧ L.unfinished s₂ = true ∧ (μ s₂ < μ s ∨ μ s₂ = μ s ∧ now < h ∧ Due h t s₂))

/-- An iteration comes before the rest of the loop. -/
theorem exists_ends_succ {now t : ℕ} {s s₁ s₂ : σ} (hu : L.unfinished s = true) (hv : L.visit now s = .ok s₁)
    (hu₁ : L.unfinished s₁ = true) (hn : L.next now s₁ = .ok (s₂, t)) (hlt : now < t) (hu₂ : L.unfinished s₂ = true)
    (h : ∃ n s' t', Ends L n t s₂ s' t') : ∃ n s' t', Ends L n now s s' t' := by
  obtain ⟨n, s', t', he⟩ := h
  have hpos : 0 < n := by
    rcases Nat.eq_zero_or_pos n with rfl | hpos
    · have := (ends_zero_iff.mp he).1
      simp [hu₂] at this
    · exact hpos
  exact ⟨n + 1, s', t', ends_succ_iff.mpr ⟨hu, s₁, hv, .inr ⟨hu₁, s₂, t, hn, hlt, he, hpos⟩⟩⟩

/-- **A loop that always has something due, and advances, ends.** -/
theorem exists_ends {P : ℕ → σ → Prop} {Due : ℕ → ℕ → σ → Prop} {μ : σ → ℕ}
    (due : ∀ now s, P now s → L.unfinished s = true → ∃ h, Due h now s)
    (step : ∀ h now s, P now s → L.unfinished s = true → Due h now s → Advances L P Due μ h now s)
    {now : ℕ} {s : σ} (hs : P now s) : ∃ n s' t, Ends L n now s s' t := by
  -- on the work first, and then on the time that is left
  have key : ∀ m k h now s, P now s → L.unfinished s = true → Due h now s → μ s = m → h - now = k →
      ∃ n s' t, Ends L n now s s' t := by
    intro m
    induction m using Nat.strongRecOn with
    | ind m ihWork =>
      intro k
      induction k using Nat.strongRecOn with
      | ind k ihTime =>
        intro h now s hs hu hdue hm hk
        obtain ⟨s₁, hv, hrest⟩ := step h now s hs hu hdue
        cases hu₁ : L.unfinished s₁ with
        | false => exact ⟨1, s₁, now, ends_succ_iff.mpr ⟨hu, s₁, hv, .inl ⟨rfl, hu₁, rfl, rfl⟩⟩⟩
        | true =>
          obtain ⟨s₂, t, hn, hlt, hs₂, hu₂, hless | ⟨hsame, hearly, hdue₂⟩⟩ := hrest hu₁
          · obtain ⟨h', hdue'⟩ := due t s₂ hs₂ hu₂
            exact exists_ends_succ hu hv hu₁ hn hlt hu₂
              (ihWork (μ s₂) (hm ▸ hless) _ h' t s₂ hs₂ hu₂ hdue' rfl rfl)
          · have htime : h - t < k := by omega
            exact exists_ends_succ hu hv hu₁ hn hlt hu₂
              (ihTime (h - t) htime h t s₂ hs₂ hu₂ hdue₂ (hsame.trans hm) rfl)
  cases hu : L.unfinished s with
  | false => exact ⟨0, s, now, ends_zero_iff.mpr ⟨hu, rfl, rfl⟩⟩
  | true =>
    obtain ⟨h, hdue⟩ := due now s hs hu
    exact key (μ s) (h - now) h now s hs hu hdue rfl rfl

/-- A loop under which the invariant `P` holds, in which a visit or a jump does some of the work
`μ` or leaves the state `Still`; which nothing keeps from working at a tick that `begins` a
cycle, where nothing under way reaches beyond it (`Calm`); and which jumps over no such tick. -/
structure Steady (L : Loop σ ε) (P : ℕ → σ → Prop) (μ : σ → ℕ) (Still : σ → σ → Prop) (Calm : ℕ → σ → Prop)
    (begins : ℕ → Prop) : Prop where
  calm : ∀ now s, ∃ h, begins h ∧ now ≤ h ∧ Calm h s
  visit : ∀ {now s}, P now s → L.unfinished s = true → ∃ s₁, L.visit now s = .ok s₁ ∧ (μ s₁ < μ s ∨ Still s s₁)
  works : ∀ {now s s₁}, P now s → L.unfinished s = true → begins now → Calm now s → L.visit now s = .ok s₁ → μ s₁ < μ s
  next : ∀ {now s s₁}, P now s → L.unfinished s = true → L.visit now s = .ok s₁ → L.unfinished s₁ = true →
    ∃ s₂ t, L.next now s₁ = .ok (s₂, t) ∧ now < t ∧ P t s₂ ∧ Still s₁ s₂ ∧ ∀ h, begins h → now < h → t ≤ h
  still : ∀ {s s'}, Still s s' → μ s' = μ s ∧ L.unfinished s' = L.unfinished s ∧ ∀ h, Calm h s → Calm h s'

/-- **A steady loop ends.** -/
theorem Steady.exists_ends {P : ℕ → σ → Prop} {μ : σ → ℕ} {Still : σ → σ → Prop} {Calm : ℕ → σ → Prop}
    {begins : ℕ → Prop} (hL : Steady L P μ Still Calm begins) {now : ℕ} {s : σ} (hs : P now s) :
    ∃ n s' t, Ends L n now s s' t := by
  have hadvances : ∀ h now s, P now s → L.unfinished s = true → (begins h ∧ now ≤ h ∧ Calm h s) →
      Advances L P (fun h now s => begins h ∧ now ≤ h ∧ Calm h s) μ h now s := by
    rintro h now s hs hu ⟨hb, hle, hc⟩
    obtain ⟨s₁, hv, hmoves⟩ := hL.visit hs hu
    refine ⟨s₁, hv, fun hu₁ => ?_⟩
    obtain ⟨s₂, t, hn, hlt, hP, hstill, hjump⟩ := hL.next hs hu hv hu₁
    obtain ⟨hsame, hfin, hcalm⟩ := hL.still hstill
    refine ⟨s₂, t, hn, hlt, hP, hfin.trans hu₁, ?_⟩
    rcases hmoves with hless | hidle
    · exact .inl (by omega)
    · obtain ⟨hsame₁, -, hcalm₁⟩ := hL.still hidle
      -- a visit that does nothing is not the one at the due tick
      have hnow : now < h := by
        rcases Nat.lt_or_ge now h with hlt | hge
        · exact hlt
        · obtain rfl : now = h := by omega
          have := hL.works hs hu hb hc hv
          omega
      exact .inr ⟨hsame.trans hsame₁, hnow, hb, hjump h hb hnow, hcalm h (hcalm₁ h hc)⟩
  exact EventLoop.exists_ends (fun now s _ _ => hL.calm now s) hadvances hs

end EventLoop
