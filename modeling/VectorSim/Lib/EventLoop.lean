/-
# Event loops

A simulator's main loop: while there is work, visit the current tick, ask for
the next tick and jump there, with a guard on the number of visits. `run` is
the loop as it is written, `Ends` says what it computes without the guard, and
the rules are the ones a proof about such a loop needs: an invariant of the
visits is one of the run (`run_invariant`), the guard cuts off exactly the runs
that need more visits (`run_ok_iff`, `Ends.run_diverged`), and jumping over
ticks whose visits change nothing is the same as visiting them
(`ends_everyTick`).
-/
import VectorSim.Lib.Checked

namespace EventLoop

open Checked

structure Loop (σ ε : Type) where
  /-- The loop condition. -/
  unfinished : σ → Bool
  visit : ℕ → σ → Except ε σ
  /-- The next tick to visit; finding it may change the state. -/
  next : ℕ → σ → Except ε (σ × ℕ)
  /-- The error of a loop that does not get ahead of a tick. -/
  stuck : ℕ → ε
  /-- The error of the guard. -/
  diverged : ε

variable {σ ε : Type} (L : Loop σ ε)

/-- The loop, with a number of visits it may still make: the state it ends in and the
last tick it visited. -/
def run : ℕ → ℕ → σ → Except ε (σ × ℕ)
  | fuel, now, s =>
    if L.unfinished s then
      match fuel with
      | 0 => .error L.diverged
      | fuel + 1 => do
        let s ← L.visit now s
        if L.unfinished s then do
          let r ← L.next now s
          if r.2 ≤ now then .error (L.stuck now) else run fuel r.2 r.1
        else .ok (s, now)
    else .ok (s, now)

/-- One iteration that does not end the loop. -/
structure Jump (now : ℕ) (s : σ) (t : ℕ) (s' : σ) : Prop where
  unfinished : L.unfinished s
  jump : ∃ s₁, L.visit now s = .ok s₁ ∧ L.unfinished s₁ ∧ L.next now s₁ = .ok (s', t) ∧ now < t

/-- Where the loop is after a number of iterations. -/
inductive Reaches : ℕ → ℕ → σ → ℕ → σ → Prop
  | zero {now s} : Reaches 0 now s now s
  | succ {n now s t s₁ t' s'} (first : Jump L now s t s₁) (rest : Reaches n t s₁ t' s') :
      Reaches (n + 1) now s t' s'

/-- The same with the visits made on the way. -/
inductive Path : List (ℕ × σ) → ℕ → σ → ℕ → σ → Prop
  | zero {now s} : Path [] now s now s
  | succ {vs now s t s₁ t' s'} (first : Jump L now s t s₁) (rest : Path vs t s₁ t' s') :
      Path ((now, s) :: vs) now s t' s'

/-- The unguarded loop ends after `n` visits. -/
def Ends (n now : ℕ) (s s' : σ) (t : ℕ) : Prop :=
  (n = 0 ∧ L.unfinished s = false ∧ s' = s ∧ t = now) ∨
    ∃ k s₁, n = k + 1 ∧ Reaches L k now s t s₁ ∧ L.unfinished s₁ = true ∧
      L.visit t s₁ = .ok s' ∧ L.unfinished s' = false

variable {L}

theorem Reaches.trans {n m now t t' : ℕ} {s s₁ s' : σ} (h : Reaches L n now s t s₁)
    (h' : Reaches L m t s₁ t' s') : Reaches L (n + m) now s t' s' := by
  induction h with
  | zero => simpa using h'
  | succ first _ ih =>
    rw [Nat.add_right_comm]
    exact .succ first (ih h')

theorem Path.reaches {vs : List (ℕ × σ)} {now t : ℕ} {s s' : σ} (h : Path L vs now s t s') :
    Reaches L vs.length now s t s' := by
  induction h with
  | zero => exact .zero
  | succ first _ ih => exact .succ first ih

theorem Reaches.path {n now t : ℕ} {s s' : σ} (h : Reaches L n now s t s') :
    ∃ vs, vs.length = n ∧ Path L vs now s t s' := by
  induction h with
  | zero => exact ⟨[], rfl, .zero⟩
  | succ first _ ih =>
    obtain ⟨vs, hlen, hvs⟩ := ih
    exact ⟨_ :: vs, congrArg (· + 1) hlen, .succ first hvs⟩

/-- The loop has been at the visits it has made. -/
theorem Path.mem {vs : List (ℕ × σ)} {now t : ℕ} {s s' : σ} (h : Path L vs now s t s') :
    ∀ v ∈ vs, ∃ n, Reaches L n now s v.1 v.2 := by
  induction h with
  | zero => intro v hv; cases hv
  | succ first _ ih =>
    intro v hv
    rcases List.mem_cons.mp hv with rfl | hv
    · exact ⟨0, .zero⟩
    · obtain ⟨n, hn⟩ := ih v hv
      exact ⟨n + 1, .succ first hn⟩

/-- A number of iterations, computed: the visits, the tick and the state. -/
def follow (L : Loop σ ε) : ℕ → ℕ → σ → Option (List (ℕ × σ) × ℕ × σ)
  | 0, now, s => some ([], now, s)
  | n + 1, now, s =>
    if L.unfinished s then
      match L.visit now s with
      | .error _ => none
      | .ok s₁ =>
        if L.unfinished s₁ then
          match L.next now s₁ with
          | .error _ => none
          | .ok (s₂, t) => if now < t then (follow L n t s₂).map fun r => ((now, s) :: r.1, r.2) else none
        else none
    else none

theorem follow_path {vs : List (ℕ × σ)} {n now t : ℕ} {s s' : σ} (h : follow L n now s = some (vs, t, s')) :
    Path L vs now s t s' ∧ vs.length = n := by
  induction n generalizing now s vs with
  | zero => cases h; exact ⟨.zero, rfl⟩
  | succ n ih =>
    unfold follow at h
    split at h
    · next hu =>
      split at h
      · cases h
      · next s₁ hv =>
        split at h
        · next hu₁ =>
          split at h
          · cases h
          · next s₂ t₂ hn =>
            split at h
            · next hlt =>
              obtain ⟨⟨vs', t', s₃⟩, hr, he⟩ := Option.map_eq_some_iff.mp h
              cases he
              obtain ⟨hpath, hlen⟩ := ih hr
              exact ⟨.succ ⟨hu, s₁, hv, hu₁, hn, hlt⟩ hpath, congrArg (· + 1) hlen⟩
            · cases h
        · cases h
    · cases h

/-- A check of every visit the loop makes, until it ends or has made a number of them. -/
def always (L : Loop σ ε) (p : ℕ → σ → Bool) : ℕ → ℕ → σ → Bool
  | 0, _, s => !L.unfinished s
  | n + 1, now, s =>
    if L.unfinished s then
      p now s && match L.visit now s with
        | .error _ => true
        | .ok s₁ => match L.next now s₁ with
          | .error _ => true
          | .ok (s₂, t) => !L.unfinished s₁ || t ≤ now || always L p n t s₂
    else true

theorem always_reaches {p : ℕ → σ → Bool} {m n now t : ℕ} {s s' : σ} (h : always L p m now s = true)
    (hr : Reaches L n now s t s') (hu : L.unfinished s' = true) : p t s' = true := by
  induction m generalizing n now s with
  | zero =>
    have hdone : L.unfinished s = false := by simpa [always] using h
    cases hr with
    | zero => rw [hdone] at hu; cases hu
    | succ first _ =>
      have := first.unfinished
      rw [hdone] at this
      cases this
  | succ m ih =>
    unfold always at h
    cases hr with
    | zero =>
      rw [if_pos hu, Bool.and_eq_true] at h
      exact h.1
    | succ first rest =>
      obtain ⟨s₁, hv, hu₁, hn, hlt⟩ := first.jump
      rw [if_pos first.unfinished, hv, Bool.and_eq_true] at h
      dsimp only at h
      rw [hn] at h
      refine ih ?_ rest
      simpa [hu₁, Nat.not_le.mpr hlt] using h.2

/-- Time does not go back. -/
theorem Reaches.le {n now t : ℕ} {s s' : σ} (h : Reaches L n now s t s') : now ≤ t := by
  induction h with
  | zero => exact Nat.le_refl _
  | succ first _ ih =>
    obtain ⟨s₁, -, -, -, hlt⟩ := first.jump
    exact Nat.le_trans (Nat.le_of_lt hlt) ih

/-- The rule with two assertions: `P` at the head of the loop, `Q` after a visit. -/
theorem Reaches.alternate {P Q : ℕ → σ → Prop} {n now t : ℕ} {s s' : σ}
    (h : Reaches L n now s t s') (hs : P now s)
    (visit : ∀ now s s', P now s → L.unfinished s → L.visit now s = .ok s' → Q now s')
    (next : ∀ now s s' t, Q now s → L.next now s = .ok (s', t) → now < t → P t s') : P t s' := by
  induction h with
  | zero => exact hs
  | succ first _ ih =>
    obtain ⟨s₁, hv, -, hn, hlt⟩ := first.jump
    exact ih (next _ _ _ _ (visit _ _ _ hs first.unfinished hv) hn hlt)

/-- What every iteration keeps holds wherever the loop is. -/
theorem Reaches.invariant {P : ℕ → σ → Prop} {n now t : ℕ} {s s' : σ} (h : Reaches L n now s t s')
    (hs : P now s)
    (visit : ∀ now s s', P now s → L.unfinished s → L.visit now s = .ok s' → P now s')
    (next : ∀ now s s' t, P now s → L.next now s = .ok (s', t) → now < t → P t s') : P t s' :=
  h.alternate hs visit next

theorem ends_succ_iff {n now t : ℕ} {s s' : σ} : Ends L (n + 1) now s s' t ↔
    L.unfinished s = true ∧ ∃ s₁, L.visit now s = .ok s₁ ∧
      (n = 0 ∧ L.unfinished s₁ = false ∧ s' = s₁ ∧ t = now ∨
        L.unfinished s₁ = true ∧ ∃ s₂ t', L.next now s₁ = .ok (s₂, t') ∧ now < t' ∧
          Ends L n t' s₂ s' t ∧ 0 < n) := by
  constructor
  · rintro (⟨h, -⟩ | ⟨k, s₁, hk, hr, hu, hv, hf⟩)
    · cases h
    · obtain rfl : n = k := by omega
      cases hr with
      | zero => exact ⟨hu, s', hv, .inl ⟨rfl, hf, rfl, rfl⟩⟩
      | @succ k _ _ t' s₂ _ _ first rest =>
        obtain ⟨s₃, h1, h2, h3, h4⟩ := first.jump
        exact ⟨first.unfinished, s₃, h1, .inr ⟨h2, s₂, t', h3, h4,
          .inr ⟨k, s₁, rfl, rest, hu, hv, hf⟩, Nat.succ_pos k⟩⟩
  · rintro ⟨hu, s₁, hv, ⟨rfl, hf, rfl, rfl⟩ | ⟨hu', s₂, t', hn, hlt, he, hpos⟩⟩
    · exact .inr ⟨0, s, rfl, .zero, hu, hv, hf⟩
    · rcases he with ⟨rfl, -⟩ | ⟨k, s₃, rfl, hr, hu₃, hv₃, hf⟩
      · cases hpos
      · exact .inr ⟨k + 1, s₃, rfl, .succ ⟨hu, s₁, hv, hu', hn, hlt⟩ hr, hu₃, hv₃, hf⟩

theorem ends_zero_iff {now t : ℕ} {s s' : σ} :
    Ends L 0 now s s' t ↔ L.unfinished s = false ∧ s' = s ∧ t = now := by
  constructor
  · rintro (⟨-, h⟩ | ⟨k, s₁, hk, -⟩)
    · exact h
    · cases hk
  · exact fun h => .inl ⟨rfl, h⟩

/-- A loop that ends does so unfinished no more. -/
theorem Ends.finished {n now t : ℕ} {s s' : σ} (h : Ends L n now s s' t) :
    L.unfinished s' = false := by
  rcases h with ⟨-, h, rfl, -⟩ | ⟨_, _, -, -, -, -, h⟩ <;> exact h

/-- **The guard lets through the runs that end in time, and no other.** -/
theorem run_ok_iff {fuel now t : ℕ} {s s' : σ} (hnext : ∀ now s s' t, L.unfinished s = true →
      L.next now s = .ok (s', t) → L.unfinished s' = true) :
    run L fuel now s = .ok (s', t) ↔ ∃ n ≤ fuel, Ends L n now s s' t := by
  induction fuel generalizing now s with
  | zero =>
    unfold run
    constructor
    · intro h
      split at h
      · cases h
      · next hu =>
        cases h
        exact ⟨0, Nat.le_refl 0, ends_zero_iff.mpr ⟨by simpa using hu, rfl, rfl⟩⟩
    · rintro ⟨n, hn, h⟩
      obtain rfl : n = 0 := by omega
      obtain ⟨hu, rfl, rfl⟩ := ends_zero_iff.mp h
      rw [if_neg (by simp [hu])]
  | succ fuel ih =>
    unfold run
    by_cases hu : L.unfinished s = true
    · simp only [if_pos hu, ok_bind]
      constructor
      · rintro ⟨s₁, hv, h⟩
        split at h
        · next hu₁ =>
          obtain ⟨⟨s₂, t'⟩, hn, h⟩ := ok_bind.mp h
          split at h
          · cases h
          · next hlt =>
            obtain ⟨n, hle, he⟩ := ih.mp h
            refine ⟨n + 1, by omega, ends_succ_iff.mpr ⟨hu, s₁, hv, .inr ⟨hu₁, s₂, t', hn, by simpa using hlt, he, ?_⟩⟩⟩
            rcases n with _ | n
            · have := (ends_zero_iff.mp he).1
              rw [hnext _ _ _ _ hu₁ hn] at this
              cases this
            · exact Nat.succ_pos n
        · next hu₁ =>
          cases h
          exact ⟨1, by omega, ends_succ_iff.mpr ⟨hu, _, hv, .inl ⟨rfl, by simpa using hu₁, rfl, rfl⟩⟩⟩
      · rintro ⟨n, hle, he⟩
        rcases n with _ | n
        · rw [(ends_zero_iff.mp he).1] at hu
          cases hu
        · obtain ⟨-, s₁, hv, h⟩ := ends_succ_iff.mp he
          refine ⟨s₁, hv, ?_⟩
          rcases h with ⟨rfl, hf, rfl, rfl⟩ | ⟨hu₁, s₂, t', hn, hlt, he, -⟩
          · simp [hf]
          · rw [if_pos hu₁, ok_bind]
            exact ⟨(s₂, t'), hn, by rw [if_neg (by simpa using hlt)]; exact ih.mpr ⟨n, by omega, he⟩⟩
    · rw [if_neg hu]
      constructor
      · intro h
        cases h
        exact ⟨0, Nat.zero_le _, ends_zero_iff.mpr ⟨by simpa using hu, rfl, rfl⟩⟩
      · rintro ⟨n, -, he⟩
        rcases n with _ | n
        · obtain ⟨-, rfl, rfl⟩ := ends_zero_iff.mp he
          rfl
        · exact absurd (ends_succ_iff.mp he).1 hu

/-- The guard raises in a loop that is still going after that many visits. -/
theorem Reaches.run_diverged {fuel now t : ℕ} {s s' : σ} (h : Reaches L fuel now s t s')
    (hu : L.unfinished s' = true) : run L fuel now s = .error L.diverged := by
  induction h with
  | zero => rw [run, if_pos hu]
  | succ first _ ih =>
    obtain ⟨s₁, hv, hu₁, hn, hlt⟩ := first.jump
    have hrest := ih hu
    rw [run, if_pos first.unfinished]
    refine error_bind.mpr (.inr ⟨s₁, hv, ?_⟩)
    rw [if_pos hu₁]
    refine error_bind.mpr (.inr ⟨_, hn, ?_⟩)
    rw [if_neg (by simpa using hlt)]
    exact hrest

/-- Where a loop was after its first iterations. -/
theorem Reaches.take {m n now t : ℕ} {s s' : σ} (h : Reaches L n now s t s')
    (hu : L.unfinished s' = true) (hm : m ≤ n) :
    ∃ t₁ s₁, Reaches L m now s t₁ s₁ ∧ L.unfinished s₁ = true := by
  induction h generalizing m with
  | zero =>
    obtain rfl : m = 0 := by omega
    exact ⟨_, _, .zero, hu⟩
  | succ first rest ih =>
    rcases m with _ | m
    · exact ⟨_, _, .zero, first.unfinished⟩
    · obtain ⟨t₁, s₁, hr, hu₁⟩ := ih hu (Nat.le_of_succ_le_succ hm)
      exact ⟨t₁, s₁, .succ first hr, hu₁⟩

/-- The guard raises in a loop that ends too late. -/
theorem Ends.run_diverged {n fuel now t : ℕ} {s s' : σ} (h : Ends L n now s s' t) (hlt : fuel < n) :
    run L fuel now s = .error L.diverged := by
  rcases h with ⟨rfl, -⟩ | ⟨k, s₁, rfl, hr, hu, -⟩
  · exact absurd hlt (Nat.not_lt_zero _)
  · obtain ⟨t₁, s₂, hr, hu⟩ := hr.take hu (Nat.le_of_lt_succ hlt)
    exact hr.run_diverged hu

/-- What the run is worth where the loop ends. -/
theorem Ends.run_eq {n fuel now t : ℕ} {s s' : σ} (h : Ends L n now s s' t)
    (hnext : ∀ now s s' t, L.unfinished s = true → L.next now s = .ok (s', t) → L.unfinished s' = true) :
    run L fuel now s = if n ≤ fuel then .ok (s', t) else .error L.diverged := by
  by_cases hle : n ≤ fuel
  · rw [if_pos hle]
    exact (run_ok_iff hnext).mpr ⟨n, hle, h⟩
  · rw [if_neg hle]
    exact h.run_diverged (Nat.lt_of_not_le hle)

/-- Every iteration takes a tick at least. -/
theorem Reaches.add_le {n now t : ℕ} {s s' : σ} (h : Reaches L n now s t s') : now + n ≤ t := by
  induction h with
  | zero => exact Nat.le_refl _
  | succ first _ ih =>
    obtain ⟨s₁, -, -, -, hlt⟩ := first.jump
    omega

/-- A loop that visits every cycle has made an iteration for each. -/
theorem Reaches.cycle_le (cycle : ℕ → ℕ) {n now t : ℕ} {s s' : σ} (h : Reaches L n now s t s')
    (hnext : ∀ now s s' t, L.unfinished s = true → L.next now s = .ok (s', t) → cycle t ≤ cycle now + 1) :
    cycle t ≤ cycle now + n := by
  induction h with
  | zero => exact Nat.le_refl _
  | succ first _ ih =>
    obtain ⟨s₁, -, hu, hn, -⟩ := first.jump
    have := hnext _ _ _ _ hu hn
    omega

/-- What every visit and every jump keep, a run keeps. -/
theorem run_invariant {P : ℕ → σ → Prop} {fuel now t : ℕ} {s s' : σ}
    (h : run L fuel now s = .ok (s', t)) (hs : P now s)
    (visit : ∀ now s s', P now s → L.unfinished s → L.visit now s = .ok s' → P now s')
    (next : ∀ now s s' t, P now s → L.next now s = .ok (s', t) → now < t → P t s') :
    P t s' ∧ L.unfinished s' = false := by
  induction fuel generalizing now s with
  | zero =>
    unfold run at h
    split at h
    · cases h
    · next hu => cases h; exact ⟨hs, by simpa using hu⟩
  | succ fuel ih =>
    unfold run at h
    split at h
    · next hu =>
      obtain ⟨s₁, hv, h⟩ := ok_bind.mp h
      have hs₁ := visit _ _ _ hs hu hv
      split at h
      · obtain ⟨⟨s₂, t'⟩, hn, h⟩ := ok_bind.mp h
        split at h
        · cases h
        · next hlt => exact ih h (next _ _ _ _ hs₁ hn (by simpa using hlt))
      · next hu₁ => cases h; exact ⟨hs₁, by simpa using hu₁⟩
    · next hu => cases h; exact ⟨hs, by simpa using hu⟩

/-- A run ends where the loop is at some iteration, or with the visit of that iteration. -/
theorem run_reaches {fuel now t : ℕ} {s s' : σ} (h : run L fuel now s = .ok (s', t)) :
    ∃ n s₁, Reaches L n now s t s₁ ∧ (s' = s₁ ∨ L.visit t s₁ = .ok s') := by
  induction fuel generalizing now s with
  | zero =>
    unfold run at h
    split at h
    · cases h
    · cases h; exact ⟨0, s', .zero, .inl rfl⟩
  | succ fuel ih =>
    unfold run at h
    split at h
    · next hu =>
      obtain ⟨s₁, hv, h⟩ := ok_bind.mp h
      split at h
      · next hu₁ =>
        obtain ⟨⟨s₂, t'⟩, hn, h⟩ := ok_bind.mp h
        split at h
        · cases h
        · next hlt =>
          obtain ⟨n, s₃, hr, he⟩ := ih h
          exact ⟨n + 1, s₃, .succ ⟨hu, s₁, hv, hu₁, hn, by simpa using hlt⟩ hr, he⟩
      · cases h; exact ⟨0, s, .zero, .inr hv⟩
    · cases h; exact ⟨0, s', .zero, .inl rfl⟩

/-- A run raises what its visits and jumps raise, or its own two errors. -/
theorem raises_run {Q : ε → Prop} {fuel now : ℕ} {s : σ}
    (hvisit : ∀ n t s', Reaches L n now s t s' → Raises Q (L.visit t s'))
    (hnext : ∀ n t s₁ s₂, Reaches L n now s t s₁ → L.visit t s₁ = .ok s₂ → Raises Q (L.next t s₂))
    (hstuck : ∀ t, Q (L.stuck t)) (hdiverged : Q L.diverged) : Raises Q (run L fuel now s) := by
  induction fuel generalizing now s with
  | zero =>
    unfold run
    split
    · exact raises_error hdiverged
    · exact raises_ok
  | succ fuel ih =>
    unfold run
    split
    · next hu =>
      refine (hvisit 0 now s .zero).bind fun s₁ hv => ?_
      split
      · next hu₁ =>
        refine (hnext 0 now s s₁ .zero hv).bind fun r hr => ?_
        split
        · exact raises_error (hstuck now)
        · next hlt =>
          have hjump : Jump L now s r.2 r.1 := ⟨hu, s₁, hv, hu₁, hr, by simpa using hlt⟩
          exact ih (fun n t s' h => hvisit _ _ _ (.succ hjump h))
            fun n t s₂ s₃ h hv => hnext _ _ _ _ (.succ hjump h) hv
      · exact raises_ok
    · exact raises_ok

/-! ### Two loops in step -/

/-- Two loops whose visits and jumps keep a relation, unless the first raises an error of `Q`:
so do their runs. -/
theorem run_upTo {τ : Type} {Q : ε → Prop} {L' : Loop τ ε} {R : ℕ → σ → τ → Prop} {fuel now : ℕ} {s : σ} {s' : τ}
    (h : R now s s') (hunfinished : ∀ t s₁ s₁', R t s₁ s₁' → L'.unfinished s₁' = L.unfinished s₁)
    (hvisit : ∀ n t s₁ s₁', n < fuel → Reaches L n now s t s₁ → L.unfinished s₁ = true → R t s₁ s₁' →
      UpTo Q (R t) (L.visit t s₁) (L'.visit t s₁'))
    (hnext : ∀ n t s₁ s₂ s₂', n < fuel → Reaches L n now s t s₁ → L.visit t s₁ = .ok s₂ → R t s₂ s₂' →
      UpTo Q (fun r r' => r'.2 = r.2 ∧ (t < r.2 → R r.2 r.1 r'.1)) (L.next t s₂) (L'.next t s₂'))
    (hstuck : L'.stuck = L.stuck) (hdiverged : L'.diverged = L.diverged) :
    UpTo Q (fun r r' => r'.2 = r.2 ∧ R r.2 r.1 r'.1) (run L fuel now s) (run L' fuel now s') := by
  induction fuel generalizing now s s' with
  | zero =>
    unfold run
    rw [hunfinished _ _ _ h, hdiverged]
    split
    · exact upTo_error _
    · exact upTo_ok ⟨rfl, h⟩
  | succ fuel ih =>
    unfold run
    rw [hunfinished _ _ _ h]
    split
    · next hu =>
      refine (hvisit 0 now s s' (Nat.succ_pos fuel) .zero hu h).bind fun s₁ s₁' hv h₁ => ?_
      rw [hunfinished _ _ _ h₁]
      split
      · next hu₁ =>
        refine (hnext 0 now s s₁ s₁' (Nat.succ_pos fuel) .zero hv h₁).bind fun r r' hr hrel => ?_
        rw [hrel.1, hstuck]
        split
        · exact upTo_error _
        · next hlt =>
          have hjump : Jump L now s r.2 r.1 := ⟨hu, s₁, hv, hu₁, hr, by simpa using hlt⟩
          exact ih (hrel.2 (by simpa using hlt))
            (fun n t a b hn hab => hvisit _ _ _ _ (Nat.succ_lt_succ hn) (.succ hjump hab))
            fun n t a b c hn hab => hnext _ _ _ _ _ (Nat.succ_lt_succ hn) (.succ hjump hab)
      · exact upTo_ok ⟨rfl, h₁⟩
    · exact upTo_ok ⟨rfl, h⟩

/-- Two loops whose visits and jumps keep a relation: so do their runs. -/
theorem run_both {τ : Type} {L' : Loop τ ε} {R : ℕ → σ → τ → Prop} {fuel now : ℕ} {s : σ} {s' : τ}
    (h : R now s s') (hunfinished : ∀ t s₁ s₁', R t s₁ s₁' → L'.unfinished s₁' = L.unfinished s₁)
    (hvisit : ∀ n t s₁ s₁', n < fuel → Reaches L n now s t s₁ → L.unfinished s₁ = true → R t s₁ s₁' →
      Both (R t) (L.visit t s₁) (L'.visit t s₁'))
    (hnext : ∀ n t s₁ s₂ s₂', n < fuel → Reaches L n now s t s₁ → L.visit t s₁ = .ok s₂ → R t s₂ s₂' →
      Both (fun r r' => r'.2 = r.2 ∧ (t < r.2 → R r.2 r.1 r'.1)) (L.next t s₂) (L'.next t s₂'))
    (hstuck : L'.stuck = L.stuck) (hdiverged : L'.diverged = L.diverged) :
    Both (fun r r' => r'.2 = r.2 ∧ R r.2 r.1 r'.1) (run L fuel now s) (run L' fuel now s') := by
  have h : UpTo (fun _ => False) (fun r r' => r'.2 = r.2 ∧ R r.2 r.1 r'.1) (run L fuel now s) (run L' fuel now s') :=
    run_upTo h hunfinished (fun n t a b hn hr hu hab => .inr (hvisit n t a b hn hr hu hab))
      (fun n t a b c hn hr hv hab => .inr (hnext n t a b c hn hr hv hab)) hstuck hdiverged
  rcases h with ⟨_, hfalse, -⟩ | h
  · exact hfalse.elim
  · exact h

/-! ### Between two visits -/

/-- The state at the end of the tick `u`: after the last visit up to it. -/
def EndsTick (L : Loop σ ε) (start : ℕ) (s₀ : σ) (u : ℕ) (s : σ) : Prop :=
  ∃ n now s₁, Reaches L n start s₀ now s₁ ∧ L.unfinished s₁ = true ∧ L.visit now s₁ = .ok s ∧ now ≤ u ∧
    ∀ s₂ t, L.unfinished s = true → L.next now s = .ok (s₂, t) → u < t

/-- After any of its visits a loop that ends has ended, or goes on to its end from a later tick. -/
theorem Ends.after {n k now t stop : ℕ} {s s₁ s₂ s' : σ} (h : Ends L n now s s' stop)
    (hr : Reaches L k now s t s₁) (hu : L.unfinished s₁ = true) (hv : L.visit t s₁ = .ok s₂) :
    s₂ = s' ∧ L.unfinished s₂ = false ∧ t = stop ∨ L.unfinished s₂ = true ∧
      ∃ s₃ t' m, L.next t s₂ = .ok (s₃, t') ∧ t < t' ∧ Ends L m t' s₃ s' stop := by
  induction hr generalizing n with
  | zero =>
    rcases n with _ | n
    · rw [(ends_zero_iff.mp h).1] at hu
      cases hu
    · obtain ⟨-, s₃, hv', h⟩ := ends_succ_iff.mp h
      obtain rfl : s₃ = s₂ := Except.ok.inj (hv'.symm.trans hv)
      rcases h with ⟨-, hf, rfl, rfl⟩ | ⟨hu', s₄, t', hn, hlt, he, -⟩
      · exact .inl ⟨rfl, hf, rfl⟩
      · exact .inr ⟨hu', s₄, t', n, hn, hlt, he⟩
  | succ first _ ih =>
    rcases n with _ | n
    · have := first.unfinished
      rw [(ends_zero_iff.mp h).1] at this
      cases this
    · obtain ⟨s₃, hv₃, hu₃, hn₃, -⟩ := first.jump
      obtain ⟨-, s₄, hv₄, h⟩ := ends_succ_iff.mp h
      obtain rfl : s₃ = s₄ := Except.ok.inj (hv₃.symm.trans hv₄)
      rcases h with ⟨-, hf, -⟩ | ⟨-, s₅, t', hn, -, he, -⟩
      · rw [hu₃] at hf
        cases hf
      · obtain ⟨rfl, rfl⟩ := Prod.mk.inj (Except.ok.inj (hn₃.symm.trans hn))
        exact ih he hu hv

/-- A loop that ends has a state at the end of every tick from its first visit on. -/
theorem Ends.endsTick {n now u stop : ℕ} {s s' : σ} (h : Ends L (n + 1) now s s' stop) (hnow : now ≤ u) :
    ∃ s₁, EndsTick L now s u s₁ := by
  induction n generalizing now s with
  | zero =>
    obtain ⟨hu, s₁, hv, ⟨-, hf, -⟩ | ⟨-, _, _, -, -, -, hpos⟩⟩ := ends_succ_iff.mp h
    · exact ⟨s₁, 0, now, s, .zero, hu, hv, hnow, fun _ _ hu' => by rw [hf] at hu'; cases hu'⟩
    · cases hpos
  | succ n ih =>
    obtain ⟨hu, s₁, hv, ⟨h0, -⟩ | ⟨hu₁, s₂, t', hn, hlt, he, -⟩⟩ := ends_succ_iff.mp h
    · cases h0
    · by_cases hut : t' ≤ u
      · obtain ⟨s₃, k, now₃, s₄, hr, hrest⟩ := ih he hut
        exact ⟨s₃, k + 1, now₃, s₄, .succ ⟨hu, s₁, hv, hu₁, hn, hlt⟩ hr, hrest⟩
      · refine ⟨s₁, 0, now, s, .zero, hu, hv, hnow, fun s₃ t₃ _ hn₃ => ?_⟩
        obtain ⟨-, rfl⟩ := Prod.mk.inj (Except.ok.inj (hn.symm.trans hn₃))
        omega

/-- What every visit and every jump keep holds at the end. -/
theorem Ends.invariant {P : ℕ → σ → Prop} {n now t : ℕ} {s s' : σ} (h : Ends L n now s s' t) (hs : P now s)
    (visit : ∀ now s s', P now s → L.unfinished s → L.visit now s = .ok s' → P now s')
    (next : ∀ now s s' t, P now s → L.next now s = .ok (s', t) → now < t → P t s') : P t s' := by
  rcases h with ⟨-, -, rfl, rfl⟩ | ⟨k, s₁, -, hr, hu, hv, -⟩
  · exact hs
  · exact visit _ _ _ (hr.invariant hs visit next) hu hv

/-! ### Skipping ticks -/

/-- The same loop, visiting every tick. -/
def everyTick (L : Loop σ ε) : Loop σ ε := { L with next := fun now s => .ok (s, now + 1) }

/-- A loop in which nothing happens goes from tick to tick. -/
theorem reaches_idle {n now : ℕ} {s : σ} (hu : L.unfinished s = true)
    (visit : ∀ u, now ≤ u → u < now + n → L.visit u s = .ok s)
    (next : ∀ u, now ≤ u → u < now + n → L.next u s = .ok (s, u + 1)) :
    Reaches L n now s (now + n) s := by
  induction n generalizing now with
  | zero => exact .zero
  | succ n ih =>
    have hrest : Reaches L n (now + 1) s (now + 1 + n) s :=
      ih (fun u h1 h2 => visit u (by omega) (by omega)) fun u h1 h2 => next u (by omega) (by omega)
    have he : now + 1 + n = now + (n + 1) := by omega
    rw [he] at hrest
    exact .succ ⟨hu, s, visit now (Nat.le_refl _) (by omega), hu, next now (Nat.le_refl _) (by omega), Nat.lt_succ_self now⟩ hrest

/-- **Skipping is exact** where the skipped visits change nothing: the loop that visits
every tick ends in the same state at the same tick. -/
theorem ends_everyTick {n now t : ℕ} {s s' : σ} (h : Ends L n now s s' t)
    (idle : ∀ k now' s₁ s₂ s₃ t', Reaches L k now s now' s₁ → L.visit now' s₁ = .ok s₂ →
      L.unfinished s₂ = true → L.next now' s₂ = .ok (s₃, t') → now' < t' →
      s₃ = s₂ ∧ ∀ u, now' < u → u < t' → L.visit u s₂ = .ok s₂) :
    ∃ m, Ends (everyTick L) m now s s' t := by
  rcases h with ⟨rfl, h⟩ | ⟨k, s₁, rfl, hr, hu, hv, hf⟩
  · exact ⟨0, .inl ⟨rfl, h⟩⟩
  · have key : ∀ {k now s t s₁}, Reaches L k now s t s₁ →
        (∀ j now' s₁ s₂ s₃ t', Reaches L j now s now' s₁ → L.visit now' s₁ = .ok s₂ →
          L.unfinished s₂ = true → L.next now' s₂ = .ok (s₃, t') → now' < t' →
          s₃ = s₂ ∧ ∀ u, now' < u → u < t' → L.visit u s₂ = .ok s₂) →
        ∃ m, Reaches (everyTick L) m now s t s₁ := by
      intro k now s t s₁ hr
      induction hr with
      | zero => exact fun _ => ⟨0, .zero⟩
      | @succ n now s t s₁ t' s' first rest ih =>
        intro idle
        obtain ⟨s₂, h1, h2, h3, h4⟩ := first.jump
        obtain ⟨rfl, hid⟩ := idle 0 now s s₂ s₁ t .zero h1 h2 h3 h4
        obtain ⟨m, hm⟩ := ih fun j now' a b d t'' hr => idle (j + 1) now' a b d t'' (.succ first hr)
        have hskip : Reaches (everyTick L) (t - (now + 1)) (now + 1) s₁ (now + 1 + (t - (now + 1))) s₁ :=
          reaches_idle h2 (fun u h5 h6 => hid u (by omega) (by omega)) fun _ _ _ => rfl
        have he : now + 1 + (t - (now + 1)) = t := by omega
        rw [he] at hskip
        exact ⟨_, .succ ⟨first.unfinished, s₁, h1, h2, rfl, Nat.lt_succ_self now⟩ (hskip.trans hm)⟩
    obtain ⟨m, hm⟩ := key hr idle
    exact ⟨m + 1, .inr ⟨m, s₁, rfl, hm, hu, hv, hf⟩⟩

end EventLoop
