/-
# Observers of an event loop

An observer keeps values of its own beside the states of a loop and changes
none of them (`Observes`): it runs as the loop does. What it keeps as a running
maximum is, at the end, the greatest of the values it has seen and of the one
it started with (`Observes.recorded`). A quantity that goes up only in the first
half of a visit has its greatest value in the middle of one; an observer that
looks at the ends of the visits sees it just when nothing is lost in the second
half of a visit at which the quantity is greatest (`Humped.isGreatest_iff`). Where
the quantity counts things with weights, nothing is lost just when none of weight
goes (`departs_iff`).
-/
import VectorSim.Lib.EventLoop
import Mathlib.Logic.Relation
import Mathlib.Order.Bounds.Basic
import Mathlib.Order.MinMax
import Mathlib.Order.Nat
import Mathlib.Data.Int.Order.Basic

namespace EventLoop

open Checked

variable {σ ω ε : Type} {L : Loop σ ε} {L' : Loop (σ × ω) ε}

/-- The second loop is the first one with an observer. -/
structure Observes (L : Loop σ ε) (L' : Loop (σ × ω) ε) : Prop where
  unfinished : ∀ r, L'.unfinished r = L.unfinished r.1
  visit : ∀ now r, (L'.visit now r).map (·.1) = L.visit now r.1
  next : ∀ now r, L'.next now r = (L.next now r.1).map fun n => ((n.1, r.2), n.2)
  stuck : L'.stuck = L.stuck
  diverged : L'.diverged = L.diverged

/-- A visit of a loop, in two halves: the states in its middle and at its end. -/
structure Visit (L : Loop σ ε) (up down : ℕ → σ → Except ε σ) (start : ℕ) (s₀ : σ) (now : ℕ) (d e : σ) : Prop where
  head : ∃ n s, Reaches L n start s₀ now s ∧ L.unfinished s = true ∧ up now s = .ok d
  rest : down now d = .ok e

variable {up down : ℕ → σ → Except ε σ} {start now t : ℕ} {s₀ s s' d e : σ} {w w' : ω}

theorem Observes.visit_ok (hO : Observes L L') {r r' : σ × ω} (h : L'.visit now r = .ok r') :
    L.visit now r.1 = .ok r'.1 := by
  rw [← hO.visit, h]
  rfl

/-- The observed loop runs as the loop does. -/
theorem Observes.run_both (hO : Observes L L') (fuel now : ℕ) (s : σ) (w : ω) :
    Both (fun r r' => r'.2 = r.2 ∧ r'.1.1 = r.1) (run L fuel now s) (run L' fuel now (s, w)) := by
  refine EventLoop.run_both (R := fun _ s r => r.1 = s) (show (s, w).1 = s from rfl) ?_ ?_ ?_ hO.stuck hO.diverged
  · rintro t s₁ r rfl
    exact hO.unfinished r
  · rintro n t s₁ r - - - rfl
    rw [← hO.visit]
    cases L'.visit t r with
    | error err => exact .error err
    | ok r' => exact .ok rfl
  · rintro n t s₁ s₂ r - - - rfl
    rw [hO.next]
    cases L.next t r.1 with
    | error err => exact .error err
    | ok n => exact .ok ⟨rfl, fun _ => rfl⟩

/-- **A run and its observed run end alike.** -/
theorem Observes.run_ok (hO : Observes L L') {fuel : ℕ} (w : ω) :
    (∃ w', run L' fuel now (s, w) = .ok ((s', w'), t)) ↔ run L fuel now s = .ok (s', t) := by
  have hboth := hO.run_both fuel now s w
  constructor
  · rintro ⟨w', h⟩
    rw [h] at hboth
    cases hr : run L fuel now s with
    | error err => rw [hr] at hboth; cases hboth
    | ok r =>
      rw [hr] at hboth
      cases hboth with
      | ok hrel => exact congrArg Except.ok (Prod.ext hrel.2.symm hrel.1.symm)
  · intro h
    rw [h] at hboth
    cases hr : run L' fuel now (s, w) with
    | error err => rw [hr] at hboth; cases hboth
    | ok r =>
      rw [hr] at hboth
      cases hboth with
      | ok hrel => exact ⟨r.1.2, congrArg Except.ok (Prod.ext (Prod.ext hrel.2 rfl) hrel.1)⟩

/-- The visits of a loop are its first one and those after its first jump. -/
theorem Visit.cases_first (h : Visit L up down now s t d e) :
    L.unfinished s = true ∧ (t = now ∧ up now s = .ok d ∧ down now d = .ok e ∨
      ∃ t' s₁, Jump L now s t' s₁ ∧ Visit L up down t' s₁ t d e) := by
  obtain ⟨n, s₁, hr, hu, hup⟩ := h.head
  cases hr with
  | zero => exact ⟨hu, .inl ⟨rfl, hup, h.rest⟩⟩
  | succ first rest => exact ⟨first.unfinished, .inr ⟨_, _, first, ⟨_, s₁, rest, hu, hup⟩, h.rest⟩⟩

theorem Visit.after {t' : ℕ} {s₁ : σ} (first : Jump L now s t' s₁) (h : Visit L up down t' s₁ t d e) :
    Visit L up down now s t d e := by
  obtain ⟨n, s₂, hr, hu, hup⟩ := h.head
  exact ⟨⟨n + 1, s₂, .succ first hr, hu, hup⟩, h.rest⟩

theorem Jump.unique {t₁ t₂ : ℕ} {s₁ s₂ : σ} (h₁ : Jump L now s t₁ s₁) (h₂ : Jump L now s t₂ s₂) :
    t₁ = t₂ ∧ s₁ = s₂ := by
  obtain ⟨a, hv, -, hn, -⟩ := h₁.jump
  obtain ⟨b, hv', -, hn', -⟩ := h₂.jump
  obtain rfl : a = b := Except.ok.inj (hv.symm.trans hv')
  obtain ⟨rfl, rfl⟩ := Prod.mk.inj (Except.ok.inj (hn.symm.trans hn'))
  exact ⟨rfl, rfl⟩

/-- A value is the greatest of what an observer has seen and of what it started with. -/
structure Recorded (L : Loop σ ε) (up down : ℕ → σ → Except ε σ) (seen : σ → σ → ℤ) (now : ℕ) (s : σ)
    (first last : ℤ) : Prop where
  le : first ≤ last
  seen_le : ∀ u d e, Visit L up down now s u d e → seen d e ≤ last
  attained : last = first ∨ ∃ u d e, Visit L up down now s u d e ∧ seen d e = last

/-- Nothing is seen of a loop that is finished. -/
theorem recorded_finished {seen : σ → σ → ℤ} (hu : L.unfinished s = false) (v : ℤ) :
    Recorded L up down seen now s v v := by
  refine ⟨le_rfl, fun u d e hv => ?_, .inl rfl⟩
  have := hv.cases_first.1
  rw [hu] at this
  cases this

/-- **A running maximum** is at the end the greatest of what it has seen and of what it started with. -/
theorem Observes.recorded (hO : Observes L L') (peak : ω → ℤ) (seen : σ → σ → ℤ) {fuel : ℕ}
    (hsplit : ∀ now s e, L.visit now s = .ok e → ∃ d, up now s = .ok d ∧ down now d = .ok e)
    (law : ∀ n t r r' d, Reaches L' n now (s, w) t r → L'.visit t r = .ok r' → up t r.1 = .ok d →
      peak r'.2 = max (peak r.2) (seen d r'.1))
    (h : run L' fuel now (s, w) = .ok ((s', w'), t)) : Recorded L up down seen now s (peak w) (peak w') := by
  induction fuel generalizing now s w with
  | zero =>
    unfold run at h
    rw [hO.unfinished] at h
    split at h
    · cases h
    · next hu => cases h; exact recorded_finished (by simpa using hu) _
  | succ fuel ih =>
    unfold run at h
    rw [hO.unfinished] at h
    split at h
    · next hu =>
      obtain ⟨⟨s₁, w₁⟩, hv, h⟩ := ok_bind.mp h
      have hvisit := hO.visit_ok hv
      obtain ⟨d₀, hup, hdown⟩ := hsplit _ _ _ hvisit
      have hlaw := law 0 now (s, w) (s₁, w₁) d₀ .zero hv hup
      have hfirst : Visit L up down now s now d₀ s₁ := ⟨⟨0, s, .zero, hu, hup⟩, hdown⟩
      have hfirst_le : ∀ {d e}, up now s = .ok d → down now d = .ok e → seen d e ≤ peak w₁ := by
        intro d e hd he
        obtain rfl : d₀ = d := Except.ok.inj (hup.symm.trans hd)
        obtain rfl : s₁ = e := Except.ok.inj (hdown.symm.trans he)
        exact hlaw ▸ le_max_right _ _
      have hcases : peak w₁ = peak w ∨ seen d₀ s₁ = peak w₁ :=
        (max_choice (peak w) (seen d₀ s₁)).imp hlaw.trans fun hm => (hlaw.trans hm).symm
      rw [hO.unfinished] at h
      split at h
      · next hu₁ =>
        obtain ⟨⟨⟨s₂, w₂⟩, t₂⟩, hn, h⟩ := ok_bind.mp h
        rw [hO.next] at hn
        obtain ⟨⟨s₃, t₃⟩, hnext, he⟩ := ok_map.mp hn
        cases he
        split at h
        · cases h
        · next hlt =>
          have hlt : now < t₃ := by simpa using hlt
          have hjump : Jump L now s t₃ s₃ := ⟨hu, s₁, hvisit, hu₁, hnext, hlt⟩
          have hjump' : Jump L' now (s, w) t₃ (s₃, w₁) := by
            refine ⟨by rw [hO.unfinished]; exact hu, (s₁, w₁), hv, by rw [hO.unfinished]; exact hu₁, ?_, hlt⟩
            rw [hO.next, hnext]
            rfl
          have hrest := ih (fun n t r r' d hr => law (n + 1) t r r' d (.succ hjump' hr)) h
          refine ⟨(hlaw ▸ le_max_left _ _).trans hrest.le, fun u d e hv' => ?_, ?_⟩
          · obtain ⟨-, ⟨rfl, hd, he⟩ | ⟨t', s', hj, hafter⟩⟩ := hv'.cases_first
            · exact (hfirst_le hd he).trans hrest.le
            · obtain ⟨rfl, rfl⟩ := hjump.unique hj
              exact hrest.seen_le u d e hafter
          · rcases hrest.attained with hsame | ⟨u, d, e, hafter, hseen⟩
            · rw [hsame]
              exact hcases.imp id fun hs => ⟨now, d₀, s₁, hfirst, hs⟩
            · exact .inr ⟨u, d, e, hafter.after hjump, hseen⟩
      · next hu₁ =>
        cases h
        refine ⟨hlaw ▸ le_max_left _ _, fun u d e hv' => ?_, hcases.imp id fun hs => ⟨_, d₀, _, hfirst, hs⟩⟩
        obtain ⟨-, ⟨rfl, hd, he⟩ | ⟨t', s₂, hj, -⟩⟩ := hv'.cases_first
        · exact hfirst_le hd he
        · -- the loop has ended with its first visit
          obtain ⟨s₃, hv₃, hu₃, -⟩ := hj.jump
          obtain rfl := Except.ok.inj (hvisit.symm.trans hv₃)
          exact absurd hu₃ hu₁
    · next hu => cases h; exact recorded_finished (by simpa using hu) _

/-! ### A quantity that goes up in the first half of a visit -/

/-- A quantity over the states of a loop that goes up, from zero, in the first halves of its
visits only: wherever it is positive it has been as great in the middle of a visit. -/
structure Humped (L : Loop σ ε) (up down : ℕ → σ → Except ε σ) (s₀ : σ) (states : Set σ) (f : σ → ℤ) : Prop where
  start : s₀ ∈ states ∧ f s₀ = 0
  top : ∀ u d e, Visit L up down 0 s₀ u d e → d ∈ states ∧ f e ≤ f d
  bound : ∀ b, 0 ≤ b → (∀ u d e, Visit L up down 0 s₀ u d e → f d ≤ b) → ∀ s ∈ states, f s ≤ b

variable {states : Set σ} {f : σ → ℤ} {peak : ℤ}

/-- A quantity seen in the middle of the visits is seen at its greatest. -/
theorem Humped.isGreatest (h : Humped L up down s₀ states f)
    (hp : Recorded L up down (fun d _ => f d) 0 s₀ 0 peak) : IsGreatest (f '' states) peak := by
  refine ⟨?_, ?_⟩
  · rcases hp.attained with hzero | ⟨u, d, e, hv, hd⟩
    · exact ⟨s₀, h.start.1, h.start.2.trans hzero.symm⟩
    · exact ⟨d, (h.top u d e hv).1, hd⟩
  · rintro _ ⟨s, hs, rfl⟩
    exact h.bound peak hp.le (fun u d e hv => hp.seen_le u d e hv) s hs

/-- **A quantity seen at the ends of the visits** is seen at its greatest just when it is never
positive, or some visit in whose middle it is greatest loses nothing of it. -/
theorem Humped.isGreatest_iff (h : Humped L up down s₀ states f)
    (hp : Recorded L up down (fun _ e => f e) 0 s₀ 0 peak) : IsGreatest (f '' states) peak ↔
      (∀ u d e, Visit L up down 0 s₀ u d e → f d ≤ 0) ∨ ∃ u d e, Visit L up down 0 s₀ u d e ∧ f e = f d ∧
        ∀ u' d' e', Visit L up down 0 s₀ u' d' e' → f d' ≤ f d := by
  have hzero : (∀ s ∈ states, f s ≤ 0) → IsGreatest (f '' states) peak := by
    intro hall
    have hpeak : peak = 0 := by
      rcases hp.attained with hzero | ⟨u, d, e, hv, he⟩
      · exact hzero
      · obtain ⟨hd, hle⟩ := h.top u d e hv
        exact le_antisymm (he ▸ hle.trans (hall d hd)) hp.le
    refine ⟨⟨s₀, h.start.1, h.start.2.trans hpeak.symm⟩, ?_⟩
    rintro _ ⟨s, hs, rfl⟩
    exact (hall s hs).trans hp.le
  constructor
  · intro hmax
    have hle : ∀ u d e, Visit L up down 0 s₀ u d e → f d ≤ peak := fun u d e hv =>
      hmax.2 ⟨d, (h.top u d e hv).1, rfl⟩
    rcases hp.attained with hz | ⟨u, d, e, hv, he⟩
    · exact .inl fun u d e hv => hz ▸ hle u d e hv
    · have hd : f d = peak := le_antisymm (hle u d e hv) (he ▸ (h.top u d e hv).2)
      exact .inr ⟨u, d, e, hv, he.trans hd.symm, fun u' d' e' hv' => hd ▸ hle u' d' e' hv'⟩
  · rintro (hall | ⟨u, d, e, hv, hsame, htop⟩)
    · exact hzero (h.bound 0 le_rfl hall)
    · rcases le_total 0 (f d) with hpos | hneg
      · have hle : f d ≤ peak := hsame ▸ hp.seen_le u d e hv
        have hbound := h.bound (f d) hpos htop
        have hpeak : peak = f d := by
          rcases hp.attained with hz | ⟨u', d', e', hv', he'⟩
          · omega
          · obtain ⟨hd', hle'⟩ := h.top u' d' e' hv'
            have := hbound d' hd'
            omega
        refine ⟨⟨d, (h.top u d e hv).1, hpeak.symm⟩, ?_⟩
        rintro _ ⟨s, hs, rfl⟩
        exact hpeak ▸ hbound s hs
      · exact hzero (h.bound 0 le_rfl fun u' d' e' hv' => (htop u' d' e' hv').trans hneg)

/-- Computed: the first visit has the greatest value in its middle, where the test holds. -/
def fullestFirst (L : Loop σ ε) (up down : ℕ → σ → Except ε σ) (f : σ → ℤ) (test : σ → Bool) (fuel : ℕ) (s₀ : σ) : Bool :=
  match up 0 s₀ with
  | .error _ => false
  | .ok d => L.unfinished s₀ && (down 0 d).toOption.isSome && test d &&
      always L (fun now s => (up now s).toOption.all fun d' => decide (f d' ≤ f d)) fuel 0 s₀

theorem fullestFirst_visit {test : σ → Bool} {fuel : ℕ} (h : fullestFirst L up down f test fuel s₀ = true) :
    ∃ d e, Visit L up down 0 s₀ 0 d e ∧ test d = true ∧ ∀ u d' e', Visit L up down 0 s₀ u d' e' → f d' ≤ f d := by
  unfold fullestFirst at h
  split at h
  · cases h
  · next d hd =>
    simp only [Bool.and_eq_true] at h
    obtain ⟨⟨⟨hu, he⟩, htest⟩, hall⟩ := h
    obtain ⟨e, he⟩ := exists_ok he
    refine ⟨d, e, ⟨⟨0, s₀, .zero, hu, hd⟩, he⟩, htest, ?_⟩
    rintro u d' e' ⟨⟨n, s, hr, hu', hd'⟩, -⟩
    have hat := always_reaches hall hr hu'
    rw [hd'] at hat
    exact of_decide_eq_true hat

/-! ### What leaves in the second half of a visit -/

/-- A step of a quantity that counts things until they are gone: none goes, or one that was there, with its
weight. -/
def Departs {ι : Type} (f : σ → ℤ) (gone : σ → ι → Prop) (weight : ι → ℕ) (s s' : σ) : Prop :=
  (f s' = f s ∧ ∀ i, gone s' i ↔ gone s i) ∨
    ∃ j, ¬ gone s j ∧ f s' = f s - weight j ∧ ∀ i, gone s' i ↔ gone s i ∨ i = j

/-- Over steps in which things go the quantity stays what it was just when nothing of weight has gone. -/
theorem departs_iff {ι : Type} {gone : σ → ι → Prop} {weight : ι → ℕ} {R : σ → σ → Prop}
    (hR : ∀ s s', R s s' → Departs f gone weight s s') (h : Relation.ReflTransGen R d e) :
    f e = f d ↔ ¬ ∃ i, 0 < weight i ∧ gone e i ∧ ¬ gone d i := by
  have hall : f e ≤ f d ∧ (∀ i, gone d i → gone e i) ∧ (f e = f d ↔ ¬ ∃ i, 0 < weight i ∧ gone e i ∧ ¬ gone d i) := by
    induction h with
    | refl => exact ⟨le_rfl, fun _ => id, iff_of_true rfl fun ⟨i, _, hi, hn⟩ => hn hi⟩
    | tail _ hstep ih =>
      obtain ⟨hle, hmono, hiff⟩ := ih
      rcases hR _ _ hstep with ⟨hf, hgone⟩ | ⟨j, hthere, hf, hgone⟩
      · refine ⟨hf.trans_le hle, fun i hi => (hgone i).mpr (hmono i hi), ?_⟩
        simp only [hf, hgone, hiff]
      · refine ⟨by omega, fun i hi => (hgone i).mpr (.inl (hmono i hi)), ?_⟩
        have hnew : ¬ gone d j := fun hj => hthere (hmono j hj)
        constructor
        · rintro heq ⟨i, hpos, hi, hn⟩
          rcases (hgone i).mp hi with hi | rfl
          · exact hiff.mp (by omega) ⟨i, hpos, hi, hn⟩
          · omega
        · intro hnone
          have hbefore := hiff.mpr fun ⟨i, hpos, hi, hn⟩ => hnone ⟨i, hpos, (hgone i).mpr (.inl hi), hn⟩
          have hzero : weight j = 0 := by
            by_contra hne
            exact hnone ⟨j, Nat.pos_of_ne_zero hne, (hgone j).mpr (.inr rfl), hnew⟩
          omega
  exact hall.2.2

/-! ### What comes after a visit -/

variable {n k stop : ℕ} {s₁ : σ}

/-- What the later visits keep holds wherever the loop goes. -/
theorem Reaches.later {P : σ → Prop} {now₀ : ℕ} (h : Reaches L n now s t s') (hs : P s) (hlt : now₀ < now)
    (hr : Reaches L k start s₀ now s)
    (visit : ∀ u k x x', now₀ < u → Reaches L k start s₀ u x → L.unfinished x = true → L.visit u x = .ok x' → P x → P x')
    (next : ∀ u x x' t, L.next u x = .ok (x', t) → P x → P x') : P s' := by
  induction h generalizing k with
  | zero => exact hs
  | succ first _ ih =>
    obtain ⟨x, hv, -, hn, hlt'⟩ := first.jump
    have hx := visit _ _ _ _ hlt hr first.unfinished hv hs
    exact ih (next _ _ _ _ hn hx) (hlt.trans hlt') (hr.trans (.succ first .zero))

/-- What holds after a visit, and the later visits keep, holds at the end. -/
theorem Ends.later {P : σ → Prop} (h : Ends L n start s₀ s' stop) (hr : Reaches L k start s₀ now s)
    (hu : L.unfinished s = true) (hv : L.visit now s = .ok e) (he : P e)
    (visit : ∀ u k x x', now < u → Reaches L k start s₀ u x → L.unfinished x = true → L.visit u x = .ok x' → P x → P x')
    (next : ∀ u x x' t, L.next u x = .ok (x', t) → P x → P x') : P s' := by
  rcases h.after hr hu hv with ⟨rfl, -⟩ | ⟨hu', s₃, t', m, hn, hlt, hrest⟩
  · exact he
  · have hr' : Reaches L (k + 1) start s₀ t' s₃ := hr.trans (.succ ⟨hu, e, hv, hu', hn, hlt⟩ .zero)
    rcases hrest with ⟨-, -, rfl, -⟩ | ⟨j, s₄, -, hreach, hu₄, hv₄, -⟩
    · exact next _ _ _ _ hn he
    · have h₄ := hreach.later (next _ _ _ _ hn he) hlt hr' visit next
      have hlate := hlt.trans_le hreach.le
      exact visit _ _ _ _ hlate (hr'.trans hreach) hu₄ hv₄ h₄

/-- A loop that ends is past a visit before it makes the next. -/
theorem Visit.endsTick (hends : Ends L n start s₀ s' stop)
    (hjoin : ∀ now s d e, up now s = .ok d → down now d = .ok e → L.visit now s = .ok e)
    (h : Visit L up down start s₀ now d e) : EndsTick L start s₀ now e := by
  obtain ⟨⟨k, s, hr, hu, hd⟩, he⟩ := h
  have hv := hjoin _ _ _ _ hd he
  refine ⟨k, now, s, hr, hu, hv, le_rfl, fun s₂ t hu' hn => ?_⟩
  rcases hends.after hr hu hv with ⟨-, hf, -⟩ | ⟨-, s₃, t', m, hn', hlt, -⟩
  · rw [hf] at hu'
    cases hu'
  · obtain ⟨-, rfl⟩ := Prod.mk.inj (Except.ok.inj (hn.symm.trans hn'))
    exact hlt

/-! ### Visits that run procedures -/

/-- Procedures run one after the other. -/
def through (fs : List (σ → Except ε σ)) (s : σ) : Except ε σ := fs.foldlM (fun s f => f s) s

variable {procs : ℕ → List (σ → Except ε σ)} {k : ℕ}

/-- The states of a loop whose visits run procedures: at its condition, and after any of them. -/
def statesOf (L : Loop σ ε) (procs : ℕ → List (σ → Except ε σ)) (s₀ : σ) : Set σ :=
  {s | ∃ now s₁ fs gs, (∃ n, Reaches L n 0 s₀ now s₁) ∧ procs now = fs ++ gs ∧ through fs s₁ = .ok s}

/-- A loop that ends has made the visit of every state it reaches, or is finished from the start. -/
theorem Ends.reached {n j stop : ℕ} {s₁ : σ} (h : Ends L n now s s' stop) (hr : Reaches L j now s t s₁) :
    j = 0 ∧ L.unfinished s = false ∨ L.unfinished s₁ = true ∧ ∃ s₂, L.visit t s₁ = .ok s₂ := by
  induction hr generalizing n with
  | zero =>
    rcases n with _ | n
    · exact .inl ⟨rfl, (ends_zero_iff.mp h).1⟩
    · obtain ⟨hu, s₂, hv, -⟩ := ends_succ_iff.mp h
      exact .inr ⟨hu, s₂, hv⟩
  | succ first _ ih =>
    rcases n with _ | n
    · have := first.unfinished
      rw [(ends_zero_iff.mp h).1] at this
      cases this
    · obtain ⟨s₃, hv₃, hu₃, hn₃, -⟩ := first.jump
      obtain ⟨-, s₄, hv₄, h⟩ := ends_succ_iff.mp h
      obtain rfl : s₃ = s₄ := Except.ok.inj (hv₃.symm.trans hv₄)
      rcases h with ⟨-, hf, -⟩ | ⟨-, s₅, t', hn, -, he, hpos⟩
      · rw [hu₃] at hf
        cases hf
      · obtain ⟨rfl, rfl⟩ := Prod.mk.inj (Except.ok.inj (hn₃.symm.trans hn))
        refine .inr ((ih he).resolve_left ?_)
        rintro ⟨-, hf⟩
        rcases n with _ | n
        · cases hpos
        · rw [(ends_succ_iff.mp he).1] at hf
          cases hf

theorem Ends.reaches_le {n k stop : ℕ} {s₁ : σ} (h : Ends L n now s s' stop) (hr : Reaches L k now s t s₁)
    (hu : L.unfinished s₁ = true) : t ≤ stop := by
  rcases h.reached hr with ⟨rfl, hf⟩ | ⟨-, s₂, hv⟩
  · cases hr
    rw [hf] at hu
    cases hu
  · rcases h.after hr hu hv with ⟨-, -, rfl⟩ | ⟨-, s₃, t', m, -, hlt, hrest⟩
    · exact le_rfl
    · rcases hrest with ⟨-, -, -, rfl⟩ | ⟨j, s₄, -, hreach, -⟩
      · exact hlt.le
      · exact hlt.le.trans hreach.le

theorem through_append {fs gs : List (σ → Except ε σ)} :
    through (fs ++ gs) s = .ok s' ↔ ∃ d, through fs s = .ok d ∧ through gs d = .ok s' :=
  foldlM_append

/-- A quantity that goes up in one of the procedures only goes down in any others. -/
theorem through_le {fs : List (σ → Except ε σ)}
    (hphase : ∀ j g s s', (procs now)[j]? = some g → j ≠ k → g s = .ok s' → f s' ≤ f s)
    (hfs : ∀ g ∈ fs, ∃ j, j ≠ k ∧ (procs now)[j]? = some g) (h : through fs s = .ok s') : f s' ≤ f s :=
  foldlM_ok (P := fun t => f t ≤ f s) h le_rfl fun g hg t t' ht hgt => by
    obtain ⟨j, hj, hget⟩ := hfs g hg
    exact (hphase j g t t' hget hj hgt).trans ht

theorem mem_drop_index {g : σ → Except ε σ} (h : g ∈ (procs now).drop (k + 1)) :
    ∃ j, j ≠ k ∧ (procs now)[j]? = some g := by
  obtain ⟨i, hi⟩ := List.mem_iff_getElem?.mp h
  rw [List.getElem?_drop] at hi
  exact ⟨k + 1 + i, by omega, hi⟩

theorem mem_take_index {n : ℕ} {g : σ → Except ε σ} (hn : n ≤ k) (h : g ∈ (procs now).take n) :
    ∃ j, j ≠ k ∧ (procs now)[j]? = some g := by
  obtain ⟨i, hi⟩ := List.mem_iff_getElem?.mp h
  rw [List.getElem?_take] at hi
  split at hi
  · exact ⟨i, by omega, hi⟩
  · cases hi

/-- What is seen at the start and in the middle of the visits is seen at every jump. -/
theorem Reaches.le_of_visits {n : ℕ} {b : ℤ} (hsplit : ∀ now s e, L.visit now s = .ok e →
      ∃ d, up now s = .ok d ∧ down now d = .ok e) (hdown : ∀ now d e, down now d = .ok e → f e ≤ f d)
    (hnext : ∀ now s s' t, L.next now s = .ok (s', t) → f s' ≤ f s) (h : Reaches L n now s t s') (hs : f s ≤ b)
    (hb : ∀ u d e, Visit L up down now s u d e → f d ≤ b) : f s' ≤ b := by
  induction h with
  | zero => exact hs
  | succ first _ ih =>
    obtain ⟨s₂, hv, -, hn, -⟩ := first.jump
    obtain ⟨d, hd, he⟩ := hsplit _ _ _ hv
    have hmid := hb _ d s₂ ⟨⟨0, _, .zero, first.unfinished, hd⟩, he⟩
    exact ih ((hnext _ _ _ _ hn).trans ((hdown _ _ _ he).trans hmid)) fun u d e hv => hb u d e (hv.after first)

/-- **A quantity that goes up in one procedure only** has its greatest value right after it. -/
theorem humped_of_procedures {n stop : ℕ} (hvisit : ∀ now s, L.visit now s = through (procs now) s)
    (hphase : ∀ now j g s s', (procs now)[j]? = some g → j ≠ k → g s = .ok s' → f s' ≤ f s)
    (hidle : L.unfinished s₀ = false → ∀ now g s s', (procs now)[k]? = some g → g s = .ok s' → f s' ≤ f s)
    (hnext : ∀ now s s' t, L.next now s = .ok (s', t) → f s' ≤ f s) (hstart : f s₀ = 0)
    (hends : Ends L n 0 s₀ s' stop) :
    Humped L (fun now => through ((procs now).take (k + 1))) (fun now => through ((procs now).drop (k + 1))) s₀
      (statesOf L procs s₀) f := by
  have hdown : ∀ now d e, through ((procs now).drop (k + 1)) d = .ok e → f e ≤ f d := fun now d e he =>
    through_le (hphase now) (fun g hg => mem_drop_index hg) he
  have hsplit : ∀ now s e, L.visit now s = .ok e →
      ∃ d, through ((procs now).take (k + 1)) s = .ok d ∧ through ((procs now).drop (k + 1)) d = .ok e := by
    intro now s e hv
    rw [hvisit, ← List.take_append_drop (k + 1) (procs now)] at hv
    exact through_append.mp hv
  refine ⟨⟨⟨0, s₀, [], procs 0, ⟨0, .zero⟩, rfl, rfl⟩, hstart⟩, ?_, ?_⟩
  · rintro u d e ⟨⟨m, s, hr, -, hd⟩, he⟩
    exact ⟨⟨u, s, _, _, ⟨m, hr⟩, (List.take_append_drop _ _).symm, hd⟩, hdown _ _ _ he⟩
  · rintro b hb hmax s ⟨u, s₁, fs, gs, ⟨m, hr⟩, hfs, hv⟩
    have hhead : f s₁ ≤ b := hr.le_of_visits hsplit hdown hnext (hstart.trans_le hb) hmax
    have htake : fs = (procs u).take fs.length := by rw [hfs, List.take_left]
    rcases hends.reached hr with ⟨rfl, hf⟩ | ⟨hu, e, he⟩
    · -- a loop that is finished from the start does nothing
      refine le_trans ?_ hhead
      refine foldlM_ok (P := fun t => f t ≤ f s₁) hv le_rfl fun g hg t t' ht hgt => ?_
      obtain ⟨j, hj⟩ := List.mem_iff_getElem?.mp (hfs ▸ List.mem_append_left gs hg : g ∈ procs u)
      by_cases hjk : j = k
      · exact (hidle hf u g t t' (hjk ▸ hj) hgt).trans ht
      · exact (hphase u j g t t' hj hjk hgt).trans ht
    · rcases Nat.lt_or_ge k fs.length with hlong | hshort
      · obtain ⟨d, hd, hde⟩ := hsplit u s₁ e he
        have hmid : f d ≤ b := hmax u d e ⟨⟨m, s₁, hr, hu, hd⟩, hde⟩
        have hfirst : fs = (procs u).take (k + 1) ++ fs.drop (k + 1) := by
          rw [hfs, List.take_append_of_le_length hlong, List.take_append_drop]
        rw [hfirst] at hv
        obtain ⟨d', hd', hrest⟩ := through_append.mp hv
        obtain rfl : d = d' := Except.ok.inj (hd.symm.trans hd')
        refine le_trans (through_le (hphase u) (fun g hg => ?_) hrest) hmid
        refine mem_drop_index ?_
        rw [hfs, List.drop_append_of_le_length hlong]
        exact List.mem_append_left _ hg
      · rw [htake] at hv
        exact (through_le (hphase u) (fun g hg => mem_take_index hshort hg) hv).trans hhead

end EventLoop
