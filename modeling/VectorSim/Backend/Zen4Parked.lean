/-
# A machine in which nothing happens

With everything dispatched, each waiting uop held back by what has to complete or issue
first and the oldest macro-op not complete, a visit of the Zen 4 loop changes nothing. Such
a machine goes from cycle to cycle up to the next completion (`reaches_parked`), and for
ever where none is to come (`parked_never`).
-/
import VectorSim.RunSafety
import VectorSim.Backend.Counters

namespace VectorSim.Zen4

open Checked Core EventLoop Setup

/-- The uop cannot issue before something completes or issues, whatever the tick. -/
def held (E : Setup) (s : Machine) (x : ExecutionUop) : Prop :=
  (incomplete s.toCore x ≠ [] ∨ E.overlapBlocked s x = true) ∧ x.issueDomains = [] ∧
    ∀ r ∈ x.resourceChoices, s.resourceFree r ≠ []

instance (E : Setup) (s : Machine) (x : ExecutionUop) : Decidable (held E s x) := by
  unfold held; infer_instance

/-- Everything is dispatched, no waiting uop may issue and the oldest macro-op is not complete. -/
def Parked (E : Setup) (s : Machine) : Prop :=
  E.trace.macros.length ≤ s.nextDispatch ∧ (∀ x ∈ E.issueCandidates s.toCore, held E s x) ∧
    (∃ m ∈ s.rob.head?.bind E.trace.macro?, (s.macro_ m.id).completeTick = none) ∧
    E.pipeline.dispatchMacroOpsPerCycle.isSome ∧ E.pipeline.retireMacroOpsPerCycle.isSome ∧
    E.ticksPerCycle = 1

instance (E : Setup) (s : Machine) : Decidable (Parked E s) := by
  unfold Parked; infer_instance

variable {E : Setup} {s : Machine} {x : ExecutionUop} {now : ℕ}

theorem earlyBlocker_held (now : ℕ) (h : held E s x) : ∃ b, earlyBlocker E s x now = some b := by
  rw [← Option.isSome_iff_exists]
  unfold earlyBlocker
  rcases h.1 with hdep | hov
  · have : (dependencyBlocker (fun _ => .dependency) s.toCore x now).isSome := by
      rw [dependencyBlocker, if_pos hdep]
      rfl
    simp [this]
  · have : (E.overlapBlocker s x).isSome := by
      rw [overlapBlocker, if_pos hov]
      rfl
    simp [this]

theorem issueBlocker_held (now : ℕ) (h : held E s x) : ∃ b, issueBlocker E s x now = .ok (s.memory, some b) := by
  obtain ⟨b, hb⟩ := earlyBlocker_held now h
  refine ⟨b, ?_⟩
  unfold issueBlocker
  rw [hb]

theorem issueList_held : ∀ (xs : List ExecutionUop), (∀ x ∈ xs, held E s x) →
    issueList E now xs s = .ok (false, s)
  | [], _ => rfl
  | x :: xs, h => by
    obtain ⟨b, hb⟩ := issueBlocker_held now (h x List.mem_cons_self)
    have hrest := issueList_held xs fun y hy => h y (List.mem_cons_of_mem _ hy)
    unfold issueList
    refine ok_bind.mpr ⟨_, hb, ?_⟩
    dsimp only
    split
    · rfl
    · exact hrest

theorem completeLoop_idle (hheap : ∀ e ∈ s.completionHeap.head?, now < e.tick) (fuel : ℕ) :
    completeLoop E now fuel s = (false, s) := by
  cases fuel with
  | zero => rfl
  | succ fuel =>
    unfold completeLoop
    cases hq : s.completionHeap with
    | nil => rfl
    | cons e rest =>
      have hlt : now < e.tick := hheap e (by rw [hq]; rfl)
      dsimp only
      rw [if_neg (not_le.mpr hlt)]

/-- A visit of a parked machine before the next completion changes nothing. -/
theorem visit_parked (h : Parked E s) (hheap : ∀ e ∈ s.completionHeap.head?, now < e.tick) :
    visitOf (phases E now) s = .ok s := by
  obtain ⟨hd, hheld, ⟨m, hm, hout⟩, hdw, hrw, -⟩ := h
  obtain ⟨dw, hdw⟩ := Option.isSome_iff_exists.mp hdw
  obtain ⟨rw', hrw⟩ := Option.isSome_iff_exists.mp hrw
  have hcomplete : complete E now s = (false, s) := completeLoop_idle hheap _
  have hdispatch : dispatch E now s = .ok s := by
    refine ok_bind.mpr ⟨dw, pipelineInt_ok.mpr hdw, ?_⟩
    rw [Nat.sub_eq_zero_of_le hd]
    rfl
  have hissue : issueFixedPoint E now s = .ok s := by
    have hlist : issueOnce E now s = .ok (false, s) := issueList_held _ hheld
    unfold issueFixedPoint FixedPoint.run
    rw [hcomplete]
    exact ok_bind.mpr ⟨_, hlist, rfl⟩
  have hretire : retire E now s = .ok s := by
    refine ok_bind.mpr ⟨rw', pipelineInt_ok.mpr hrw, ?_⟩
    have hloop : ∀ fuel, retireLoop E rw' now fuel 0 s = s := by
      intro fuel
      cases fuel with
      | zero => rfl
      | succ fuel =>
        unfold retireLoop
        rw [Option.mem_def.mp hm]
        simp [hout]
    rw [hloop]
  simp [visitOf, phases, hcomplete, hdispatch, hissue, hretire, Bind.bind, Except.bind, pure, Except.pure]

/-- What `_next_event_tick` asks a uop that cannot issue leaves the memory alone. -/
theorem pollWaiting_held (now : ℕ) (h : held E s x) (ticks : List ℕ) : ∃ later : List ℕ,
    pollWaiting E now s (s.memory, ticks) x = .ok (s.memory, ticks ++ later) ∧ ∀ t ∈ later, now < t := by
  obtain ⟨b, hb⟩ := issueBlocker_held now h
  obtain ⟨-, hdomains, hfree⟩ := h
  have hfirst : ∀ rs : List String, (∀ r ∈ rs, s.resourceFree r ≠ []) →
      ∃ ts, rs.mapM (firstFree s) = .ok ts := by
    intro rs hrs
    induction rs with
    | nil => exact ⟨[], rfl⟩
    | cons r rs ih =>
      obtain ⟨ts, hts⟩ := ih fun r' hr' => hrs r' (List.mem_cons_of_mem _ hr')
      obtain ⟨t, ht⟩ : ∃ t, firstFree s r = .ok t := by
        unfold firstFree
        cases hmin : (s.resourceFree r).min? with
        | none => exact absurd (List.min?_eq_none_iff.mp hmin) (hrs r List.mem_cons_self)
        | some t => exact ⟨t, rfl⟩
      refine ⟨t :: ts, ?_⟩
      rw [List.mapM_cons]
      exact ok_bind.mpr ⟨t, ht, ok_bind.mpr ⟨ts, hts, rfl⟩⟩
  obtain ⟨ts, hts⟩ := hfirst _ hfree
  refine ⟨_, ok_bind.mpr ⟨_, hb, ok_bind.mpr ⟨_, ok_bind.mpr ⟨ts, hts, ok_bind.mpr ⟨[], ?_, rfl⟩⟩, rfl⟩⟩, ?_⟩
  · rw [hdomains]
    rfl
  · intro t ht
    simpa using (List.mem_filter.mp ht).2

theorem pollAll_held (now : ℕ) : ∀ (xs : List ExecutionUop) (ticks : List ℕ), (∀ x ∈ xs, held E s x) →
    (∀ t ∈ ticks, now < t) → ∃ later : List ℕ,
      xs.foldlM (pollWaiting E now s) (s.memory, ticks) = .ok (s.memory, later) ∧ ∀ t ∈ later, now < t
  | [], ticks, _, ht => ⟨ticks, rfl, ht⟩
  | x :: xs, ticks, h, ht => by
    obtain ⟨later, hp, hl⟩ := pollWaiting_held now (h x List.mem_cons_self) ticks
    have hall : ∀ t ∈ ticks ++ later, now < t := fun t hm =>
      (List.mem_append.mp hm).elim (ht t) (hl t)
    obtain ⟨later', hp', hl'⟩ := pollAll_held now xs _ (fun y hy => h y (List.mem_cons_of_mem _ hy)) hall
    refine ⟨later', ?_, hl'⟩
    rw [List.foldlM_cons]
    exact ok_bind.mpr ⟨_, hp, hp'⟩

theorem parked_unfinished (h : Parked E s) : E.unfinished s.toCore = true := by
  obtain ⟨-, -, ⟨m, hm, -⟩, -⟩ := h
  cases hrob : s.rob with
  | nil => rw [hrob] at hm; cases hm
  | cons _ _ => simp [unfinished, hrob]

/-- The next tick of a parked machine is the next cycle. -/
theorem next_parked (h : Parked E s) (hheap : ∀ e ∈ s.completionHeap.head?, now < e.tick) :
    nextEventTick E now s = .ok (s, now + 1) := by
  obtain ⟨later, hp, hl⟩ := pollAll_held now _ [] h.2.1 (by simp)
  have hcycle : E.nextCycle now = now + 1 := by
    rw [nextCycle, h.2.2.2.2.2]
    simp
  refine ok_bind.mpr ⟨_, hp, ?_⟩
  have hmin : (scheduledTicks E now s ++ later).min? = some (now + 1) := by
    rw [List.min?_eq_some_iff]
    constructor
    · simp [scheduledTicks, parked_unfinished h, hcycle]
    · intro t ht
      rcases List.mem_append.mp ht with ht | ht
      · rcases List.mem_append.mp ht with ht | ht
        · obtain ⟨e, he, rfl⟩ : ∃ e, s.completionHeap.head? = some e ∧ e.tick = t := by simpa using ht
          exact hheap e he
        · simp [parked_unfinished h, hcycle] at ht
          exact ht.ge
      · exact hl t ht
  rw [hmin]

/-- A parked machine is visited at every tick up to the next completion. -/
theorem reaches_parked (h : Parked E s) {n : ℕ}
    (hheap : ∀ e ∈ s.completionHeap.head?, now + n ≤ e.tick) :
    Reaches (loop E) n now s (now + n) s :=
  reaches_idle (parked_unfinished h)
    (fun _ _ hu => visit_parked h fun e he => hu.trans_le (hheap e he))
    fun _ _ hu => next_parked h fun e he => hu.trans_le (hheap e he)

/-- A parked machine in which nothing is on its way never ends. -/
theorem parked_never {s' s₀ : Machine} {k n t : ℕ}
    (hr : Reaches (loop E) k 0 s₀ now s) (h : Parked E s) (hheap : s.completionHeap = []) :
    ¬ Ends (loop E) n 0 s₀ s' t := by
  intro hends
  have hlater : Reaches (loop E) (k + n) 0 s₀ (now + n) s :=
    hr.trans (reaches_parked h fun e he => by rw [hheap] at he; cases he)
  have herr := hlater.run_diverged (parked_unfinished h)
  have hok := (run_ok_iff fun now s s' t hu hn => by
    obtain ⟨memory, rfl⟩ := nextEventTick_ok hn
    exact hu).mpr ⟨n, Nat.le_add_left n k, hends⟩
  rw [hok] at herr
  cases herr

end VectorSim.Zen4
