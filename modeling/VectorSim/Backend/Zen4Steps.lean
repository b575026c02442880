/-
# The Zen 4 engine, step by step

`Zen4.Step` lists what the engine does to its state at one tick, each with
what was checked before; `visit_steps` proves that a visit of the event loop
is a sequence of such steps, and `step_core` that each of them is one of the
bookkeeping's. Every invariant of the engine is proved over `Step`.
-/
import VectorSim.Backend.Checks
import VectorSim.Backend.Zen4

namespace VectorSim
namespace Zen4

open Checked Setup Core

variable (E : Setup) (now : ℕ)

/-- One step of the engine at a tick. -/
inductive Step : Machine → Machine → Prop
  | complete {s : Machine} {e rest} (head : s.completionHeap = e :: rest) (due : e.tick ≤ now) :
      Step s (completeEntry E s e rest).2
  | dispatch {s : Machine} {m} (head : E.trace.macros[s.nextDispatch]? = some m)
      (room : dispatchBlocker E s m = .ok none) : Step s (dispatchMacro s m now)
  | stall {s : Machine} (reason : DispatchStall) : Step s { s with stalls := s.stalls ++ [reason] }
  | poll {s : Machine} (memory : MemoryState) : Step s { s with memory := memory }
  | issue {s : Machine} {x r a free} (issuable : Issuable E.trace E.inOrder now s.toCore x)
      (early : earlyBlocker E s x now = none) (selected : selectResource s x now = .ok r)
      (accessed : accessMemory E s x now = .ok a)
      (fits : ∀ d ∈ x.issueDomains, issueDomainDemand x d ≤ (s.issueDomainFree d).length)
      (reserved : reserveIssueDomains x now x.issueDomains s.issueDomainFree = .ok free) :
      Step s (issued E s x now r a free)
  | retire {s : Machine} {m rest} (mem : m ∈ E.trace.macros) (head : s.rob = m.id :: rest)
      (due : (s.macro_ m.id).completeTick.any (· ≤ now)) : Step s (retireMacro s m now)

abbrev Steps : Machine → Machine → Prop := Relation.ReflTransGen (Step E now)

variable {E now} {s s' : Machine}

/-- What every step keeps, any number of steps keep. -/
theorem Steps.invariant {P : Machine → Prop} (h : Steps E now s s') (hs : P s)
    (step : ∀ s s', P s → Step E now s s' → P s') : P s' := by
  induction h with
  | refl => exact hs
  | tail _ hstep ih => exact step _ _ ih hstep

variable (E now)

/-- A step that takes nothing into a structure: every step but a dispatch. -/
inductive Unload : Machine → Machine → Prop
  | complete {s : Machine} {e rest} (head : s.completionHeap = e :: rest) (due : e.tick ≤ now) :
      Unload s (completeEntry E s e rest).2
  | poll {s : Machine} (memory : MemoryState) : Unload s { s with memory := memory }
  | issue {s : Machine} {x r a free} (issuable : Issuable E.trace E.inOrder now s.toCore x)
      (step : Step E now s (issued E s x now r a free)) : Unload s (issued E s x now r a free)
  | retire {s : Machine} {m rest} (mem : m ∈ E.trace.macros) (head : s.rob = m.id :: rest)
      (due : (s.macro_ m.id).completeTick.any (· ≤ now)) : Unload s (retireMacro s m now)

abbrev Unloads : Machine → Machine → Prop := Relation.ReflTransGen (Unload E now)

variable {E now}

theorem Unload.toStep (h : Unload E now s s') : Step E now s s' := by
  cases h with
  | complete head due => exact .complete head due
  | poll memory => exact .poll memory
  | issue _ step => exact step
  | retire mem head due => exact .retire mem head due

theorem Unload.falls (h : Unload E now s s') : Falls s s' := by
  cases h with
  | complete head due =>
    unfold completeEntry
    dsimp only
    split <;> exact ⟨le_rfl, le_rfl, le_rfl, le_rfl⟩
  | poll memory => exact ⟨le_rfl, le_rfl, le_rfl, le_rfl⟩
  | issue _ _ => exact ⟨le_rfl, Int.sub_le_self _ (Int.natCast_nonneg _), le_rfl, le_rfl⟩
  | retire _ _ _ =>
    exact ⟨Int.sub_le_self _ (Int.natCast_nonneg _), le_rfl, Int.sub_le_self _ (Int.natCast_nonneg _),
      Int.sub_le_self _ (Int.natCast_nonneg _)⟩

theorem Unloads.steps (h : Unloads E now s s') : Steps E now s s' :=
  Relation.ReflTransGen.mono (fun _ _ hs => hs.toStep) s s' h

theorem Unloads.falls (h : Unloads E now s s') : Falls s s' := by
  induction h with
  | refl => exact .refl s
  | tail _ hstep ih => exact ih.trans hstep.falls

/-! ### The procedures are sequences of steps -/

theorem completeLoop_unloads : ∀ (fuel : ℕ) (s : Machine), Unloads E now s (completeLoop E now fuel s).2
  | 0, s => .refl
  | fuel + 1, s => by
    unfold completeLoop
    cases hq : s.completionHeap with
    | nil => exact .refl
    | cons e rest =>
      dsimp only
      split
      · next hdue => exact .head (.complete hq hdue) (completeLoop_unloads fuel _)
      · exact .refl

theorem complete_unloads (s : Machine) : Unloads E now s (complete E now s).2 :=
  completeLoop_unloads _ s

theorem complete_steps (s : Machine) : Steps E now s (complete E now s).2 := (complete_unloads s).steps

theorem dispatchLoop_steps {width : ℕ} : ∀ (fuel dispatched : ℕ) (s : Machine) {s' : Machine},
    dispatchLoop E width now fuel dispatched s = .ok s' → Steps E now s s'
  | 0, _, s, s', h => by cases h; exact .refl
  | fuel + 1, dispatched, s, s', h => by
    unfold dispatchLoop at h
    split at h
    · cases h; exact .refl
    · next m hm =>
      split at h
      · cases h; exact .refl
      · obtain ⟨b, hb, h⟩ := ok_bind.mp h
        split at h
        · cases h; exact .single (.stall _)
        · exact (Relation.ReflTransGen.single (.dispatch hm hb)).trans
            (dispatchLoop_steps fuel _ _ h)

theorem dispatch_steps (h : dispatch E now s = .ok s') : Steps E now s s' := by
  obtain ⟨width, _, h⟩ := ok_bind.mp h
  exact dispatchLoop_steps _ _ _ h

theorem earlyBlocker_none {x : ExecutionUop} (h : earlyBlocker E s x now = none) :
    dependencyBlocker (fun _ => .dependency) s.toCore x now = none ∧
      partBlocker s.toCore x now = none ∧ E.overlapBlocker s x = none ∧
      intervalBlocker s x now = none := by
  simpa [earlyBlocker, Option.or_eq_none_iff] using h

theorem issueBlocker_none {x : ExecutionUop} {memory : MemoryState}
    (h : issueBlocker E s x now = .ok (memory, none)) :
    earlyBlocker E s x now = none ∧ resourceBlocker s x now = .ok none ∧
      memoryBlocker E s x now = .ok (memory, none) ∧ domainBlocker s x now = .ok none := by
  unfold issueBlocker at h
  split at h
  · cases h
  · next he =>
    obtain ⟨b, hb, h⟩ := ok_bind.mp h
    split at h
    · cases h
    · obtain ⟨⟨memory', b'⟩, hm, h⟩ := ok_bind.mp h
      cases b' with
      | some b' => cases h
      | none =>
        obtain ⟨b'', hd, h⟩ := ok_bind.mp h
        cases h
        exact ⟨he, hb, hm, hd⟩

theorem issueUop_ok {x : ExecutionUop} (h : issueUop E s x now = .ok s') :
    ∃ r a free, selectResource s x now = .ok r ∧ accessMemory E s x now = .ok a ∧
      reserveIssueDomains x now x.issueDomains s.issueDomainFree = .ok free ∧
      s' = issued E s x now r a free := by
  obtain ⟨r, hr, h⟩ := ok_bind.mp h
  obtain ⟨a, ha, h⟩ := ok_bind.mp h
  obtain ⟨free, hf, h⟩ := ok_bind.mp h
  cases h
  exact ⟨r, a, free, hr, ha, hf, rfl⟩

theorem issueList_unloads : ∀ (xs : List ExecutionUop) (s : Machine) {r : Bool × Machine},
    Candidates E s.toCore xs → issueList E now xs s = .ok r → Unloads E now s r.2
  | [], s, r, _, h => by cases h; exact .refl
  | x :: xs, s, r, hc, h => by
    obtain ⟨⟨memory, b⟩, hb, h⟩ := ok_bind.mp h
    have hpoll : Unloads E now s { s with memory := memory } := .single (.poll memory)
    cases b with
    | some b =>
      dsimp only at h
      split at h
      · cases h; exact hpoll
      · exact hpoll.trans (issueList_unloads xs { s with memory := memory } hc.tail h)
    | none =>
      dsimp only at h
      obtain ⟨s₁, h₁, h⟩ := ok_bind.mp h
      obtain ⟨r', h', h⟩ := ok_bind.mp h
      cases h
      obtain ⟨p, a, free, hp, ha, hf, rfl⟩ := issueUop_ok h₁
      obtain ⟨he, -, -, hd⟩ := issueBlocker_none hb
      have hn := earlyBlocker_none he
      have hissuable := hc.issuable hn.1 hn.2.1
      have hi : Unload E now { s with memory := memory } (issued E _ x now p a free) :=
        .issue hissuable (.issue hissuable he hp ha (domainBlocker_demand hd) hf)
      have hrest := issueList_unloads xs _ (hc.issue a.2.2) h'
      exact (hpoll.tail hi).trans hrest

theorem issueOnce_unloads (hT : WellFormed E.trace) {r : Bool × Machine}
    (h : issueOnce E now s = .ok r) : Unloads E now s r.2 :=
  issueList_unloads _ s (candidates_issueCandidates hT _) h

theorem issueOnce_steps (hT : WellFormed E.trace) {r : Bool × Machine}
    (h : issueOnce E now s = .ok r) : Steps E now s r.2 := (issueOnce_unloads hT h).steps

theorem issueFixedPoint_unloads (hT : WellFormed E.trace) (h : issueFixedPoint E now s = .ok s') :
    Unloads E now s s' :=
  FixedPoint.run_steps h .trans complete_unloads fun _ _ hr => issueOnce_unloads hT hr

theorem retireLoop_unloads {width : ℕ} : ∀ (fuel retired : ℕ) (s : Machine),
    Unloads E now s (retireLoop E width now fuel retired s)
  | 0, _, s => .refl
  | fuel + 1, retired, s => by
    unfold retireLoop
    split
    · exact .refl
    · next m hm =>
      split
      · next hc =>
        obtain ⟨id, hid, hm⟩ := Option.bind_eq_some_iff.mp hm
        obtain ⟨hmem, rfl⟩ := E.trace.macro?_mem hm
        obtain ⟨rest, hrest⟩ := List.head?_eq_some_iff.mp hid
        exact .head (.retire hmem hrest hc.2.1) (retireLoop_unloads fuel _ _)
      · exact .refl

theorem retire_unloads (h : retire E now s = .ok s') : Unloads E now s s' := by
  obtain ⟨width, _, h⟩ := ok_bind.mp h
  cases h
  exact retireLoop_unloads _ _ s

theorem retire_steps (h : retire E now s = .ok s') : Steps E now s s' := (retire_unloads h).steps

/-- Dispatch is the only procedure of the loop's body that takes anything into a structure. -/
theorem phase_unloads (hT : WellFormed E.trace) {k : ℕ} {f : Machine → Except SimError Machine}
    (hf : (phases E now)[k]? = some f) (hk : k ≠ 1) (h : f s = .ok s') : Unloads E now s s' := by
  rcases k with _ | _ | _ | _ | _ | k
  · cases hf; cases h; exact complete_unloads s
  · exact absurd rfl hk
  · cases hf; exact issueFixedPoint_unloads hT h
  · cases hf; cases h; exact complete_unloads s
  · cases hf
    dsimp only at h
    split at h
    · exact retire_unloads h
    · cases h; exact .refl
  · cases hf

/-- Each procedure of the loop's body is a sequence of steps. -/
theorem phase_steps (hT : WellFormed E.trace) {f : Machine → Except SimError Machine}
    (hf : f ∈ phases E now) (h : f s = .ok s') : Steps E now s s' := by
  obtain ⟨k, hk⟩ := List.mem_iff_getElem?.mp hf
  by_cases hdispatch : k = 1
  · subst hdispatch
    cases hk
    dsimp only at h
    split at h
    · exact dispatch_steps h
    · cases h; exact .refl
  · exact (phase_unloads hT hk hdispatch h).steps

/-- A visit, or a part of one, is a sequence of steps. -/
theorem visit_steps (hT : WellFormed E.trace) {fs : List (Machine → Except SimError Machine)}
    (hfs : fs ⊆ phases E now) (h : visitOf fs s = .ok s') : Steps E now s s' :=
  foldlM_ok (P := fun t => Steps E now s t) h .refl fun _ hf _ _ ht hs =>
    ht.trans (phase_steps hT (hfs hf) hs)

/-- The choice of the next tick polls the memory hierarchy and changes nothing else. -/
theorem nextEventTick_ok {t : ℕ} (h : nextEventTick E now s = .ok (s', t)) :
    ∃ memory, s' = { s with memory := memory } := by
  obtain ⟨r, _, h⟩ := ok_bind.mp h
  split at h
  · cases h
  · cases h; exact ⟨_, rfl⟩

/-- While there is work, the next tick is no later than the next cycle. -/
theorem nextEventTick_le {t : ℕ} (hu : E.unfinished s.toCore = true) (h : nextEventTick E now s = .ok (s', t)) :
    t ≤ E.nextCycle now := by
  obtain ⟨r, -, h⟩ := ok_bind.mp h
  split at h
  · cases h
  · next t' ht =>
    cases h
    refine (List.min?_eq_some_iff.mp ht).2 _ (List.mem_append_left _ ?_)
    simp [scheduledTicks, hu]

/-! ### The steps of the bookkeeping -/

/-- No macro-op is dispatched before its turn. -/
def Whole (T : BoundTrace) (c : Core) : Prop :=
  ∀ {k : ℕ} {m : MacroOp}, c.nextDispatch ≤ k → T.macros[k]? = some m →
    (c.macro_ m.id).dispatchTick = none

/-- The bookkeeping of the engine is in order. -/
structure Inv (E : Setup) (now : ℕ) (s : Machine) : Prop where
  core : Core.Inv E.trace E.inOrder now s.toCore
  whole : Whole E.trace s.toCore

theorem whole_enterRob {T : BoundTrace} {c : Core} {m : MacroOp} (hT : WellFormed T)
    (hw : Whole T c) (head : T.macros[c.nextDispatch]? = some m) :
    Whole T ((c.enterRob m.id now).dispatchAll now m.uopIds).advance := by
  intro k m' hk hm'
  have hnext : ((c.enterRob m.id now).dispatchAll now m.uopIds).advance.nextDispatch =
      c.nextDispatch + 1 := by simp [Core.advance, Core.enterRob]
  rw [hnext] at hk
  have hne : m'.id ≠ m.id := by
    intro he
    have := index_inj hT hm' head he
    omega
  have hmac : ((c.enterRob m.id now).dispatchAll now m.uopIds).advance.macro_ =
      (c.enterRob m.id now).macro_ := by simp [Core.advance]
  rw [hmac]
  simpa [Core.enterRob, hne] using hw (by omega) hm'

/-- The dispatch of a macro-op is three kinds of steps of the bookkeeping. -/
theorem dispatchMacro_core (hs : Inv E now s) {m : MacroOp}
    (head : E.trace.macros[s.nextDispatch]? = some m) :
    Core.Steps E.trace E.inOrder now s.toCore (dispatchMacro s m now).toCore := by
  have hmem := List.mem_of_getElem? head
  have hout := hs.whole le_rfl head
  have hpend : ∀ u ∈ m.uopIds, ((s.toCore.enterRob m.id now).uop u).dispatchTick = none := by
    intro u hu
    by_contra hne
    have := hs.core.macros.owner hmem u hu (Option.isSome_iff_ne_none.mpr hne)
    rw [hout] at this
    cases this
  have h1 : Core.Step E.trace E.inOrder now s.toCore (s.toCore.enterRob m.id now) :=
    .enterRob head hout
  have h2 : Core.Step E.trace E.inOrder now (s.toCore.enterRob m.id now)
      ((s.toCore.enterRob m.id now).dispatchAll now m.uopIds) :=
    .dispatch head (by simp [Core.enterRob]) (List.Sublist.refl _) hpend
  have h3 : Core.Step E.trace E.inOrder now ((s.toCore.enterRob m.id now).dispatchAll now m.uopIds)
      (dispatchMacro s m now).toCore := by
    refine .advance (m := m) ?_ fun u hu => ?_
    · simpa [Core.enterRob] using head
    · rw [dispatchAll_uop, if_pos hu]; rfl
  exact ((Relation.ReflTransGen.single h1).tail h2).tail h3

/-- Every step of the engine is steps of the bookkeeping. -/
theorem step_core (hs : Inv E now s) (h : Step E now s s') :
    Core.Steps E.trace E.inOrder now s.toCore s'.toCore := by
  cases h with
  | @complete e rest head due =>
    unfold completeEntry
    dsimp only
    split
    · next hc => exact .single (.drop head hc)
    · next hc => exact .single (.complete head due (by simpa using hc))
  | dispatch head _ => exact dispatchMacro_core hs head
  | stall _ | poll _ => exact .refl
  | issue issuable _ _ _ _ _ => exact .single (.issue issuable)
  | @retire m rest mem head due =>
    obtain ⟨t, ht, hle⟩ : ∃ t, (s.macro_ m.id).completeTick = some t ∧ t ≤ now := by
      simpa [Option.any_eq_true] using due
    exact .single (.retire mem head ht hle)

theorem whole_step (hT : WellFormed E.trace) (hs : Inv E now s) (h : Step E now s s') :
    Whole E.trace s'.toCore := by
  cases h with
  | @complete e rest head due =>
    unfold completeEntry
    dsimp only
    split
    · exact hs.whole
    · intro k m hk hm
      exact (completedMacros_ticks _ _ _ _).1.trans (hs.whole hk hm)
  | dispatch head _ => exact whole_enterRob hT hs.whole head
  | stall _ | poll _ | issue _ _ _ _ _ _ => exact hs.whole
  | @retire m rest _ _ _ =>
    intro k m' hk hm'
    have := hs.whole hk hm'
    simp only [retireMacro, Core.retire, Function.update_apply]
    split
    · next he => rw [he] at this; exact this
    · exact this

theorem inv_step (hT : WellFormed E.trace) (hs : Inv E now s) (h : Step E now s s') : Inv E now s' :=
  ⟨hs.core.steps hT (step_core hs h), whole_step hT hs h⟩

theorem inv_init : Inv E 0 E.machineInit :=
  ⟨Core.inv_init, fun _ _ => rfl⟩

/-! ### Runs -/

/-- The states of the event loop when it looks at its condition. -/
def AtTick (E : Setup) (now : ℕ) (s : Machine) : Prop :=
  ∃ n, EventLoop.Reaches (loop E) n 0 E.machineInit now s

/-- The states of a run: at a tick, and after any of the procedures of the loop's body. -/
def Reachable (E : Setup) (now : ℕ) (s : Machine) : Prop :=
  ∃ s₀ fs gs, AtTick E now s₀ ∧ phases E now = fs ++ gs ∧ visitOf fs s₀ = .ok s

/-- What every step keeps, and the passing of time, holds at every tick of a run. -/
theorem AtTick.invariant {P : ℕ → Machine → Prop} (hT : WellFormed E.trace)
    (init : P 0 E.machineInit) (step : ∀ now s s', P now s → Step E now s s' → P now s')
    (later : ∀ now next s, P now s → now < next → P next s) (h : AtTick E now s) : P now s := by
  obtain ⟨n, h⟩ := h
  refine h.invariant init ?_ ?_
  · intro now s s' hs _ hv
    exact (visit_steps hT (List.Subset.refl _) hv).invariant hs (step now)
  · intro now s s' t hs hn hlt
    obtain ⟨memory, rfl⟩ := nextEventTick_ok hn
    exact later _ _ _ (step _ _ _ hs (.poll memory)) hlt

/-- The same of every state of a run. -/
theorem Reachable.invariant {P : ℕ → Machine → Prop} (hT : WellFormed E.trace)
    (init : P 0 E.machineInit) (step : ∀ now s s', P now s → Step E now s s' → P now s')
    (later : ∀ now next s, P now s → now < next → P next s) (h : Reachable E now s) : P now s := by
  obtain ⟨s₀, fs, gs, h₀, hfs, hv⟩ := h
  exact (visit_steps hT (hfs ▸ List.subset_append_left fs gs) hv).invariant
    (h₀.invariant hT init step later) (step now)

/-- The same of the state a run ends in, whatever its guard. -/
theorem run_invariant {P : ℕ → Machine → Prop} (hT : WellFormed E.trace)
    (init : P 0 E.machineInit) (step : ∀ now s s', P now s → Step E now s s' → P now s')
    (later : ∀ now next s, P now s → now < next → P next s) {visits : ℕ}
    (h : EventLoop.run (loop E) visits 0 E.machineInit = .ok (s, now)) :
    P now s ∧ E.unfinished s.toCore = false := by
  refine EventLoop.run_invariant h init ?_ ?_
  · intro now s s' hs _ hv
    exact (visit_steps hT (List.Subset.refl _) hv).invariant hs (step now)
  · intro now s s' t hs hn hlt
    obtain ⟨memory, rfl⟩ := nextEventTick_ok hn
    exact later _ _ _ (step _ _ _ hs (.poll memory)) hlt

theorem Inv.later {next : ℕ} (h : Inv E now s) (hn : now ≤ next) : Inv E next s :=
  ⟨h.core.later hn, h.whole⟩

/-- The state a run ends in is one of its states. -/
theorem run_reachable (h : run E = .ok (s, now)) : Reachable E now s := by
  obtain ⟨n, s₁, hr, rfl | hv⟩ := EventLoop.run_reaches h
  · exact ⟨s, [], phases E now, ⟨n, hr⟩, rfl, rfl⟩
  · exact ⟨s₁, phases E now, [], ⟨n, hr⟩, (List.append_nil _).symm, hv⟩

/-- A run that ends is a loop that does. -/
theorem run_ends (h : run E = .ok (s, now)) : ∃ n, EventLoop.Ends (loop E) n 0 E.machineInit s now := by
  obtain ⟨n, -, hn⟩ := (EventLoop.run_ok_iff fun _ _ _ _ hu hn => by
    obtain ⟨memory, rfl⟩ := nextEventTick_ok hn
    exact hu).mp h
  exact ⟨n, hn⟩

/-- The bookkeeping of a run is in order, and at its end everything is. -/
theorem run_ordered (hT : WellFormed E.trace) {visits : ℕ}
    (h : EventLoop.run (loop E) visits 0 E.machineInit = .ok (s, now)) :
    Inv E now s ∧ RunOrdered E.trace E.inOrder s.toCore ∧
      ((∀ m ∈ E.trace.macros, m.uopIds.Nodup) → DispatchedOnce E.trace s.toCore) := by
  obtain ⟨hs, hf⟩ := run_invariant (P := Inv E) hT inv_init (fun _ _ _ => inv_step hT)
    (fun _ _ _ h hlt => h.later hlt.le) h
  have hend : E.trace.macros.length ≤ s.nextDispatch ∧ s.rob = [] := by
    simpa [unfinished] using hf
  exact ⟨hs, hs.core.ordered hT hend.1 hend.2, hs.core.dispatchedOnce hT hend.1⟩

end Zen4
end VectorSim
