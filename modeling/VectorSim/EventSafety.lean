/-
# The event file replays the run

`write_events_jsonl` sorts the events of a run by their ticks, and those of one
tick by the names of their types. Read from the top, the file of a run that has
ended tells a legal run of the machine: each uop is dispatched, ready, issued and
complete once, and no line comes before one that it needs (`Export.Replays`). A
blocked dispatch stands between the dispatches of the macro-ops before it and that
of a uop of its own. The names happen to stand in the right order: a completion
comes before a dispatch and an issue of the same tick, a blocked dispatch after the
dispatches, and a retirement after everything. Two lines tell less than they seem
to. A uop of no latency completes before it issues, and one that need not wait is
ready after it has issued.
-/
import VectorSim.Backend.Recorded
import VectorSim.Backend.XsaiBlocked
import VectorSim.Export
import VectorSim.LaneSafety

namespace VectorSim

open Core

variable {T : BoundTrace} {inOrder : Bool} {now : ℕ} {c : Core}

/-! ### The log of a run that has ended -/

/-- A run that has ended, with what it has recorded. -/
structure Ended (T : BoundTrace) (inOrder : Bool) (c : Core) : Prop where
  wellFormed : WellFormed T
  ordered : RunOrdered T inOrder c
  log : LogInv T c
  recorded : Recorded T c
  program : retirements c.events = T.macros.map (·.id)

theorem Core.Inv.endedRun (hT : WellFormed T) (hc : Core.Inv T inOrder now c) (hr : Recorded T c)
    (hnext : T.macros.length ≤ c.nextDispatch) (hrob : c.rob = []) : Ended T inOrder c := by
  have hordered := hc.ordered hT hnext hrob
  refine ⟨hT, hordered, hc.log, hr, hr.retired hrob fun m hm => ?_⟩
  -- its uops are dispatched
  obtain ⟨u, hu⟩ := List.exists_mem_of_ne_nil _ (hT.macroUops m hm)
  obtain ⟨x, hx, -⟩ := hT.owned m hm u hu
  obtain ⟨hmem, rfl⟩ := T.uop?_mem hx
  obtain ⟨d, -, -, -, hd, -⟩ := hordered.uop x hmem
  obtain ⟨e, -, he⟩ := hr.entered m hm _ hu d hd
  rw [he]
  rfl

namespace Zen4

variable {E : Setup} {s : Machine}

theorem run_ended (hT : WellFormed E.trace) (h : run E = .ok (s, now)) : Ended E.trace E.inOrder s.toCore := by
  obtain ⟨⟨hs, hr⟩, hf⟩ := run_invariant (P := fun now s => Inv E now s ∧ Recorded E.trace s.toCore) hT
    ⟨inv_init, recorded_init⟩
    (fun _ _ _ h hstep => ⟨inv_step hT h.1 hstep, h.2.steps hT h.1.core (step_core h.1 hstep)⟩)
    (fun _ _ _ h hlt => ⟨h.1.later hlt.le, h.2⟩) h
  have hend : E.trace.macros.length ≤ s.nextDispatch ∧ s.rob = [] := by simpa [Setup.unfinished] using hf
  exact hs.core.endedRun hT hr hend.1 hend.2

end Zen4

namespace Xsai

variable {E : Config} {s : Sched}

theorem run_ended (hT : WellFormed E.trace) (h : run E = .ok (s, now)) : Ended E.trace E.inOrder s.toCore := by
  obtain ⟨⟨hs, hr⟩, hf⟩ := run_invariant (P := fun now s => CoreInv E now s ∧ Recorded E.trace s.toCore) hT
    ⟨inv_init, recorded_init⟩
    (fun _ _ _ h hstep => ⟨inv_step hT h.1 hstep, h.2.steps hT h.1 (step_core hstep)⟩)
    (fun _ _ _ h hlt => ⟨h.1.later hlt.le, h.2⟩) h
  have hend : E.trace.macros.length ≤ s.nextDispatch ∧ s.rob = [] := by simpa [Setup.unfinished] using hf
  exact hs.endedRun hT hr hend.1 hend.2

end Xsai

/-! ### Events and timing fields -/

theorem mem_ticksOf {k : EventKind} {u : Id} {t : ℕ} {l : List Event} :
    t ∈ ticksOf k u l ↔ (⟨k, t, u⟩ : Event) ∈ l := by
  simp only [ticksOf, List.mem_map, List.mem_filter, decide_eq_true_eq]
  constructor
  · rintro ⟨e, ⟨he, rfl, rfl⟩, rfl⟩
    exact he
  · intro h
    exact ⟨_, ⟨h, rfl, rfl⟩, rfl⟩

theorem ticksOf_perm {k : EventKind} {u : Id} {l l' : List Event} (h : l.Perm l') :
    (ticksOf k u l).Perm (ticksOf k u l') := (h.filter _).map _

section Log

variable (hlog : LogInv T c) {u : Id} {t : ℕ}

include hlog

theorem mem_dispatch : (⟨.dispatch, t, u⟩ : Event) ∈ c.events ↔ (c.uop u).dispatchTick = some t := by
  rw [← mem_ticksOf, hlog.dispatch]

theorem mem_ready : (⟨.ready, t, u⟩ : Event) ∈ c.events ↔ (c.uop u).readyTick = some t := by
  rw [← mem_ticksOf, hlog.ready]
  simp

theorem mem_issue : (⟨.issue, t, u⟩ : Event) ∈ c.events ↔ (c.uop u).issueTick = some t := by
  rw [← mem_ticksOf, hlog.issue]
  simp

theorem mem_complete : (⟨.complete, t, u⟩ : Event) ∈ c.events ↔ (c.uop u).completeTick = some t := by
  rw [← mem_ticksOf, hlog.complete]
  simp

theorem mem_retire : (⟨.retire, t, u⟩ : Event) ∈ c.events ↔ (c.macro_ u).retireTick = some t := by
  rw [← mem_ticksOf, hlog.retire]
  simp

end Log

namespace Export

variable {bs : List BlockedEvent}

/-! ### The lines -/

/-- The events of uops and macro-ops among the lines. -/
def eventsOf (lines : List Line) : List Event := lines.filterMap fun
  | .event e => some e
  | .blocked _ => none

/-- The blocked dispatches among the lines. -/
def blockedOf (lines : List Line) : List BlockedEvent := lines.filterMap fun
  | .event _ => none
  | .blocked b => some b

theorem lineKey_lt {k k' : EventKind} {t t' : ℕ} {u u' : Id} (h : t < t' ∨ t = t' ∧ typeName k < typeName k') :
    lineKey (.event ⟨k, t, u⟩) < lineKey (.event ⟨k', t', u'⟩) := Prod.Lex.toLex_lt_toLex.mpr h

theorem lineKey_lt_of_le {k k' : EventKind} {t t' : ℕ} {u u' : Id} (h : t ≤ t') (hk : typeName k < typeName k') :
    lineKey (.event ⟨k, t, u⟩) < lineKey (.event ⟨k', t', u'⟩) := by
  rcases Nat.lt_or_eq_of_le h with hlt | heq
  · exact lineKey_lt (.inl hlt)
  · exact lineKey_lt (.inr ⟨heq, hk⟩)

/-- A blocked dispatch is told after the dispatches of its tick, and before what is of a later one. -/
theorem lineKey_blocked {t : ℕ} {u : Id} {b : BlockedEvent} :
    (t ≤ b.tick → lineKey (.event ⟨.dispatch, t, u⟩) < lineKey (.blocked b)) ∧
      (b.tick < t → lineKey (.blocked b) < lineKey (.event ⟨.dispatch, t, u⟩)) := by
  constructor
  · intro h
    refine Prod.Lex.toLex_lt_toLex.mpr ?_
    rcases Nat.lt_or_eq_of_le h with hlt | heq
    · exact .inl hlt
    · exact .inr ⟨heq, show "dispatch" < "dispatch_blocked" by decide⟩
  · exact fun h => Prod.Lex.toLex_lt_toLex.mpr (.inl h)

theorem mem_eventLines {l : Line} : l ∈ eventLines c bs ↔ l ∈ c.events.map Line.event ++ bs.map .blocked :=
  StableSort.mem_sortBy lineKey

theorem event_mem_eventLines {e : Event} : .event e ∈ eventLines c bs ↔ e ∈ c.events := by
  simp [mem_eventLines]

theorem blocked_mem_eventLines {b : BlockedEvent} : .blocked b ∈ eventLines c bs ↔ b ∈ bs := by
  simp [mem_eventLines]

section Split

variable {before after : List Line} {l : Line} {e : Event} (h : eventLines c bs = before ++ l :: after)

include h

/-- What comes before a line. -/
theorem mem_before (he : e ∈ c.events) (hlt : lineKey (.event e) < lineKey l) : .event e ∈ before :=
  StableSort.mem_before h (mem_eventLines.mp (event_mem_eventLines.mpr he)) hlt

/-- A line comes before another one of the file only if its key is no greater. -/
theorem not_before {f : Line} (hlt : lineKey l < lineKey f) : f ∉ before := fun hf =>
  absurd hlt (not_lt.mpr (StableSort.le_of_mem_before h hf))

theorem mem_of_split : l ∈ eventLines c bs := by rw [h]; simp

theorem mem_of_before (hf : .event e ∈ before) : e ∈ c.events := event_mem_eventLines.mp (by rw [h]; simp [hf])

end Split

theorem eventsOf_perm : (eventsOf (eventLines c bs)).Perm c.events := by
  have hperm := (StableSort.sortBy_perm lineKey (c.events.map Line.event ++ bs.map .blocked)).filterMap fun
    | .event e => some e
    | .blocked _ => none
  simpa [eventsOf, eventLines, List.filterMap_append, List.filterMap_map, Function.comp_def] using hperm

theorem ticksOf_eventLines {k : EventKind} {u : Id} {t : ℕ} (h : ticksOf k u c.events = [t]) :
    ticksOf k u (eventsOf (eventLines c bs)) = [t] := by
  have hperm : (ticksOf k u (eventsOf (eventLines c bs))).Perm [t] := h ▸ ticksOf_perm eventsOf_perm
  exact List.perm_singleton.mp hperm

/-- A retirement. -/
def Line.isRetire : Line → Bool
  | .event e => e.kind = .retire
  | .blocked _ => false

theorem filter_eventsOf (lines : List Line) :
    (eventsOf lines).filter (fun e => e.kind = .retire) = eventsOf (lines.filter Line.isRetire) := by
  induction lines with
  | nil => rfl
  | cons l lines ih =>
    cases l with
    | blocked b => simpa [eventsOf, Line.isRetire] using ih
    | event e =>
      by_cases hk : e.kind = .retire
      · simpa [eventsOf, Line.isRetire, hk] using ih
      · simpa [eventsOf, Line.isRetire, hk] using ih

/-- Where the log lists the retirements in the order of their ticks, the file lists them as the log does. -/
theorem retirements_eventLines (h : (c.events.filter fun e => e.kind = .retire).Pairwise fun e e' => e.tick ≤ e'.tick) :
    retirements (eventsOf (eventLines c bs)) = retirements c.events := by
  have hlog : (c.events.map Line.event ++ bs.map Line.blocked).filter Line.isRetire =
      (c.events.filter fun e => e.kind = .retire).map Line.event := by
    simp [List.filter_append, List.filter_map, Function.comp_def, Line.isRetire]
  have hfile : (eventLines c bs).filter Line.isRetire = (c.events.filter fun e => e.kind = .retire).map Line.event := by
    rw [eventLines, StableSort.filter_sortBy, hlog]
    rw [hlog, List.pairwise_map]
    refine h.imp_of_mem fun he he' hle => ?_
    have hkind := (List.mem_filter.mp he).2
    have hkind' := (List.mem_filter.mp he').2
    simp only [decide_eq_true_eq] at hkind hkind'
    refine Prod.Lex.toLex_le_toLex.mpr ?_
    rcases Nat.lt_or_eq_of_le hle with hlt | heq
    · exact .inl hlt
    · exact .inr ⟨heq, by simp [Line.type, hkind, hkind']⟩
  rw [retirements, filter_eventsOf, hfile, retirements]
  simp [eventsOf, List.filterMap_map]

/-- Of the lines of one key all are blocked dispatches, or none. -/
theorem filter_key (log : List Line) (k : ℕ ×ₗ String) : log.filter (lineKey · = k) =
    ((eventsOf log).map Line.event).filter (lineKey · = k) ++ ((blockedOf log).map Line.blocked).filter (lineKey · = k) := by
  have hne : ∀ (e : Event) (b : BlockedEvent), ¬ (lineKey (.event e) = k ∧ lineKey (.blocked b) = k) := by
    rintro e b ⟨he, hb⟩
    have htype : typeName e.kind = "dispatch_blocked" := congrArg (fun p => (ofLex p).2) (he.trans hb.symm)
    cases hk : e.kind <;> simp [hk, typeName] at htype
  have hnone : ∀ {e : Event}, lineKey (.event e) = k → ∀ bs : List BlockedEvent,
      (bs.map Line.blocked).filter (lineKey · = k) = [] := by
    intro e he bs
    refine List.filter_eq_nil_iff.mpr fun l hl => ?_
    obtain ⟨b, -, rfl⟩ := List.mem_map.mp hl
    simpa using fun hb => hne e b ⟨he, hb⟩
  have hnone' : ∀ {b : BlockedEvent}, lineKey (.blocked b) = k → ∀ es : List Event,
      (es.map Line.event).filter (lineKey · = k) = [] := by
    intro b hb es
    refine List.filter_eq_nil_iff.mpr fun l hl => ?_
    obtain ⟨e, -, rfl⟩ := List.mem_map.mp hl
    simpa using fun he => hne e b ⟨he, hb⟩
  induction log with
  | nil => rfl
  | cons l log ih =>
    cases l with
    | event e =>
      by_cases he : lineKey (.event e) = k
      · have hcons : eventsOf (.event e :: log) = e :: eventsOf log := rfl
        have hsame : blockedOf (.event e :: log) = blockedOf log := rfl
        rw [hcons, hsame, List.filter_cons_of_pos (by simpa using he), ih, List.map_cons,
          List.filter_cons_of_pos (by simpa using he), List.cons_append]
      · have hcons : eventsOf (.event e :: log) = e :: eventsOf log := rfl
        have hsame : blockedOf (.event e :: log) = blockedOf log := rfl
        rw [hcons, hsame, List.filter_cons_of_neg (by simpa using he), ih, List.map_cons,
          List.filter_cons_of_neg (by simpa using he)]
    | blocked b =>
      have hcons : blockedOf (.blocked b :: log) = b :: blockedOf log := rfl
      have hsame : eventsOf (.blocked b :: log) = eventsOf log := rfl
      by_cases hb : lineKey (.blocked b) = k
      · rw [hcons, hsame, List.filter_cons_of_pos (by simpa using hb), ih, List.map_cons,
          List.filter_cons_of_pos (by simpa using hb), hnone' hb, List.nil_append, List.nil_append]
      · rw [hcons, hsame, List.filter_cons_of_neg (by simpa using hb), ih, List.map_cons,
          List.filter_cons_of_neg (by simpa using hb)]

/-- **However the two lists are interleaved in the log, the file is the same.** -/
theorem eventLines_merge {log : List Line} (hevents : eventsOf log = c.events) (hblocked : blockedOf log = bs) :
    StableSort.sortBy lineKey log = eventLines c bs := by
  refine StableSort.sortBy_congr fun k => ?_
  rw [filter_key, hevents, hblocked, List.filter_append]

/-- The log retires the macro-ops at ticks that do not decrease. -/
theorem retirements_sorted (h : Ended T inOrder c) :
    (c.events.filter fun e => e.kind = .retire).Pairwise fun e e' => e.tick ≤ e'.tick := by
  have horder : (T.macros.map (·.id)).Pairwise fun a b => ∀ s t,
      (c.macro_ a).retireTick = some s → (c.macro_ b).retireTick = some t → s ≤ t := by
    rw [List.pairwise_map]
    exact h.ordered.retireOrder
  rw [← h.program, retirements, List.pairwise_map] at horder
  have htick : ∀ e ∈ c.events.filter (fun e => e.kind = .retire), (c.macro_ e.id).retireTick = some e.tick := by
    intro e he
    obtain ⟨hmem, hkind⟩ := List.mem_filter.mp he
    rw [decide_eq_true_eq] at hkind
    refine (mem_retire h.log).mp ?_
    rwa [← hkind]
  exact horder.imp_of_mem fun he he' hle => hle _ _ (htick _ he) (htick _ he')

/-! ### The replay -/

/-- What the file tells of a run, and what has been told by each of its lines. -/
structure Replays (T : BoundTrace) (c : Core) (bs : List BlockedEvent) : Prop where
  /-- The lines are about the uops and the macro-ops of the trace. -/
  known : ∀ e, .event e ∈ eventLines c bs → Known T e
  /-- Each uop has four lines, at its ticks. -/
  uop : ∀ x ∈ T.uops, ∃ d r i t, (c.uop x.id).dispatchTick = some d ∧ (c.uop x.id).readyTick = some r ∧
    (c.uop x.id).issueTick = some i ∧ (c.uop x.id).completeTick = some t ∧
    ticksOf .dispatch x.id (eventsOf (eventLines c bs)) = [d] ∧ ticksOf .ready x.id (eventsOf (eventLines c bs)) = [r] ∧
    ticksOf .issue x.id (eventsOf (eventLines c bs)) = [i] ∧ ticksOf .complete x.id (eventsOf (eventLines c bs)) = [t]
  /-- The macro-ops retire in program order. -/
  program : retirements (eventsOf (eventLines c bs)) = T.macros.map (·.id)
  sorted : (eventLines c bs).Pairwise fun l l' => l.tick ≤ l'.tick
  /-- An issue is told after the dispatch of the uop and the completions that it waits for. -/
  issue : ∀ before after i, ∀ x ∈ T.uops, eventLines c bs = before ++ .event ⟨.issue, i, x.id⟩ :: after →
    (∃ d, .event ⟨.dispatch, d, x.id⟩ ∈ before) ∧ ∀ p ∈ x.dependencies, ∃ t, .event ⟨.complete, t, p⟩ ∈ before
  /-- A uop is ready after its dispatch, and before its issue just where it has waited. -/
  ready : ∀ before after r, ∀ x ∈ T.uops, eventLines c bs = before ++ .event ⟨.ready, r, x.id⟩ :: after →
    (∃ d, .event ⟨.dispatch, d, x.id⟩ ∈ before) ∧
      ((∃ i, .event ⟨.issue, i, x.id⟩ ∈ before) ↔ (c.uop x.id).issueTick = some r)
  /-- A completion is told after the issue of the uop just where its latency is positive. -/
  complete : ∀ before after t, ∀ x ∈ T.uops, eventLines c bs = before ++ .event ⟨.complete, t, x.id⟩ :: after →
    ((∃ i, .event ⟨.issue, i, x.id⟩ ∈ before) ↔ 0 < (c.uop x.id).latencyTicks)
  /-- A retirement is told after the completions of all its uops. -/
  retire : ∀ before after t, ∀ m ∈ T.macros, eventLines c bs = before ++ .event ⟨.retire, t, m.id⟩ :: after →
    ∀ u ∈ m.uopIds, ∃ t, .event ⟨.complete, t, u⟩ ∈ before
  /-- A blocked dispatch is told after the dispatches of the macro-ops before it and before that of one
  of its uops. -/
  blocked : ∀ before after b, eventLines c bs = before ++ .blocked b :: after → b.domain = Xsai.fullDomain b.reason ∧
    ∃ (k : ℕ) (m : MacroOp), T.macros[k]? = some m ∧ m.id = b.instructionId ∧ m.sequence = b.sequence ∧
      (∃ u ∈ m.uopIds, ∃ d, .event ⟨.dispatch, d, u⟩ ∈ after) ∧
      ∀ j < k, ∀ m' : MacroOp, T.macros[j]? = some m' → ∀ u ∈ m'.uopIds, ∃ d, .event ⟨.dispatch, d, u⟩ ∈ before

section Lines

variable (h : Ended T inOrder c) {before after : List Line}

include h

theorem issue_line {i : ℕ} {x : ExecutionUop} (hx : x ∈ T.uops)
    (hsplit : eventLines c bs = before ++ .event ⟨.issue, i, x.id⟩ :: after) :
    (∃ d, .event ⟨.dispatch, d, x.id⟩ ∈ before) ∧ ∀ p ∈ x.dependencies, ∃ t, .event ⟨.complete, t, p⟩ ∈ before := by
  have hi := (mem_issue h.log).mp (event_mem_eventLines.mp (mem_of_split hsplit))
  constructor
  · obtain ⟨d, r, i', t, hd, hr, hi', ht, hdr, hri, -⟩ := h.ordered.uop x hx
    obtain rfl : i' = i := Option.some.inj (hi'.symm.trans hi)
    exact ⟨d, mem_before hsplit ((mem_dispatch h.log).mpr hd) (lineKey_lt_of_le (hdr.trans hri) (by decide))⟩
  · intro p hp
    obtain ⟨y, hy⟩ := Option.isSome_iff_exists.mp (h.wellFormed.dependencies x hx p hp)
    obtain ⟨hmem, rfl⟩ := T.uop?_mem hy
    obtain ⟨-, -, -, t, -, -, -, ht, -⟩ := h.ordered.uop y hmem
    have hle := h.ordered.dependency x hx y.id hp i t hi ht
    exact ⟨t, mem_before hsplit ((mem_complete h.log).mpr ht) (lineKey_lt_of_le hle (by decide))⟩

theorem ready_line {r : ℕ} {x : ExecutionUop} (hx : x ∈ T.uops)
    (hsplit : eventLines c bs = before ++ .event ⟨.ready, r, x.id⟩ :: after) :
    (∃ d, .event ⟨.dispatch, d, x.id⟩ ∈ before) ∧
      ((∃ i, .event ⟨.issue, i, x.id⟩ ∈ before) ↔ (c.uop x.id).issueTick = some r) := by
  obtain ⟨d, r', i, t, hd, hr', hi, -, hdr, hri, -⟩ := h.ordered.uop x hx
  obtain rfl : r' = r := Option.some.inj (hr'.symm.trans ((mem_ready h.log).mp (event_mem_eventLines.mp (mem_of_split hsplit))))
  refine ⟨⟨d, mem_before hsplit ((mem_dispatch h.log).mpr hd) (lineKey_lt_of_le hdr (by decide))⟩, ?_⟩
  constructor
  · rintro ⟨j, hj⟩
    obtain rfl : i = j := Option.some.inj (hi.symm.trans ((mem_issue h.log).mp (mem_of_before hsplit hj)))
    -- an issue that is told before is of the same tick
    by_contra hne
    have hlt : r' < i := lt_of_le_of_ne hri fun he => hne (he ▸ hi)
    exact not_before hsplit (lineKey_lt (.inl hlt)) hj
  · intro hir
    obtain rfl : i = r' := Option.some.inj (hi.symm.trans hir)
    exact ⟨i, mem_before hsplit ((mem_issue h.log).mpr hi) (lineKey_lt (.inr ⟨rfl, by decide⟩))⟩

theorem complete_line {t : ℕ} {x : ExecutionUop} (hx : x ∈ T.uops)
    (hsplit : eventLines c bs = before ++ .event ⟨.complete, t, x.id⟩ :: after) :
    (∃ i, .event ⟨.issue, i, x.id⟩ ∈ before) ↔ 0 < (c.uop x.id).latencyTicks := by
  obtain ⟨-, -, i, t', -, -, hi, ht', -, -, hlatency⟩ := h.ordered.uop x hx
  obtain rfl : t' = t := Option.some.inj (ht'.symm.trans ((mem_complete h.log).mp (event_mem_eventLines.mp (mem_of_split hsplit))))
  constructor
  · rintro ⟨j, hj⟩
    obtain rfl : i = j := Option.some.inj (hi.symm.trans ((mem_issue h.log).mp (mem_of_before hsplit hj)))
    by_contra hzero
    have heq : t' = i := by omega
    exact not_before hsplit (lineKey_lt (.inr ⟨heq, by decide⟩)) hj
  · intro hpos
    exact ⟨i, mem_before hsplit ((mem_issue h.log).mpr hi) (lineKey_lt (.inl (by omega)))⟩

theorem retire_line {t : ℕ} {m : MacroOp} (hm : m ∈ T.macros)
    (hsplit : eventLines c bs = before ++ .event ⟨.retire, t, m.id⟩ :: after) {u : Id} (hu : u ∈ m.uopIds) :
    ∃ t, .event ⟨.complete, t, u⟩ ∈ before := by
  have ht := (mem_retire h.log).mp (event_mem_eventLines.mp (mem_of_split hsplit))
  obtain ⟨s, t', hs, ht', hst⟩ := h.ordered.macroRetire m hm
  obtain rfl : t' = t := Option.some.inj (ht'.symm.trans ht)
  obtain ⟨s', hs', hall, -⟩ := h.ordered.macroComplete m hm
  obtain rfl : s' = s := Option.some.inj (hs'.symm.trans hs)
  obtain ⟨t₁, ht₁, hle⟩ := hall u hu
  exact ⟨t₁, mem_before hsplit ((mem_complete h.log).mpr ht₁) (lineKey_lt_of_le (hle.trans hst) (by decide))⟩

theorem blocked_line {b : BlockedEvent} (hb : Xsai.Stopped T c b) (hsplit : eventLines c bs = before ++ .blocked b :: after) :
    ∃ (k : ℕ) (m : MacroOp), T.macros[k]? = some m ∧ m.id = b.instructionId ∧ m.sequence = b.sequence ∧
      (∃ u ∈ m.uopIds, ∃ d, .event ⟨.dispatch, d, u⟩ ∈ after) ∧
      ∀ j < k, ∀ m' : MacroOp, T.macros[j]? = some m' → ∀ u ∈ m'.uopIds, ∃ d, .event ⟨.dispatch, d, u⟩ ∈ before := by
  obtain ⟨k, m, hm, hid, hsequence, ⟨u, hu, hlater⟩, hbefore⟩ := hb.waiting
  refine ⟨k, m, hm, hid, hsequence, ⟨u, hu, ?_⟩, fun j hj m' hm' v hv => ?_⟩
  · obtain ⟨x, hx, -⟩ := h.wellFormed.owned m (List.mem_of_getElem? hm) u hu
    obtain ⟨hmem, rfl⟩ := T.uop?_mem hx
    obtain ⟨d, -, -, -, hd, -⟩ := h.ordered.uop x hmem
    have hline : Line.event ⟨.dispatch, d, x.id⟩ ∈ eventLines c bs := event_mem_eventLines.mpr ((mem_dispatch h.log).mpr hd)
    have hnot : Line.event ⟨.dispatch, d, x.id⟩ ∉ before := not_before hsplit (lineKey_blocked.2 (hlater d hd))
    rw [hsplit, List.mem_append, List.mem_cons] at hline
    exact ⟨d, by simpa [hnot] using hline⟩
  · obtain ⟨d, hle, hd⟩ := hbefore j hj m' hm' v hv
    exact ⟨d, mem_before hsplit ((mem_dispatch h.log).mpr hd) (lineKey_blocked.1 hle)⟩

theorem replays (hd : DispatchedOnce T c) (hb : ∀ b ∈ bs, Xsai.Stopped T c b) : Replays T c bs where
  known e he := h.recorded.known e (event_mem_eventLines.mp he)
  uop x hx := by
    obtain ⟨d, r, i, t, hd', hr, hi, ht, -⟩ := h.ordered.uop x hx
    have hready : ticksOf .ready x.id c.events = [r] := by rw [h.log.ready, hr]; rfl
    have hissue : ticksOf .issue x.id c.events = [i] := by rw [h.log.issue, hi]; rfl
    have hcomplete : ticksOf .complete x.id c.events = [t] := by rw [h.log.complete, ht]; rfl
    obtain ⟨d', hdispatch, hd''⟩ := hd x hx
    obtain rfl : d' = d := Option.some.inj (hd''.symm.trans hd')
    exact ⟨d', r, i, t, hd', hr, hi, ht, ticksOf_eventLines hdispatch, ticksOf_eventLines hready,
      ticksOf_eventLines hissue, ticksOf_eventLines hcomplete⟩
  program := (retirements_eventLines (retirements_sorted h)).trans h.program
  sorted := by
    refine (StableSort.sortBy_sorted lineKey _).imp fun hle => ?_
    rcases Prod.Lex.toLex_le_toLex.mp hle with hlt | heq
    · exact hlt.le
    · exact heq.1.le
  issue _ _ _ _ hx hsplit := issue_line h hx hsplit
  ready _ _ _ _ hx hsplit := ready_line h hx hsplit
  complete _ _ _ _ hx hsplit := complete_line h hx hsplit
  retire _ _ _ _ hm hsplit _ hu := retire_line h hm hsplit hu
  blocked _ _ b hsplit := by
    have hstop := hb b (blocked_mem_eventLines.mp (mem_of_split hsplit))
    exact ⟨hstop.domain, blocked_line h hstop hsplit⟩

end Lines

end Export

/-- **The event file of a run replays it.** The Zen 4 engine logs no blocked dispatches. -/
theorem events_replay (T : BoundTrace) (hB : Bound T) (P : EngineProfile) (inOrder : Bool) (mode : CacheMode)
    (limit : Option Bool) :
    (∀ E s t, Zen4.init T P inOrder mode limit = .ok E → Zen4.run E = .ok (s, t) →
      Export.Replays E.trace s.toCore []) ∧
    ∀ expand E s t, Xsai.init T P inOrder mode limit expand = .ok E → Xsai.run E = .ok (s, t) →
      Export.Replays E.trace s.toCore s.blocked := by
  constructor
  · intro E s t hE h
    obtain ⟨hT, htrace, -⟩ := Zen4.init_ok hE
    exact Export.replays (Zen4.run_ended hT h)
      ((Zen4.run_ordered hT h).2.2 fun m hm => hB.distinct m (by rwa [← htrace])) fun _ hb => (by cases hb)
  · intro expand E s t hE h
    have hA := Xsai.init_ok hE
    exact Export.replays (Xsai.run_ended hA.wellFormed h)
      ((Xsai.run_ordered hA.wellFormed h).2.2 fun m hm => (Xsai.schedulerTrace_bound hB hA.scheduled m hm).1)
      ((Xsai.run_reachable h).stopped hA.wellFormed)

theorem events_replay_sample :
    (∃ E s t, Zen4.init Sample.kernelTrace Sample.kernelProfile false .cold none = .ok E ∧ Zen4.run E = .ok (s, t) ∧
      Export.Replays E.trace s.toCore []) ∧
    ∃ E s t, Xsai.init Sample.kernelTrace Sample.kernelProfile false .cold none false = .ok E ∧
      Xsai.run E = .ok (s, t) ∧ Export.Replays E.trace s.toCore s.blocked := by
  obtain ⟨E, s, t, hE, h, -⟩ := Sample.zen4_runs
  obtain ⟨E', s', t', hE', h', -⟩ := Sample.xsai_runs
  exact ⟨⟨E, s, t, hE, h, (events_replay _ Sample.kernelTrace_bound _ _ _ _).1 E s t hE h⟩,
    E', s', t', hE', h', (events_replay _ Sample.kernelTrace_bound _ _ _ _).2 false E' s' t' hE' h'⟩

end VectorSim
