/-
# The exported counters and the engines' own

The export reads the occupancies off the timestamps of a run. At the end of a
tick the engine's counters are what they count, and what they count is settled:
a tick that is set later is later. So the tracks of the reorder buffer and of
the queues show the engine's counters, as long as a buffer entry is the same
for both; and that of the vector scheduler does just where the first vector
uops of a macro-op to issue have one of the kinds the export knows.
-/
import VectorSim.Bound
import VectorSim.Export
import VectorSim.OccupancySafety

namespace VectorSim

open Core

/-! ### What is settled at the end of a tick -/

section Settled

variable {T : BoundTrace} {inOrder : Bool} {now u : ℕ} {c c' c'' : Core}

/-- The ticks up to `u` are the same. -/
structure SameUpTo (u : ℕ) (c c' : Core) : Prop where
  dispatch : ∀ {m t}, t ≤ u → ((c'.macro_ m).dispatchTick = some t ↔ (c.macro_ m).dispatchTick = some t)
  retire : ∀ {m t}, t ≤ u → ((c'.macro_ m).retireTick = some t ↔ (c.macro_ m).retireTick = some t)
  issue : ∀ {v t}, t ≤ u → ((c'.uop v).issueTick = some t ↔ (c.uop v).issueTick = some t)

theorem SameUpTo.of_eq (dispatch : ∀ m, (c'.macro_ m).dispatchTick = (c.macro_ m).dispatchTick)
    (retire : ∀ m, (c'.macro_ m).retireTick = (c.macro_ m).retireTick)
    (issue : ∀ v, (c'.uop v).issueTick = (c.uop v).issueTick) : SameUpTo u c c' :=
  ⟨fun _ => by rw [dispatch], fun _ => by rw [retire], fun _ => by rw [issue]⟩

theorem SameUpTo.refl (u : ℕ) (c : Core) : SameUpTo u c c := .of_eq (fun _ => rfl) (fun _ => rfl) fun _ => rfl

theorem SameUpTo.trans (h : SameUpTo u c c') (h' : SameUpTo u c' c'') : SameUpTo u c c'' where
  dispatch ht := (h'.dispatch ht).trans (h.dispatch ht)
  retire ht := (h'.retire ht).trans (h.retire ht)
  issue ht := (h'.issue ht).trans (h.issue ht)

/-- A tick that is set now is none up to `u`. -/
theorem some_iff_of_later {o : Option ℕ} {t : ℕ} (ho : o = none) (hu : u < now) (ht : t ≤ u) :
    some now = some t ↔ o = some t := by
  rw [ho, Option.some.injEq]
  exact iff_of_false (by omega) (by simp)

/-- A step sets no tick but the current one. -/
theorem Core.Step.sameUpTo (hT : WellFormed T) (hc : Core.Inv T inOrder now c) (hu : u < now)
    (h : Core.Step T inOrder now c c') : SameUpTo u c c' := by
  cases h with
  | drop _ _ | advance _ _ => exact .of_eq (fun _ => rfl) (fun _ => rfl) fun _ => rfl
  | @complete e rest head due running =>
    refine .of_eq (fun m => (completedMacros_ticks _ _ _ m).1) (fun m => (completedMacros_ticks _ _ _ m).2)
      fun v => ?_
    rw [completeUop_uop]
    split <;> rfl
  | @enterRob m head outside =>
    refine ⟨fun {m' t} ht => ?_, fun {m' t} _ => ?_, fun _ => Iff.rfl⟩
    · by_cases hm : m' = m.id
      · subst hm
        simpa [Core.enterRob] using some_iff_of_later outside hu ht
      · simp [Core.enterRob, hm]
    · by_cases hm : m' = m.id
      · subst hm; simp [Core.enterRob]
      · simp [Core.enterRob, hm]
  | @dispatch m us head inside listed pending =>
    refine ⟨fun _ => by rw [dispatchAll_macros], fun _ => by rw [dispatchAll_macros], fun _ => ?_⟩
    rw [dispatchAll_uop]
    split <;> exact Iff.rfl
  | @issue x latency issuable =>
    refine ⟨fun _ => Iff.rfl, fun _ => Iff.rfl, fun {v t} ht => ?_⟩
    rw [issue_uop]
    split
    · next hv =>
      subst hv
      exact some_iff_of_later ((hc.uops.waiting x.id).mp issuable.waiting).2 hu ht
    · exact Iff.rfl
  | @retire m rest t mem head complete due =>
    obtain ⟨r, a, hr⟩ := hc.rob
    refine ⟨fun {m' t} _ => ?_, fun {m' t} ht => ?_, fun _ => Iff.rfl⟩
    · by_cases hm : m' = m.id
      · subst hm; simp [Core.retire]
      · simp [Core.retire, hm]
    · by_cases hm : m' = m.id
      · subst hm
        simpa [Core.retire] using some_iff_of_later (hr.head_unretired hT mem head) hu ht
      · simp [Core.retire, hm]

theorem Core.Steps.sameUpTo (hT : WellFormed T) (hc : Core.Inv T inOrder now c) (hu : u < now)
    (h : Core.Steps T inOrder now c c') : SameUpTo u c c' := by
  induction h with
  | refl => exact .refl u c
  | tail hsteps hstep ih => exact ih.trans (hstep.sameUpTo hT (hc.steps hT hsteps) hu)

end Settled

/-- The state at the end of a tick, seen from the end of the run. -/
structure Settled (T : BoundTrace) (inOrder : Bool) (u : ℕ) (c F : Core) : Prop where
  inv : ∃ now ≤ u, Core.Inv T inOrder now c
  same : SameUpTo u c F

/-- A run that has ended. -/
structure Completed (T : BoundTrace) (F : Core) : Prop where
  dispatch : ∀ m ∈ T.macros, ∃ t, (F.macro_ m.id).dispatchTick = some t
  retire : ∀ m ∈ T.macros, ∃ t, (F.macro_ m.id).retireTick = some t
  issue : ∀ x ∈ T.uops, ∃ t, (F.uop x.id).issueTick = some t

section AtEnd

variable {T : BoundTrace} {inOrder : Bool} {u : ℕ} {c F : Core}

/-- What has a tick now is what has one up to `u` in the end. -/
theorem isSome_iff_settled {o o' : Option ℕ} (le : ∀ t ∈ o, t ≤ u) (same : ∀ {t}, t ≤ u → (o' = some t ↔ o = some t)) :
    o.isSome ↔ ∃ t ≤ u, o' = some t := by
  constructor
  · intro h
    obtain ⟨t, ht⟩ := Option.isSome_iff_exists.mp h
    exact ⟨t, le t ht, (same (le t ht)).mpr ht⟩
  · rintro ⟨t, hle, ht⟩
    rw [(same hle).mp ht]
    rfl

theorem Settled.dispatched (h : Settled T inOrder u c F) (m : Id) :
    (c.macro_ m).dispatchTick.isSome ↔ ∃ t ≤ u, (F.macro_ m).dispatchTick = some t := by
  obtain ⟨now, hnow, hc⟩ := h.inv
  obtain ⟨r, a, hr⟩ := hc.rob
  exact isSome_iff_settled (fun t ht => (hr.dispatch_le ht).trans hnow) h.same.dispatch

theorem Settled.retired (h : Settled T inOrder u c F) (m : Id) :
    (c.macro_ m).retireTick.isSome ↔ ∃ t ≤ u, (F.macro_ m).retireTick = some t := by
  obtain ⟨now, hnow, hc⟩ := h.inv
  obtain ⟨r, a, hr⟩ := hc.rob
  exact isSome_iff_settled (fun t ht => (hr.retire_le ht).trans hnow) h.same.retire

theorem Settled.issued (h : Settled T inOrder u c F) (v : Id) :
    (c.uop v).issueTick.isSome ↔ ∃ t ≤ u, (F.uop v).issueTick = some t := by
  obtain ⟨now, hnow, hc⟩ := h.inv
  exact isSome_iff_settled (fun t ht => (hc.uops.issued ht).1.trans hnow) h.same.issue

/-! ### The reorder buffer and the queues -/

/-- What a macro-op takes of the reorder buffer and the queues. -/
def held (m : MacroOp) : Export.Track → ℕ
  | .rob => m.robEntryCount
  | .loadQueue => m.usesLoadQueue.toNat
  | .storeQueue => m.usesStoreQueue.toNat
  | .vectorScheduler => 0

/-- One track of all changes up to a tick. -/
theorem upTo_apply (l : List (ℕ × (Export.Track → ℤ))) (k : Export.Track) (n : ℕ) :
    Timeline.upTo l n k = Timeline.upTo (l.map fun e => (e.1, e.2 k)) n := by
  induction l with
  | nil => rfl
  | cons e l ih =>
    rw [Timeline.upTo_cons, List.map_cons, Timeline.upTo_cons, Pi.add_apply, ih]
    split <;> rfl

theorem upTo_queueChanges {m : MacroOp} {d r : ℕ} (hd : (F.macro_ m.id).dispatchTick = some d)
    (hr : (F.macro_ m.id).retireTick = some r) (k : Export.Track) :
    Timeline.upTo (Export.queueChanges F m) u k =
      (if d ≤ u then (held m k : ℤ) else 0) - if r ≤ u then (held m k : ℤ) else 0 := by
  unfold Export.queueChanges
  rw [hd, hr]
  rw [upTo_apply]
  cases k <;> cases hl : m.usesLoadQueue <;> cases hs : m.usesStoreQueue <;>
    simp [held, Export.change, hl, hs, sub_eq_add_neg] <;> split <;> simp

/-- What comes with the dispatch and goes with the retirement is there while the macro-op is live. -/
theorem Settled.interval (h : Settled T inOrder u c F) {m : MacroOp} (hm : m ∈ T.macros) {d r : ℕ}
    (hd : (F.macro_ m.id).dispatchTick = some d) (hr : (F.macro_ m.id).retireTick = some r) (a : ℤ) :
    ((if d ≤ u then a else 0) - if r ≤ u then a else 0) = if live c m then a else 0 := by
  have hdispatched : (c.macro_ m.id).dispatchTick.isSome ↔ d ≤ u := by
    rw [h.dispatched, hd]
    simp
  have hretired : (c.macro_ m.id).retireTick.isSome ↔ r ≤ u := by
    rw [h.retired, hr]
    simp
  have horder : (c.macro_ m.id).retireTick.isSome → (c.macro_ m.id).dispatchTick.isSome := by
    obtain ⟨now, -, hc⟩ := h.inv
    obtain ⟨a, b, hrob⟩ := hc.rob
    obtain ⟨i, hi⟩ := List.mem_iff_getElem?.mp hm
    exact fun hret => (hrob.dispatched hi).mpr (((hrob.retired hi).mp hret).trans_le hrob.le)
  by_cases h1 : d ≤ u
  · by_cases h2 : r ≤ u
    · have hlive : live c m = false := by
        rw [live, Bool.and_eq_false_iff]
        exact .inr (by simpa using hretired.mpr h2)
      simp [h1, h2, hlive]
    · have hlive : live c m = true := by
        have hnone : (c.macro_ m.id).retireTick = none := by
          simpa using fun hret => h2 (hretired.mp hret)
        simp [live, hdispatched.mpr h1, hnone]
      simp [h1, h2, hlive]
  · have h2 : ¬ r ≤ u := fun h2 => h1 (hdispatched.mp (horder (hretired.mpr h2)))
    have hlive : live c m = false := by
      have hnone : (c.macro_ m.id).dispatchTick = none := by
        simpa using fun hdis => h1 (hdispatched.mp hdis)
      simp [live, hnone]
    simp [h1, h2, hlive]

/-! ### The vector scheduler -/

/-- The macro-op waits in the vector scheduler as the export sees it. -/
def waitsExported (T : BoundTrace) (c : Core) (m : MacroOp) : Bool :=
  (c.macro_ m.id).dispatchTick.isSome && m.usesVectorScheduler &&
    !m.uopIds.any fun v => Export.isExported T v && (c.uop v).issueTick.isSome

/-- A uop of a macro-op issues when it is dispatched. -/
theorem Settled.issued_dispatched (h : Settled T inOrder u c F) {m : MacroOp} (hm : m ∈ T.macros) {v : Id}
    (hv : v ∈ m.uopIds) (hi : (c.uop v).issueTick.isSome) : (c.macro_ m.id).dispatchTick.isSome := by
  obtain ⟨now, -, hc⟩ := h.inv
  obtain ⟨i, hi⟩ := Option.isSome_iff_exists.mp hi
  exact hc.macros.owner hm v hv (hc.issued_dispatched hi)

theorem Settled.schedulerChanges (h : Settled T inOrder u c F) (hF : Completed T F) {m : MacroOp}
    (hm : m ∈ T.macros) (k : Export.Track) : Timeline.upTo (Export.schedulerChanges T F m) u k =
      if k = .vectorScheduler ∧ waitsExported T c m then 1 else 0 := by
  obtain ⟨d, hd⟩ := hF.dispatch m hm
  have hdispatched : (c.macro_ m.id).dispatchTick.isSome ↔ d ≤ u := by
    rw [h.dispatched, hd]
    simp
  have hdec : (c.macro_ m.id).dispatchTick.isSome = decide (d ≤ u) :=
    Bool.eq_iff_iff.mpr (by simpa using hdispatched)
  have hissued : (m.uopIds.any fun v => Export.isExported T v && (c.uop v).issueTick.isSome) = true ↔
      ∃ t ∈ Export.vectorIssueTicks T F m, t ≤ u := by
    simp only [List.any_eq_true, Bool.and_eq_true, h.issued, Export.vectorIssueTicks, List.mem_filterMap]
    constructor
    · rintro ⟨v, hv, hx, t, ht, hi⟩
      exact ⟨t, ⟨v, hv, by rw [if_pos hx]; exact hi⟩, ht⟩
    · rintro ⟨t, ⟨v, hv, hi⟩, ht⟩
      split at hi
      · next hx => exact ⟨v, hv, hx, t, ht, hi⟩
      · cases hi
  unfold Export.schedulerChanges waitsExported
  rw [hd]
  cases huses : m.usesVectorScheduler with
  | false => simp
  | true =>
    cases hmin : (Export.vectorIssueTicks T F m).min? with
    | none =>
      have hany : (m.uopIds.any fun v => Export.isExported T v && (c.uop v).issueTick.isSome) = false := by
        rw [Bool.eq_false_iff, ne_eq, hissued, List.min?_eq_none_iff.mp hmin]
        simp
      rw [hany, hdec, upTo_apply]
      cases k <;> simp [Export.change]
    | some i =>
      obtain ⟨hi, hle⟩ := List.min?_eq_some_iff.mp hmin
      have hany : (m.uopIds.any fun v => Export.isExported T v && (c.uop v).issueTick.isSome) = true ↔ i ≤ u := by
        rw [hissued]
        exact ⟨fun ⟨t, ht, htu⟩ => (hle t ht).trans htu, fun hiu => ⟨i, hi, hiu⟩⟩
      have hafter : i ≤ u → d ≤ u := by
        intro hiu
        obtain ⟨v, hv, hx⟩ := List.any_eq_true.mp (hany.mpr hiu)
        exact hdispatched.mp (h.issued_dispatched hm hv (Bool.and_eq_true_iff.mp hx).2)
      rw [upTo_apply]
      by_cases hiu : i ≤ u
      · have hdu := hafter hiu
        rw [hany.mpr hiu, hdec]
        cases k <;> simp [Export.change, hiu, hdu]
      · rw [Bool.eq_false_iff.mpr (mt hany.mp hiu), hdec]
        cases k <;> simp [Export.change, hiu]

/-- **What the tracks show at a tick** is what the state at its end holds. -/
theorem Settled.shown (h : Settled T inOrder u c F) (hF : Completed T F) (k : Export.Track) :
    Export.shown T F k u = occupancy T c (held · k) +
      if k = .vectorScheduler then (T.macros.countP (waitsExported T c) : ℤ) else 0 := by
  have hmap := Timeline.shown_map (Pi.evalAddMonoidHom (fun _ : Export.Track => ℤ) k)
    (Export.occupancySamples T F) u
  have hqueue : ∀ m ∈ T.macros, Timeline.upTo (Export.queueChanges F m) u k =
      if live c m then (held m k : ℤ) else 0 := by
    intro m hm
    obtain ⟨d, hd⟩ := hF.dispatch m hm
    obtain ⟨r, hr⟩ := hF.retire m hm
    rw [upTo_queueChanges hd hr, h.interval hm hd hr]
  have hsum : Timeline.upTo (Export.deltas T F) u k =
      (T.macros.map fun m => Timeline.upTo (Export.queueChanges F m) u k).sum +
        (T.macros.map fun m => Timeline.upTo (Export.schedulerChanges T F m) u k).sum := by
    simp only [upTo_apply]
    rw [Export.deltas, List.map_append, Timeline.upTo_append, List.map_flatMap, List.map_flatMap,
      Timeline.upTo_flatMap, Timeline.upTo_flatMap]
  rw [Export.shown, Export.counterTrack]
  refine hmap.trans ?_
  rw [Export.occupancySamples, Timeline.shown_samples]
  refine hsum.trans ?_
  rw [List.map_congr_left hqueue, List.map_congr_left fun m hm => h.schedulerChanges hF hm k, occupancy_eq]
  congr 1
  · rw [Nat.cast_list_sum, List.map_map]
    congr 1
    refine List.map_congr_left fun m _ => ?_
    rw [Function.comp_apply, Nat.cast_ite, Nat.cast_zero]
  · rw [Serial.countP_eq_sum, Nat.cast_list_sum, List.map_map]
    by_cases hk : k = .vectorScheduler
    · rw [if_pos hk]
      congr 1
      refine List.map_congr_left fun m _ => ?_
      cases hw : waitsExported T c m <;> simp [hk, hw]
    · simp [hk]

end AtEnd

/-! ### Tracks and counters -/

/-- The engine's own occupancy of a track. -/
def Machine.occupancyOf (s : Machine) : Export.Track → ℤ
  | .rob => s.robOccupancy
  | .vectorScheduler => s.vectorSchedulerOccupancy
  | .loadQueue => s.loadQueueOccupancy
  | .storeQueue => s.storeQueueOccupancy

/-- A track shows the engine's occupancy at the end of every tick, is never negative, and is empty from the
last retirement on. -/
structure TrackAgrees (T : BoundTrace) (F : Core) (atEnd : ℕ → Machine → Prop) (k : Export.Track) : Prop where
  agree : ∀ u s, atEnd u s → Export.shown T F k u = s.occupancyOf k
  nonneg : ∀ u, 0 ≤ Export.shown T F k u
  empty : ∀ u, (∀ m ∈ T.macros, ∀ t ∈ (F.macro_ m.id).retireTick, t ≤ u) → Export.shown T F k u = 0

/-- The uops of the scheduler's kinds. -/
def isVector (T : BoundTrace) (v : Id) : Bool := (T.uop? v).any (·.kind.isVectorResource)

/-- Of the vector uops of a macro-op that issue first, the export knows one. -/
def FirstExported (T : BoundTrace) (F : Core) : Prop :=
  ∀ m ∈ T.macros, m.usesVectorScheduler = true → ∃ v ∈ m.uopIds, Export.isExported T v = true ∧
    ∀ w ∈ m.uopIds, isVector T w = true → ∀ i ∈ (F.uop v).issueTick, ∀ j ∈ (F.uop w).issueTick, i ≤ j

instance (T : BoundTrace) (F : Core) : Decidable (FirstExported T F) := by
  unfold FirstExported; infer_instance

/-- How many buffer entries the export counts for a macro-op more than the engine. -/
def surplus (entries : MacroOp → ℕ) (m : MacroOp) : ℤ := m.robEntryCount - entries m

/-- The surplus that comes at a tick is the one that goes. -/
def Balanced (T : BoundTrace) (entries : MacroOp → ℕ) (F : Core) : Prop :=
  ∀ t, ((T.macros.filter fun m => (F.macro_ m.id).dispatchTick = some t).map (surplus entries)).sum =
    ((T.macros.filter fun m => (F.macro_ m.id).retireTick = some t).map (surplus entries)).sum

theorem balanced_of_zero {T : BoundTrace} {entries : MacroOp → ℕ} {F : Core}
    (h : ∀ m ∈ T.macros, surplus entries m = 0) : Balanced T entries F := by
  have hzero : ∀ p : MacroOp → Bool, ((T.macros.filter p).map (surplus entries)).sum = 0 := by
    intro p
    apply List.sum_eq_zero
    intro n hn
    obtain ⟨m, hm, rfl⟩ := List.mem_map.mp hn
    exact h m (List.mem_of_mem_filter hm)
  intro t
  rw [hzero, hzero]

/-- What an engine knows of the states at the ends of the ticks of a run. -/
structure Observed (E : Setup) (entries : MacroOp → ℕ) (uses : MacroOp → Bool) (F : Core)
    (atEnd : ℕ → Machine → Prop) : Prop where
  completed : Completed E.trace F
  settled : ∀ {u s}, atEnd u s → Settled E.trace E.inOrder u s.toCore F
  counters : ∀ {u s}, atEnd u s → Counters E entries uses s
  total : E.trace.macros ≠ [] → ∀ u, ∃ s, atEnd u s

section Observed

variable {E : Setup} {entries : MacroOp → ℕ} {uses : MacroOp → Bool} {F : Core} {atEnd : ℕ → Machine → Prop}
  {u : ℕ} {s : Machine}

theorem exported_vector {T : BoundTrace} {v : Id} (h : Export.isExported T v = true) : isVector T v = true := by
  obtain ⟨x, hx, hk⟩ := (Option.any_eq_true _ _).mp h
  refine (Option.any_eq_true _ _).mpr ⟨x, hx, ?_⟩
  exact (by decide : ∀ k ∈ Export.exportedKinds, k.isVectorResource = true) _ (of_decide_eq_true hk)

/-- The uops of a retired macro-op have issued. -/
theorem Settled.retired_issued {T : BoundTrace} {inOrder : Bool} {c : Core} (h : Settled T inOrder u c F) {m : MacroOp}
    (hm : m ∈ T.macros) (hr : (c.macro_ m.id).retireTick.isSome) : ∀ v ∈ m.uopIds, (c.uop v).issueTick.isSome := by
  obtain ⟨now, -, hc⟩ := h.inv
  obtain ⟨r, hr⟩ := Option.isSome_iff_exists.mp hr
  obtain ⟨t, ht, -⟩ := hc.macros.retire hm hr
  intro v hv
  obtain ⟨t', ht'⟩ := Option.isSome_iff_exists.mp ((hc.macros.complete hm ht).1 v hv)
  obtain ⟨i, hi, -⟩ := hc.uops.completed ht'
  rw [hi]
  rfl

/-- Where every macro-op has retired, none is live. -/
theorem Observed.all_retired (h : Observed E entries uses F atEnd) (hs : atEnd u s)
    (hlast : ∀ m ∈ E.trace.macros, ∀ t ∈ (F.macro_ m.id).retireTick, t ≤ u) :
    ∀ m ∈ E.trace.macros, (s.macro_ m.id).retireTick.isSome := by
  intro m hm
  obtain ⟨r, hr⟩ := h.completed.retire m hm
  exact ((h.settled hs).retired m.id).mpr ⟨r, hlast m hm r hr, hr⟩

theorem shown_trivial {T : BoundTrace} (hT : T.macros = []) (k : Export.Track) (u : ℕ) :
    Export.shown T F k u = 0 := by
  unfold Export.shown Export.counterTrack Export.occupancySamples Export.deltas
  rw [hT]
  rfl

/-- No track is ever negative. -/
theorem Observed.nonneg (h : Observed E entries uses F atEnd) (k : Export.Track) (u : ℕ) :
    0 ≤ Export.shown E.trace F k u := by
  by_cases hne : E.trace.macros = []
  · rw [shown_trivial hne]
  · obtain ⟨s, hs⟩ := h.total hne u
    rw [(h.settled hs).shown h.completed]
    split
    · exact add_nonneg (Int.natCast_nonneg _) (Int.natCast_nonneg _)
    · rw [add_zero]; exact Int.natCast_nonneg _

theorem occupancy_retired {T : BoundTrace} {c : Core} (hr : ∀ m ∈ T.macros, (c.macro_ m.id).retireTick.isSome)
    (f : MacroOp → ℕ) : occupancy T c f = 0 := by
  rw [occupancy_eq]
  refine List.sum_eq_zero fun n hn => ?_
  obtain ⟨m, hm, rfl⟩ := List.mem_map.mp hn
  have hlive : live c m = false := by
    rw [live, Bool.and_eq_false_iff]
    exact .inr (by simpa using hr m hm)
  rw [hlive]
  rfl

/-- The tracks of the buffer and the queues are empty in the end. -/
theorem Observed.empty (h : Observed E entries uses F atEnd) {k : Export.Track} (hk : k ≠ .vectorScheduler)
    (hlast : ∀ m ∈ E.trace.macros, ∀ t ∈ (F.macro_ m.id).retireTick, t ≤ u) : Export.shown E.trace F k u = 0 := by
  by_cases hne : E.trace.macros = []
  · exact shown_trivial hne k u
  · obtain ⟨s, hs⟩ := h.total hne u
    rw [(h.settled hs).shown h.completed, if_neg hk, occupancy_retired (h.all_retired hs hlast)]
    rfl

/-- The tracks of the queues agree. -/
theorem Observed.queues (h : Observed E entries uses F atEnd) {k : Export.Track}
    (hk : k = .loadQueue ∨ k = .storeQueue) : TrackAgrees E.trace F atEnd k := by
  have hne : k ≠ .vectorScheduler := by rintro rfl; simp at hk
  refine ⟨fun u s hs => ?_, h.nonneg k, fun u hlast => h.empty hne hlast⟩
  rw [(h.settled hs).shown h.completed, if_neg hne, add_zero]
  rcases hk with rfl | rfl
  · exact (h.counters hs).load.symm
  · exact (h.counters hs).store.symm

/-! ### The reorder buffer -/

/-- The surplus as a timeline. -/
def surplusChanges (T : BoundTrace) (entries : MacroOp → ℕ) (F : Core) : List (ℕ × ℤ) :=
  T.macros.flatMap fun m =>
    match (F.macro_ m.id).dispatchTick, (F.macro_ m.id).retireTick with
    | some d, some r => [(d, surplus entries m), (r, -surplus entries m)]
    | _, _ => []

theorem sum_filter_eq {α : Type} (l : List α) (p : α → Prop) [DecidablePred p] (f : α → ℤ) :
    ((l.filter fun a => p a).map f).sum = (l.map fun a => if p a then f a else 0).sum := by
  induction l with
  | nil => rfl
  | cons a l ih => by_cases h : p a <;> simp [h, ih]

theorem sum_map_sub {α : Type} (l : List α) (f g : α → ℤ) :
    (l.map fun a => f a - g a).sum = (l.map f).sum - (l.map g).sum := by
  induction l with
  | nil => rfl
  | cons a l ih =>
    rw [List.map_cons, List.map_cons, List.map_cons, List.sum_cons, List.sum_cons, List.sum_cons, ih]
    ring

/-- The surplus at a tick: what comes, less what goes. -/
theorem at_surplusChanges {T : BoundTrace} (hF : Completed T F) (t : ℕ) :
    Timeline.at_ (surplusChanges T entries F) t =
      ((T.macros.filter fun m => (F.macro_ m.id).dispatchTick = some t).map (surplus entries)).sum -
        ((T.macros.filter fun m => (F.macro_ m.id).retireTick = some t).map (surplus entries)).sum := by
  rw [surplusChanges, Timeline.at_flatMap, sum_filter_eq, sum_filter_eq, ← sum_map_sub]
  congr 1
  refine List.map_congr_left fun m hm => ?_
  obtain ⟨d, hd⟩ := hF.dispatch m hm
  obtain ⟨r, hr⟩ := hF.retire m hm
  rw [hd, hr]
  by_cases h1 : d = t <;> by_cases h2 : r = t <;> simp [Timeline.at_cons, h1, h2]

/-- The surplus up to a tick: that of the live macro-ops. -/
theorem Settled.surplus {T : BoundTrace} {inOrder : Bool} {c : Core} (h : Settled T inOrder u c F)
    (hF : Completed T F) : Timeline.upTo (surplusChanges T entries F) u =
      (occupancy T c (·.robEntryCount) : ℤ) - occupancy T c entries := by
  rw [surplusChanges, Timeline.upTo_flatMap, occupancy_eq, occupancy_eq, Nat.cast_list_sum, Nat.cast_list_sum,
    List.map_map, List.map_map, ← sum_map_sub]
  congr 1
  refine List.map_congr_left fun m hm => ?_
  obtain ⟨d, hd⟩ := hF.dispatch m hm
  obtain ⟨r, hr⟩ := hF.retire m hm
  rw [hd, hr]
  have hinterval := h.interval hm hd hr (VectorSim.surplus entries m)
  simp only [Timeline.upTo_cons, Timeline.upTo_nil, add_zero, Function.comp_apply]
  have hneg : (if r ≤ u then -VectorSim.surplus entries m else 0) =
      -(if r ≤ u then VectorSim.surplus entries m else 0) := by split <;> simp
  rw [hneg, ← sub_eq_add_neg, hinterval]
  split <;> simp [VectorSim.surplus]

/-- **The track of the reorder buffer agrees just where the surplus is balanced.** -/
theorem Observed.rob_iff (h : Observed E entries uses F atEnd) :
    TrackAgrees E.trace F atEnd .rob ↔ Balanced E.trace entries F := by
  have hbalanced : Balanced E.trace entries F ↔ ∀ u, Timeline.upTo (surplusChanges E.trace entries F) u = 0 := by
    rw [Timeline.upTo_eq_zero_iff]
    refine forall_congr' fun t => ?_
    rw [at_surplusChanges h.completed, sub_eq_zero]
  have hshown : ∀ {u s}, atEnd u s → (Export.shown E.trace F .rob u = s.occupancyOf .rob ↔
      Timeline.upTo (surplusChanges E.trace entries F) u = 0) := by
    intro u s hs
    have hcounter : s.occupancyOf .rob = occupancy E.trace s.toCore entries := (h.counters hs).rob
    rw [(h.settled hs).shown h.completed, (h.settled hs).surplus h.completed, hcounter, sub_eq_zero]
    simp [held]
  rw [hbalanced]
  constructor
  · intro hagree u
    by_cases hne : E.trace.macros = []
    · rw [surplusChanges, hne]
      rfl
    · obtain ⟨s, hs⟩ := h.total hne u
      exact (hshown hs).mp (hagree.agree u s hs)
  · intro hzero
    exact ⟨fun u s hs => (hshown hs).mpr (hzero u), h.nonneg .rob, fun u hlast => h.empty (by simp) hlast⟩

/-! ### The vector scheduler -/

/-- A macro-op that waits as the engine sees it waits as the export sees it. -/
theorem Settled.waits_exported {c : Core} {m : MacroOp} (huses : uses m = true → m.usesVectorScheduler = true)
    (h : waitsVector E uses c m = true) : waitsExported E.trace c m = true := by
  simp only [waitsVector, waitsExported, Bool.and_eq_true, Bool.not_eq_true', List.any_eq_false] at h ⊢
  refine ⟨⟨h.1.1, huses h.1.2⟩, fun v hv => ?_⟩
  have hnot := h.2 v hv
  simp only [vectorIssued, Bool.and_eq_true, not_and] at hnot ⊢
  intro hx
  obtain ⟨x, hfind, hk⟩ := (Option.any_eq_true _ _).mp (exported_vector hx)
  exact hnot (by rw [Setup.uop, hfind]; exact hk)

theorem vectorIssued_iff {c : Core} {v : Id} : vectorIssued E c v = true ↔
    isVector E.trace v = true ∧ (c.uop v).issueTick.isSome := by
  rw [vectorIssued, Bool.and_eq_true]
  refine and_congr_left fun _ => ?_
  rw [Setup.uop, isVector]
  cases E.trace.uop? v with
  | none => simp [Kind.isVectorResource]
  | some x => simp

/-- Of two predicates one of which implies the other, both hold equally often just where they are the same. -/
theorem countP_eq_iff {α : Type} {p q : α → Bool} : ∀ {l : List α}, (∀ a ∈ l, q a = true → p a = true) →
    (l.countP p = l.countP q ↔ ∀ a ∈ l, p a = true → q a = true)
  | [], _ => by simp
  | a :: l, himp => by
    have ih := countP_eq_iff fun b hb => himp b (List.mem_cons_of_mem a hb)
    have hle : l.countP q ≤ l.countP p := List.countP_mono_left fun b hb => himp b (List.mem_cons_of_mem a hb)
    have ha := himp a List.mem_cons_self
    rw [List.countP_cons, List.countP_cons, List.forall_mem_cons, ← ih]
    cases hp : p a <;> cases hq : q a <;> simp_all
    omega

/-- The track agrees at a tick where whatever waits as the export sees it waits as the engine sees it. -/
theorem Observed.vector_at (h : Observed E entries uses F atEnd)
    (huses : ∀ m ∈ E.trace.macros, uses m = true → m.usesVectorScheduler = true) (hs : atEnd u s) :
    Export.shown E.trace F .vectorScheduler u = s.occupancyOf .vectorScheduler ↔
      ∀ m ∈ E.trace.macros, waitsExported E.trace s.toCore m = true → waitsVector E uses s.toCore m = true := by
  have hcounter : s.occupancyOf .vectorScheduler = waitingVector E uses s.toCore := (h.counters hs).vector
  have hzero : occupancy E.trace s.toCore (held · .vectorScheduler) = 0 := by
    rw [occupancy_eq]
    refine List.sum_eq_zero fun n hn => ?_
    obtain ⟨m, -, rfl⟩ := List.mem_map.mp hn
    split <;> rfl
  rw [(h.settled hs).shown h.completed, if_pos rfl, hzero, hcounter, waitingVector, Nat.cast_zero, zero_add,
    Nat.cast_inj]
  exact countP_eq_iff fun m hm => Settled.waits_exported (huses m hm)

theorem waitsExported_iff {T : BoundTrace} {c : Core} {m : MacroOp} : waitsExported T c m = true ↔
    (c.macro_ m.id).dispatchTick.isSome ∧ m.usesVectorScheduler = true ∧
      ∀ v ∈ m.uopIds, Export.isExported T v = true → (c.uop v).issueTick = none := by
  simp only [waitsExported, Bool.and_eq_true, Bool.not_eq_true', List.any_eq_false, not_and, Option.isSome_iff_ne_none,
    ne_eq, not_not, and_assoc]

theorem waitsVector_iff {c : Core} {m : MacroOp} : waitsVector E uses c m = true ↔
    (c.macro_ m.id).dispatchTick.isSome ∧ uses m = true ∧
      ∀ v ∈ m.uopIds, isVector E.trace v = true → (c.uop v).issueTick = none := by
  simp only [waitsVector, Bool.and_eq_true, Bool.not_eq_true', List.any_eq_false, vectorIssued_iff, not_and,
    Option.isSome_iff_ne_none, ne_eq, not_not, and_assoc]

/-- **The track of the vector scheduler agrees just where the first vector uops to issue are exported.** -/
theorem Observed.vector_iff (h : Observed E entries uses F atEnd) (hT : WellFormed E.trace)
    (huses : ∀ m ∈ E.trace.macros, uses m = true ↔
      m.usesVectorScheduler = true ∧ ∃ v ∈ m.uopIds, isVector E.trace v = true) :
    TrackAgrees E.trace F atEnd .vectorScheduler ↔ FirstExported E.trace F := by
  have hflag : ∀ m ∈ E.trace.macros, uses m = true → m.usesVectorScheduler = true :=
    fun m hm hu => ((huses m hm).mp hu).1
  have htick : ∀ m ∈ E.trace.macros, ∀ v ∈ m.uopIds, ∃ t, (F.uop v).issueTick = some t := by
    intro m hm v hv
    obtain ⟨x, hx, -⟩ := hT.owned m hm v hv
    obtain ⟨hmem, rfl⟩ := E.trace.uop?_mem hx
    exact h.completed.issue x hmem
  constructor
  · intro hagree m hm hu
    have hne : E.trace.macros ≠ [] := List.ne_nil_of_mem hm
    have hwaits : ∀ u, ∃ s, atEnd u s ∧
        (waitsExported E.trace s.toCore m = true → waitsVector E uses s.toCore m = true) := by
      intro u
      obtain ⟨s, hs⟩ := h.total hne u
      exact ⟨s, hs, (h.vector_at hflag hs).mp (hagree.agree u s hs) m hm⟩
    by_cases hvec : ∃ w ∈ m.uopIds, isVector E.trace w = true
    · -- the vector uop that issues first, and the end of its tick
      obtain ⟨w, hw, hwv⟩ := hvec
      obtain ⟨first, hfirst, hmin⟩ := Finset.exists_min_image
        (m.uopIds.filter (isVector E.trace)).toFinset (fun v => (F.uop v).issueTick.getD 0)
        ⟨w, by simp [hw, hwv]⟩
      obtain ⟨hfm, hfv⟩ : first ∈ m.uopIds ∧ isVector E.trace first = true := by simpa using hfirst
      obtain ⟨i, hi⟩ := htick m hm first hfm
      obtain ⟨s, hs, himp⟩ := hwaits i
      have hissued : (s.uop first).issueTick.isSome := ((h.settled hs).issued first).mpr ⟨i, le_rfl, hi⟩
      have hnot : ¬ waitsExported E.trace s.toCore m = true := by
        intro hx
        have := (waitsVector_iff.mp (himp hx)).2.2 first hfm hfv
        rw [this] at hissued
        cases hissued
      obtain ⟨v, hv, hx, hv'⟩ : ∃ v ∈ m.uopIds, Export.isExported E.trace v = true ∧ (s.uop v).issueTick ≠ none := by
        by_contra hnone
        push Not at hnone
        exact hnot (waitsExported_iff.mpr ⟨(h.settled hs).issued_dispatched hm hfm hissued, hu, hnone⟩)
      obtain ⟨t, ht, hvt⟩ := ((h.settled hs).issued v).mp (Option.isSome_iff_ne_none.mpr hv')
      refine ⟨v, hv, hx, fun w hw hwv a ha b hb => ?_⟩
      obtain rfl : t = a := Option.some.inj (hvt.symm.trans ha)
      have hle := hmin w (by simp [hw, hwv])
      rw [hi, show (F.uop w).issueTick = some b from hb] at hle
      exact ht.trans hle
    · -- without a vector uop the export waits for ever
      obtain ⟨d, hd⟩ := h.completed.dispatch m hm
      obtain ⟨s, hs, himp⟩ := hwaits d
      have hdispatched := ((h.settled hs).dispatched m.id).mpr ⟨d, le_rfl, hd⟩
      have hx : waitsExported E.trace s.toCore m = true :=
        waitsExported_iff.mpr ⟨hdispatched, hu, fun v hv hx => absurd ⟨v, hv, exported_vector hx⟩ hvec⟩
      exact absurd ((huses m hm).mp (waitsVector_iff.mp (himp hx)).2.1).2 hvec
  · intro hfirst
    refine ⟨fun u s hs => (h.vector_at hflag hs).mpr fun m hm hx => ?_, h.nonneg _, fun u hlast => ?_⟩
    · obtain ⟨hd, hu, hnone⟩ := waitsExported_iff.mp hx
      obtain ⟨v, hv, hve, hle⟩ := hfirst m hm hu
      refine waitsVector_iff.mpr ⟨hd, (huses m hm).mpr ⟨hu, v, hv, exported_vector hve⟩, fun w hw hwv => ?_⟩
      by_contra hissued
      obtain ⟨j, hj, hwj⟩ := ((h.settled hs).issued w).mp (Option.isSome_iff_ne_none.mpr hissued)
      obtain ⟨i, hi⟩ := htick m hm v hv
      have hvi := ((h.settled hs).issued v).mpr ⟨i, (hle w hw hwv i hi j hwj).trans hj, hi⟩
      rw [hnone v hv hve] at hvi
      cases hvi
    · by_cases hne : E.trace.macros = []
      · exact shown_trivial hne _ u
      · obtain ⟨s, hs⟩ := h.total hne u
        have hretired := h.all_retired hs hlast
        have hcount : E.trace.macros.countP (waitsExported E.trace s.toCore) = 0 := by
          rw [List.countP_eq_zero]
          intro m hm hx
          obtain ⟨-, hu, hnone⟩ := waitsExported_iff.mp hx
          obtain ⟨v, hv, hve, -⟩ := hfirst m hm hu
          have := (h.settled hs).retired_issued hm (hretired m hm) v hv
          rw [hnone v hv hve] at this
          cases this
        rw [(h.settled hs).shown h.completed, if_pos rfl, hcount, occupancy_retired hretired]
        rfl

end Observed

/-! ### The engines -/

/-- At the end of a run every macro-op has been dispatched and has retired. -/
theorem Core.Inv.completed {T : BoundTrace} {inOrder : Bool} {now : ℕ} {F : Core} (hc : Core.Inv T inOrder now F)
    (h : RunOrdered T inOrder F) : Completed T F where
  dispatch m hm := by
    obtain ⟨s, t, -, ht, -⟩ := h.macroRetire m hm
    obtain ⟨r, a, hr⟩ := hc.rob
    obtain ⟨i, hi⟩ := List.mem_iff_getElem?.mp hm
    have hretired := (hr.retired hi).mp (by rw [ht]; rfl)
    exact Option.isSome_iff_exists.mp ((hr.dispatched hi).mpr (hretired.trans_le hr.le))
  retire m hm := by
    obtain ⟨s, t, -, ht, -⟩ := h.macroRetire m hm
    exact ⟨t, ht⟩
  issue x hx := by
    obtain ⟨-, -, i, -, -, -, hi, -⟩ := h.uop x hx
    exact ⟨i, hi⟩

namespace Zen4

variable {E : Setup} {F : Machine} {u stop : ℕ}

/-- The state at the end of a tick of a run. -/
def EndOfTick (E : Setup) (u : ℕ) (s : Machine) : Prop := EventLoop.EndsTick (loop E) 0 E.machineInit u s

/-- The end of a tick is settled. -/
theorem EndOfTick.settled (hT : WellFormed E.trace) (h : run E = .ok (F, stop)) {s : Machine}
    (hs : EndOfTick E u s) : Settled E.trace E.inOrder u s.toCore F.toCore := by
  obtain ⟨n, now, s₁, hr, hu, hv, hnow, hnext⟩ := hs
  obtain ⟨k, hends⟩ := run_ends h
  have hinv : Inv E now s :=
    (visit_steps hT (List.Subset.refl _) hv).invariant
      (AtTick.invariant (P := Inv E) hT inv_init (fun _ _ _ => inv_step hT) (fun _ _ _ h hlt => h.later hlt.le) ⟨n, hr⟩)
      fun _ _ => inv_step hT
  refine ⟨⟨now, hnow, hinv.core⟩, ?_⟩
  rcases hends.after hr hu hv with ⟨rfl, -⟩ | ⟨hu', s₃, t, m, hn, hlt, hrest⟩
  · exact .refl u _
  · obtain ⟨memory, rfl⟩ := nextEventTick_ok hn
    have hut := hnext _ _ hu' hn
    refine (hrest.invariant (P := fun now x => Inv E now x ∧ u < now ∧ SameUpTo u s.toCore x.toCore)
      ⟨(inv_step hT hinv (.poll memory)).later hlt.le, hut, .refl u _⟩ ?_ ?_).2.2
    · intro now x x' hx _ hv
      refine (visit_steps hT (List.Subset.refl _) hv).invariant
        (P := fun x => Inv E now x ∧ u < now ∧ SameUpTo u s.toCore x.toCore) hx ?_
      intro y y' hy hstep
      exact ⟨inv_step hT hy.1 hstep, hy.2.1,
        hy.2.2.trans ((step_core hy.1 hstep).sameUpTo hT hy.1.core hy.2.1)⟩
    · intro now x x' t hx hn hlt
      obtain ⟨memory, rfl⟩ := nextEventTick_ok hn
      exact ⟨(inv_step hT hx.1 (.poll memory)).later hlt.le, hx.2.1.trans hlt, hx.2.2⟩

theorem observed (hT : WellFormed E.trace) (hB : Bound E.trace) (h : run E = .ok (F, stop)) :
    Observed E (·.decodedMacroOps) (·.usesVectorScheduler) F.toCore (EndOfTick E) where
  completed := by
    obtain ⟨hinv, hordered, -⟩ := run_ordered hT h
    exact hinv.core.completed hordered
  settled hs := hs.settled hT h
  counters hs := by
    obtain ⟨n, now, s₁, hr, -, hv, -⟩ := hs
    exact Reachable.counters hT hB ⟨s₁, phases E now, [], ⟨n, hr⟩, (List.append_nil _).symm, hv⟩
  total hne u := by
    obtain ⟨n, hn⟩ := run_ends h
    rcases n with _ | n
    · have hdone := (EventLoop.ends_zero_iff.mp hn).1
      have hwork : E.unfinished E.machineInit.toCore = true := by
        rw [Setup.unfinished, Bool.or_eq_true]
        exact .inl (decide_eq_true (List.length_pos_iff.mpr hne))
      rw [show (loop E).unfinished E.machineInit = E.unfinished E.machineInit.toCore from rfl, hwork] at hdone
      cases hdone
    · exact hn.endsTick (Nat.zero_le u)

end Zen4

namespace Xsai

variable {E : Config} {F : Sched} {u stop : ℕ}

/-- The state at the end of a tick of a run. -/
def EndOfTick (E : Config) (u : ℕ) (s : Machine) : Prop :=
  ∃ q : Sched, q.toMachine = s ∧ EventLoop.EndsTick (loop E) 0 (schedInit E) u q

/-- The end of a tick is settled. -/
theorem EndOfTick.settled (hT : WellFormed E.trace) (h : run E = .ok (F, stop)) {s : Machine}
    (hs : EndOfTick E u s) : VectorSim.Settled E.trace E.inOrder u s.toCore F.toCore := by
  obtain ⟨q, rfl, n, now, s₁, hr, hu, hv, hnow, hnext⟩ := hs
  obtain ⟨k, hends⟩ := run_ends h
  have hinv : CoreInv E now q :=
    (visit_steps hT (List.Subset.refl _) hv).invariant
      (AtTick.invariant (P := CoreInv E) hT inv_init (fun _ _ _ => inv_step hT) (fun _ _ _ h hlt => h.later hlt.le)
        ⟨n, hr⟩)
      fun _ _ => inv_step hT
  refine ⟨⟨now, hnow, hinv⟩, ?_⟩
  rcases hends.after hr hu hv with ⟨rfl, -⟩ | ⟨hu', s₃, t, m, hn, hlt, hrest⟩
  · exact .refl u _
  · obtain ⟨memory, rfl⟩ := nextEventTick_ok hn
    have hut := hnext _ _ hu' hn
    refine (hrest.invariant (P := fun now x => CoreInv E now x ∧ u < now ∧ SameUpTo u q.toCore x.toCore)
      ⟨(inv_step hT hinv (.poll memory)).later hlt.le, hut, .refl u _⟩ ?_ ?_).2.2
    · intro now x x' hx _ hv
      refine (visit_steps hT (List.Subset.refl _) hv).invariant
        (P := fun x => CoreInv E now x ∧ u < now ∧ SameUpTo u q.toCore x.toCore) hx ?_
      intro y y' hy hstep
      exact ⟨inv_step hT hy.1 hstep, hy.2.1, hy.2.2.trans ((step_core hstep).sameUpTo hT hy.1 hy.2.1)⟩
    · intro now x x' t hx hn hlt
      obtain ⟨memory, rfl⟩ := nextEventTick_ok hn
      exact ⟨(inv_step hT hx.1 (.poll memory)).later hlt.le, hx.2.1.trans hlt, hx.2.2⟩

theorem Reachable.counters (hT : WellFormed E.trace) {now : ℕ} {s : Sched} (h : Reachable E now s) :
    PipelineCounters E s :=
  (h.invariant (P := fun now s => CoreInv E now s ∧ PipelineCounters E s) hT ⟨inv_init, counters_init⟩
    (fun _ _ _ hs hstep => ⟨inv_step hT hs.1 hstep, counters_step hT hs.1 hs.2 hstep⟩)
    fun _ _ _ hs hlt => ⟨hs.1.later hlt.le, hs.2⟩).2

theorem observed (hT : WellFormed E.trace) (h : run E = .ok (F, stop)) :
    Observed E.toSetup (·.robEntryCount) (usesLegacyVectorScheduler E) F.toCore (EndOfTick E) where
  completed := by
    obtain ⟨hinv, hordered, -⟩ := run_ordered hT h
    exact Core.Inv.completed hinv hordered
  settled hs := hs.settled hT h
  counters hs := by
    obtain ⟨q, rfl, n, now, s₁, hr, -, hv, -⟩ := hs
    exact Reachable.counters hT ⟨s₁, phases E now, [], ⟨n, hr⟩, (List.append_nil _).symm, hv⟩
  total hne u := by
    obtain ⟨n, hn⟩ := run_ends h
    rcases n with _ | n
    · have hdone := (EventLoop.ends_zero_iff.mp hn).1
      have hwork : E.unfinished (schedInit E).toCore = true := by
        rw [Setup.unfinished, Bool.or_eq_true]
        exact .inl (decide_eq_true (List.length_pos_iff.mpr hne))
      rw [show (loop E).unfinished (schedInit E) = E.unfinished (schedInit E).toCore from rfl, hwork] at hdone
      cases hdone
    · obtain ⟨q, hq⟩ := hn.endsTick (Nat.zero_le u)
      exact ⟨q.toMachine, q, rfl, hq⟩

/-- Without partitions every vector uop of a macro-op is in the one scheduler. -/
theorem usesLegacy_iff (hT : WellFormed E.trace) (hA : ∀ x ∈ E.trace.uops, validateTopology E x = .ok ())
    (hp : E.partitions = []) {m : MacroOp} (hm : m ∈ E.trace.macros) : usesLegacyVectorScheduler E m = true ↔
      m.usesVectorScheduler = true ∧ ∃ v ∈ m.uopIds, isVector E.trace v = true := by
  rw [usesLegacyVectorScheduler, Bool.and_eq_true, List.any_eq_true]
  refine and_congr_right fun _ => exists_congr fun v => and_congr_right fun hv => ?_
  obtain ⟨x, hx, -⟩ := hT.owned m hm v hv
  obtain ⟨hmem, -⟩ := E.trace.uop?_mem hx
  obtain ⟨_, hchoices, -⟩ := Checked.ok_bind.mp (hA x hmem)
  have hnone : x.schedulerPartitionChoices = [] := by
    rw [hp, List.map_nil] at hchoices
    exact List.subset_nil.mp (Checked.check_ok.mp hchoices)
  have huop : E.uop v = x := by rw [Setup.uop, hx]; rfl
  rw [huop, hnone, isVector, hx]
  simp

end Xsai

/-! ### Runs of both engines -/

/-- **The exported tracks of a run are the engine's occupancies** where the surplus of buffer entries is
balanced, which it is on the XSAI engine, and where the export knows the kinds of the first vector uops. -/
theorem tracks_agree_iff (P : Profile) (hP : P.Dictionaries) (source : List Instruction) (T : BoundTrace)
    (hbind : bind P source = .ok T) (inOrder : Bool) (mode : CacheMode) (limit : Option Bool) :
    (∀ E F t, Zen4.init T P.toEngineProfile inOrder mode limit = .ok E → Zen4.run E = .ok (F, t) →
      let agrees := TrackAgrees E.trace F.toCore (Zen4.EndOfTick E)
      ((∀ k, k ≠ .vectorScheduler → agrees k) ↔ Balanced E.trace (·.decodedMacroOps) F.toCore) ∧
        ((∀ k, agrees k) ↔ Balanced E.trace (·.decodedMacroOps) F.toCore ∧ FirstExported E.trace F.toCore)) ∧
    (∀ expand E F t, Xsai.init T P.toEngineProfile inOrder mode limit expand = .ok E →
      Xsai.run E = .ok (F, t) →
      let agrees := TrackAgrees E.trace F.toCore (Xsai.EndOfTick E)
      (∀ k, k ≠ .vectorScheduler → agrees k) ∧
        (E.partitions = [] → ((∀ k, agrees k) ↔ FirstExported E.trace F.toCore))) := by
  have hall : ∀ {p : Export.Track → Prop}, (∀ k, p k) ↔ (∀ k, k ≠ .vectorScheduler → p k) ∧ p .vectorScheduler := by
    intro p
    refine ⟨fun h => ⟨fun k _ => h k, h _⟩, fun h k => ?_⟩
    by_cases hk : k = .vectorScheduler
    · rw [hk]; exact h.2
    · exact h.1 k hk
  have hrest : ∀ {E : Setup} {entries uses F atEnd}, Observed E entries uses F atEnd →
      ((∀ k, k ≠ .vectorScheduler → TrackAgrees E.trace F atEnd k) ↔ Balanced E.trace entries F) := by
    intro E entries uses F atEnd hobs
    rw [← hobs.rob_iff]
    refine ⟨fun h => h .rob (by simp), fun h k hk => ?_⟩
    cases k with
    | rob => exact h
    | vectorScheduler => exact absurd rfl hk
    | loadQueue => exact hobs.queues (.inl rfl)
    | storeQueue => exact hobs.queues (.inr rfl)
  constructor
  · intro E F t hE h
    obtain ⟨hT, hA⟩ := Zen4.init_ok hE
    have hB : Bound E.trace := hA.trace ▸ bind_bound hP hbind (hA.trace ▸ hT)
    have hobs := Zen4.observed hT hB h
    have huses : ∀ m ∈ E.trace.macros, m.usesVectorScheduler = true ↔
        m.usesVectorScheduler = true ∧ ∃ v ∈ m.uopIds, isVector E.trace v = true := by
      intro m hm
      refine ⟨fun hu => ⟨hu, ?_⟩, fun h => h.1⟩
      rw [hB.vector m hm, BoundTrace.hasKind] at hu
      exact List.any_eq_true.mp hu
    refine ⟨hrest hobs, ?_⟩
    rw [hall, hrest hobs, hobs.vector_iff hT huses]
  · intro expand E F t hE h
    have hA := Xsai.init_ok hE
    have hT := hA.wellFormed
    have hobs := Xsai.observed hT h
    have hbalanced : Balanced E.trace (·.robEntryCount) F.toCore := balanced_of_zero fun m _ => sub_self _
    refine ⟨(hrest hobs).mpr hbalanced, fun hp => ?_⟩
    rw [hall, hrest hobs, and_iff_right hbalanced,
      hobs.vector_iff hT fun m hm => Xsai.usesLegacy_iff hT hA.topology hp hm]

namespace Sample

/-- A profile with one recipe, of one uop of kind `vector_control`. -/
def binder : Profile := { profile with
  recipes := [("vsetvli:any", {
    decodedMacroOps := some 1
    retireMacroOps := some 1
    uops := [{ id := "config", kind := .vectorControl, latencyCycles := some 1, issueIntervalCycles := some 1,
               resourceOccupancyCycles := some 1, resourceChoices := ["alu"] }] })]
  resources := [("alu", { capacity := some 1 })]
  l1d := ⟨none, none, none⟩ }

/-- The program of one `vsetvli`. -/
def config : List Instruction := [{
  id := 0
  sequence := 0
  mnemonic := "vsetvli"
  semanticUops := [{ kind := .vectorConfig }] }]

/-- A recipe of two sums of a loaded line, which are one macro-op with the load, and one of a store. -/
def fused : Profile := { kernelProfile with
  partitions := []
  units := []
  recipes := [
    ("vadd:any", {
      decodedMacroOps := some 1
      retireMacroOps := some 1
      uops := [
        { id := "load", kind := .loadData, latencyCycles := some 1, issueIntervalCycles := some 1,
          resourceOccupancyCycles := some 1, resourceChoices := ["access"] },
        { id := "low", kind := .vectorFp, latencyCycles := some 2, issueIntervalCycles := some 1,
          resourceOccupancyCycles := some 1, resourceChoices := ["add"], dependsOn := ["load"] },
        { id := "high", kind := .vectorFp, latencyCycles := some 2, issueIntervalCycles := some 1,
          resourceOccupancyCycles := some 1, resourceChoices := ["add"], dependsOn := ["load"] }] }),
    ("vse:any", {
      decodedMacroOps := some 1
      retireMacroOps := some 1
      uops := [{ id := "store", kind := .storeData, latencyCycles := some 1, issueIntervalCycles := some 1,
                 resourceOccupancyCycles := some 1, resourceChoices := ["access"] }] })]
  resources := [("add", { capacity := some 1 }), ("access", { capacity := some 1 })]
  l1d := ⟨some 2, some 64, some 64⟩ }

theorem fused_dictionaries : fused.Dictionaries := by
  intro r hr
  rcases List.mem_pair.mp hr with rfl | rfl <;> exact List.nodup_nil

/-- The sums of a line, and the store of what they give to the next line. -/
def sumAndStore : List Instruction := [
  { id := 0, sequence := 0, mnemonic := "vadd", semanticUops := [{ kind := .vectorLoad }, { kind := .vectorFpAdd }]
    memory := some { address := 0, bytes := 64, cacheLines := [0], access := .load } },
  { id := 1, sequence := 1, mnemonic := "vse", semanticUops := [{ kind := .vectorStore }]
    registerDependencies := [("v1", 0)]
    memory := some { address := 64, bytes := 64, cacheLines := [1], access := .store } }]

end Sample

/-- The runs of a program on an engine, and a check of what they end in. -/
theorem Sample.zen4_run (P : Profile) (source : List Instruction) (T : BoundTrace) (hT : bind P source = .ok T)
    (p : Setup → Machine → ℕ → Bool)
    (h : ((bind P source).toOption.any fun T =>
      (Zen4.init T P.toEngineProfile false .cold none).toOption.any fun E =>
        (Zen4.run E).toOption.any fun r => p E r.1 r.2) = true) :
    ∃ E F t, Zen4.init T P.toEngineProfile false .cold none = .ok E ∧ Zen4.run E = .ok (F, t) ∧ p E F t = true := by
  obtain ⟨T', hT', h⟩ := (Option.any_eq_true _ _).mp h
  obtain rfl : T = T' := Except.ok.inj (hT.symm.trans (Checked.toOption_ok.mp hT'))
  obtain ⟨E, hE, h⟩ := (Option.any_eq_true _ _).mp h
  obtain ⟨⟨F, t⟩, hF, h⟩ := (Option.any_eq_true _ _).mp h
  exact ⟨E, F, t, Checked.toOption_ok.mp hE, Checked.toOption_ok.mp hF, h⟩

theorem Sample.xsai_run (P : Profile) (source : List Instruction) (expand : Bool) (T : BoundTrace)
    (hT : bind P source = .ok T) (p : Xsai.Config → Xsai.Sched → ℕ → Bool)
    (h : ((bind P source).toOption.any fun T =>
      (Xsai.init T P.toEngineProfile false .cold none expand).toOption.any fun E =>
        (Xsai.run E).toOption.any fun r => p E r.1 r.2) = true) :
    ∃ E F t, Xsai.init T P.toEngineProfile false .cold none expand = .ok E ∧ Xsai.run E = .ok (F, t) ∧
      p E F t = true := by
  obtain ⟨T', hT', h⟩ := (Option.any_eq_true _ _).mp h
  obtain rfl : T = T' := Except.ok.inj (hT.symm.trans (Checked.toOption_ok.mp hT'))
  obtain ⟨E, hE, h⟩ := (Option.any_eq_true _ _).mp h
  obtain ⟨⟨F, t⟩, hF, h⟩ := (Option.any_eq_true _ _).mp h
  exact ⟨E, F, t, Checked.toOption_ok.mp hE, Checked.toOption_ok.mp hF, h⟩

/-- At tick 4 every track shows an entry. -/
def Sample.Shows (T : BoundTrace) (F : Core) : Prop :=
  ∀ k ∈ [Export.Track.rob, .vectorScheduler, .loadQueue, .storeQueue], 0 < Export.shown T F k 4

instance (T : BoundTrace) (F : Core) : Decidable (Sample.Shows T F) := by
  unfold Sample.Shows; infer_instance

/-- The load and the sums, and the store that waits for them, hold their entries while the tracks show them. -/
theorem tracks_agree_sample : ∃ T, bind Sample.fused Sample.sumAndStore = .ok T ∧
    (∃ E F t, Zen4.init T Sample.fused.toEngineProfile false .cold none = .ok E ∧ Zen4.run E = .ok (F, t) ∧
      Sample.Shows E.trace F.toCore ∧ ∀ k, TrackAgrees E.trace F.toCore (Zen4.EndOfTick E) k) ∧
    ∃ E F t, Xsai.init T Sample.fused.toEngineProfile false .cold none false = .ok E ∧ Xsai.run E = .ok (F, t) ∧
      Sample.Shows E.trace F.toCore ∧ ∀ k, TrackAgrees E.trace F.toCore (Xsai.EndOfTick E) k := by
  obtain ⟨T, hT⟩ := Checked.exists_ok (x := bind Sample.fused Sample.sumAndStore) (by decide +kernel)
  obtain ⟨E, F, t, hE, h, hd⟩ := Sample.zen4_run _ _ T hT
    (fun E F _ => decide (Sample.Shows E.trace F.toCore ∧ FirstExported E.trace F.toCore ∧
      ∀ m ∈ E.trace.macros, surplus (·.decodedMacroOps) m = 0)) (by decide +kernel)
  obtain ⟨E', F', t', hE', h', hd'⟩ := Sample.xsai_run _ _ false T hT
    (fun E F _ => decide (Sample.Shows E.trace F.toCore ∧ FirstExported E.trace F.toCore ∧ E.partitions.isEmpty))
    (by decide +kernel)
  obtain ⟨hshows, hfirst, hbalanced⟩ := of_decide_eq_true hd
  obtain ⟨hshows', hfirst', hpartitions⟩ := of_decide_eq_true hd'
  have hagree := tracks_agree_iff _ Sample.fused_dictionaries Sample.sumAndStore T hT false .cold none
  have hzen4 := ((hagree.1 E F t hE h).2).mpr ⟨balanced_of_zero hbalanced, hfirst⟩
  have hxsai := ((hagree.2 false E' F' t' hE' h').2 (List.isEmpty_iff.mp hpartitions)).mpr hfirst'
  exact ⟨T, hT, ⟨E, F, t, hE, h, hshows, hzen4⟩, E', F', t', hE', h', hshows', hxsai⟩

/-- Bound to a uop of kind `vector_control`, the program leaves its track of the vector scheduler at one. -/
theorem control_never_leaves : ∃ T E F t, bind Sample.binder Sample.config = .ok T ∧
    Xsai.init T Sample.binder.toEngineProfile false .cold none true = .ok E ∧
    Xsai.run E = .ok (F, t) ∧ E.partitions = [] ∧ F.vectorSchedulerOccupancy = 0 ∧
    Export.shown E.trace F.toCore .vectorScheduler t = 1 ∧
    ¬ TrackAgrees E.trace F.toCore (Xsai.EndOfTick E) .vectorScheduler := by
  obtain ⟨T, hT⟩ := Checked.exists_ok (x := bind Sample.binder Sample.config) (by decide +kernel)
  obtain ⟨E, F, t, hE, h, hd⟩ := Sample.xsai_run _ _ true T hT
    (fun E F t => decide (E.partitions.isEmpty ∧ F.vectorSchedulerOccupancy = 0 ∧
      Export.shown E.trace F.toCore .vectorScheduler t = 1 ∧
      ∀ m ∈ E.trace.macros, ∀ r ∈ (F.macro_ m.id).retireTick, r ≤ t))
    (by decide +kernel)
  obtain ⟨hp, hzero, hshown, hlast⟩ := of_decide_eq_true hd
  refine ⟨T, E, F, t, hT, hE, h, List.isEmpty_iff.mp hp, hzero, hshown, fun hagrees => ?_⟩
  have := hagrees.empty t hlast
  rw [hshown] at this
  cases this

end VectorSim
