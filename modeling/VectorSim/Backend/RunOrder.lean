/-
# Run order

The bookkeeping of a run, whole: the order of the uops (`UopInv`), of the
macro-ops (`RobInv`, `MacroInv`), of an in-order issue (`InOrderInv`) and the
event log (`LogInv`) are kept by every step, and a run that ends has ordered
everything (`RunOrdered`): each uop is dispatched, ready, issued and complete
in that order, after its dependencies; each macro-op completes with the last
of its uops and retires after that, in program order; and the log has each
issue, completion and retirement once.
-/
import VectorSim.Backend.MacroOrder

namespace VectorSim
namespace Core

variable {T : BoundTrace} {inOrder : Bool} {now : ℕ} {c c' : Core}

/-! ### The event log -/

/-- The ticks the log has for one kind of event of one object. -/
def ticksOf (k : EventKind) (u : Id) (l : List Event) : List ℕ :=
  (l.filter fun e => e.kind = k ∧ e.id = u).map (·.tick)

@[simp] theorem ticksOf_append (k : EventKind) (u : Id) (l l' : List Event) :
    ticksOf k u (l ++ l') = ticksOf k u l ++ ticksOf k u l' := by
  simp [ticksOf]

theorem ticksOf_cons (k : EventKind) (u : Id) (e : Event) (l : List Event) :
    ticksOf k u (e :: l) = (if e.kind = k ∧ e.id = u then [e.tick] else []) ++ ticksOf k u l := by
  unfold ticksOf
  by_cases h : e.kind = k ∧ e.id = u <;> simp [h]

@[simp] theorem ticksOf_nil (k : EventKind) (u : Id) : ticksOf k u [] = [] := rfl

/-- The log has what the timing fields have. Of a uop that its macro-op lists more than
once it may have several dispatches, all at the same tick. -/
structure LogInv (T : BoundTrace) (c : Core) : Prop where
  ready : ∀ u, ticksOf .ready u c.events = (c.uop u).readyTick.toList
  issue : ∀ u, ticksOf .issue u c.events = (c.uop u).issueTick.toList
  complete : ∀ u, ticksOf .complete u c.events = (c.uop u).completeTick.toList
  retire : ∀ m, ticksOf .retire m c.events = (c.macro_ m).retireTick.toList
  dispatch : ∀ u t, t ∈ ticksOf .dispatch u c.events ↔ (c.uop u).dispatchTick = some t
  dispatch_once : (∀ m ∈ T.macros, m.uopIds.Nodup) →
    ∀ u, ticksOf .dispatch u c.events = (c.uop u).dispatchTick.toList

theorem logInv_init : LogInv T (init T) := by
  constructor <;> simp [init]

theorem ticksOf_dispatches (u : Id) (now : ℕ) : ∀ us : List Id,
    ticksOf .dispatch u (us.map fun v => (⟨.dispatch, now, v⟩ : Event)) = List.replicate (us.count u) now
  | [] => rfl
  | v :: us => by
    rw [List.map_cons, ticksOf_cons, ticksOf_dispatches u now us]
    by_cases hv : v = u
    · subst hv; simp [List.replicate_succ]
    · simp [hv]

theorem ticksOf_dispatches_of_ne {k : EventKind} (hk : EventKind.dispatch ≠ k) (u : Id) (now : ℕ)
    (us : List Id) : ticksOf k u (us.map fun v => (⟨.dispatch, now, v⟩ : Event)) = [] := by
  induction us with
  | nil => rfl
  | cons v us ih => rw [List.map_cons, ticksOf_cons, ih]; simp [hk]

theorem logInv_dispatch {m : MacroOp} {us : List Id} (hc : LogInv T c)
    (head : T.macros[c.nextDispatch]? = some m) (listed : us.Sublist m.uopIds)
    (pending : ∀ u ∈ us, (c.uop u).dispatchTick = none) : LogInv T (c.dispatchAll now us) := by
  have hev : (c.dispatchAll now us).events = c.events ++ us.map fun u => ⟨.dispatch, now, u⟩ := by
    rw [dispatchAll_eq]
  refine ⟨?_, ?_, ?_, ?_, ?_, ?_⟩
  · intro u
    rw [hev, ticksOf_append, ticksOf_dispatches_of_ne (by decide), hc.ready, dispatchAll_uop]
    split <;> simp
  · intro u
    rw [hev, ticksOf_append, ticksOf_dispatches_of_ne (by decide), hc.issue, dispatchAll_uop]
    split <;> simp
  · intro u
    rw [hev, ticksOf_append, ticksOf_dispatches_of_ne (by decide), hc.complete, dispatchAll_uop]
    split <;> simp
  · intro u
    rw [hev, ticksOf_append, ticksOf_dispatches_of_ne (by decide), hc.retire]
    simp
  · intro u t
    rw [hev, ticksOf_append, ticksOf_dispatches, dispatchAll_uop]
    simp only [List.mem_append, hc.dispatch, List.mem_replicate]
    by_cases hu : u ∈ us
    · simp [hu, pending u hu, List.count_pos_iff, ← Nat.pos_iff_ne_zero, eq_comm]
    · simp [hu, List.count_eq_zero_of_not_mem hu]
  · intro hN u
    rw [hev, ticksOf_append, ticksOf_dispatches, hc.dispatch_once hN, dispatchAll_uop]
    have hnodup : us.Nodup := listed.nodup (hN m (List.mem_of_getElem? head))
    by_cases hu : u ∈ us
    · simp [hu, pending u hu, List.count_eq_one_of_mem hnodup hu]
    · simp [hu, List.count_eq_zero_of_not_mem hu]

theorem logInv_step (hl : LogInv T c) (hu : UopInv T now c) (hr : ∃ r a, RobInv T now c r a)
    (hT : WellFormed T) (h : Step T inOrder now c c') : LogInv T c' := by
  cases h with
  | drop _ _ => exact ⟨hl.ready, hl.issue, hl.complete, hl.retire, hl.dispatch, hl.dispatch_once⟩
  | advance _ _ => exact ⟨hl.ready, hl.issue, hl.complete, hl.retire, hl.dispatch, hl.dispatch_once⟩
  | @enterRob m _ _ =>
    refine ⟨hl.ready, hl.issue, hl.complete, fun m' => ?_, hl.dispatch, hl.dispatch_once⟩
    refine (hl.retire m').trans ?_
    simp only [Core.enterRob, Function.update_apply]
    split
    · next h => rw [h]
    · rfl
  | dispatch head _ listed pending => exact logInv_dispatch hl head listed pending
  | @complete e rest _ _ running =>
    have hev : (completeUop { c with completionHeap := rest } T e.tick e.id).events =
        c.events ++ [⟨.complete, e.tick, e.id⟩] := rfl
    refine ⟨fun u => ?_, fun u => ?_, fun u => ?_, fun m => ?_, fun u t => ?_, fun hN u => ?_⟩
    · rw [hev, ticksOf_append, ticksOf_cons, hl.ready, completeUop_uop]
      by_cases he : u = e.id <;> simp [he]
    · rw [hev, ticksOf_append, ticksOf_cons, hl.issue, completeUop_uop]
      by_cases he : u = e.id <;> simp [he]
    · rw [hev, ticksOf_append, ticksOf_cons, hl.complete, completeUop_uop]
      by_cases he : u = e.id
      · subst he; simp [running]
      · have : ¬ e.id = u := fun h => he h.symm
        simp [he, this]
    · rw [hev, ticksOf_append, ticksOf_cons, hl.retire]
      have := (completedMacros_ticks (T := T)
        (completeUop { c with completionHeap := rest } T e.tick e.id).uop c.macro_ e.id m).2
      simpa [completeUop] using congrArg Option.toList this.symm
    · rw [hev, ticksOf_append, ticksOf_cons, completeUop_uop]
      by_cases he : u = e.id <;> simp [he, hl.dispatch]
    · rw [hev, ticksOf_append, ticksOf_cons, hl.dispatch_once hN, completeUop_uop]
      by_cases he : u = e.id <;> simp [he]
  | @issue x latency issuable =>
    have hx := (hu.waiting x.id).mp issuable.waiting
    have hev : (c.issue x now latency inOrder).events =
        c.events ++ [⟨.ready, c.dependencyReadyTick x, x.id⟩, ⟨.issue, now, x.id⟩] := rfl
    refine ⟨fun u => ?_, fun u => ?_, fun u => ?_, fun m => ?_, fun u t => ?_, fun hN u => ?_⟩
    · rw [hev, ticksOf_append, ticksOf_cons, ticksOf_cons, hl.ready, issue_uop]
      by_cases he : u = x.id
      · subst he; simp [hu.unready hx.2]
      · have : ¬ x.id = u := fun h => he h.symm
        simp [he, this]
    · rw [hev, ticksOf_append, ticksOf_cons, ticksOf_cons, hl.issue, issue_uop]
      by_cases he : u = x.id
      · subst he; simp [hx.2]
      · have : ¬ x.id = u := fun h => he h.symm
        simp [he, this]
    · rw [hev, ticksOf_append, ticksOf_cons, ticksOf_cons, hl.complete, issue_uop]
      by_cases he : u = x.id <;> simp [he]
    · rw [hev, ticksOf_append, ticksOf_cons, ticksOf_cons, hl.retire]
      simp [Core.issue]
    · rw [hev, ticksOf_append, ticksOf_cons, ticksOf_cons, issue_uop]
      by_cases he : u = x.id <;> simp [he, hl.dispatch]
    · rw [hev, ticksOf_append, ticksOf_cons, ticksOf_cons, hl.dispatch_once hN, issue_uop]
      by_cases he : u = x.id <;> simp [he]
  | @retire m rest t mem head _ _ =>
    obtain ⟨r, a, hr⟩ := hr
    have hfresh : (c.macro_ m.id).retireTick = none := hr.head_unretired hT mem head
    have hev : (c.retire m.id now).events = c.events ++ [⟨.retire, now, m.id⟩] := rfl
    refine ⟨fun u => ?_, fun u => ?_, fun u => ?_, fun m' => ?_, fun u t => ?_, fun hN u => ?_⟩
    · rw [hev, ticksOf_append, ticksOf_cons, hl.ready]; simp [Core.retire]
    · rw [hev, ticksOf_append, ticksOf_cons, hl.issue]; simp [Core.retire]
    · rw [hev, ticksOf_append, ticksOf_cons, hl.complete]; simp [Core.retire]
    · rw [hev, ticksOf_append, ticksOf_cons, hl.retire]
      by_cases he : m' = m.id
      · subst he; simp [Core.retire, hfresh]
      · have : ¬ m.id = m' := fun h => he h.symm
        simp [Core.retire, this, he]
    · rw [hev, ticksOf_append, ticksOf_cons]; simp [Core.retire, hl.dispatch]
    · rw [hev, ticksOf_append, ticksOf_cons, hl.dispatch_once hN]; simp [Core.retire]

/-! ### In-order issue -/

/-- The uops before the index have issued, in order, and no other. -/
structure InOrderInv (T : BoundTrace) (c : Core) : Prop where
  issued : ∀ {k : ℕ} {x : ExecutionUop}, T.uops[k]? = some x →
    ((c.uop x.id).issueTick.isSome ↔ k < c.inOrderIssueIndex)
  mono : ∀ {j k : ℕ} {s t : ℕ} {x y : ExecutionUop}, j ≤ k → T.uops[j]? = some x →
    T.uops[k]? = some y → (c.uop x.id).issueTick = some s → (c.uop y.id).issueTick = some t → s ≤ t

theorem inOrderInv_init : InOrderInv T (init T) := by
  constructor <;> simp [init]

theorem InOrderInv.of_issue (hc : InOrderInv T c)
    (hi : ∀ u, (c'.uop u).issueTick = (c.uop u).issueTick)
    (hn : c'.inOrderIssueIndex = c.inOrderIssueIndex) : InOrderInv T c' where
  issued hk := by rw [hi, hn]; exact hc.issued hk
  mono hjk hj hk h h' := by
    rw [hi] at h h'
    exact hc.mono hjk hj hk h h'

theorem uopIndex_inj (hT : WellFormed T) {j k : ℕ} {x y : ExecutionUop} (hj : T.uops[j]? = some x)
    (hk : T.uops[k]? = some y) (h : x.id = y.id) : j = k := by
  obtain ⟨hj', rfl⟩ := List.getElem?_eq_some_iff.mp hj
  obtain ⟨hk', rfl⟩ := List.getElem?_eq_some_iff.mp hk
  have hj'' : j < (T.uops.map (·.id)).length := by simpa using hj'
  have hk'' : k < (T.uops.map (·.id)).length := by simpa using hk'
  have hids : (T.uops.map (·.id))[j] = (T.uops.map (·.id))[k] := by simpa using h
  exact hT.uopIds.getElem_inj_iff.mp hids

theorem inOrderInv_step (hT : WellFormed T) (hu : UopInv T now c) (hc : InOrderInv T c)
    (h : Step T true now c c') : InOrderInv T c' := by
  cases h with
  | drop _ _ | enterRob _ _ | advance _ _ | retire _ _ _ _ => exact hc.of_issue (fun _ => rfl) rfl
  | complete _ _ _ =>
    refine hc.of_issue (fun u => ?_) rfl
    rw [completeUop_uop]; split <;> rfl
  | dispatch _ _ _ _ =>
    refine hc.of_issue (fun u => ?_) (dispatchAll_index _ _)
    rw [dispatchAll_uop]; split <;> rfl
  | @issue x latency issuable =>
    have hx := issuable.order rfl
    have hget : ∀ {k : ℕ} {y : ExecutionUop}, T.uops[k]? = some y →
        ((c.issue x now latency true).uop y.id).issueTick =
          if k = c.inOrderIssueIndex then some now else (c.uop y.id).issueTick := by
      intro k y hk
      rw [issue_uop]
      by_cases he : y.id = x.id
      · simp [he, uopIndex_inj hT hk hx he]
      · have : k ≠ c.inOrderIssueIndex := by
          rintro rfl
          rw [hx, Option.some.injEq] at hk
          exact he (by rw [hk])
        simp [he, this]
    have hidx : (c.issue x now latency true).inOrderIssueIndex = c.inOrderIssueIndex + 1 := rfl
    constructor
    · intro k y hk
      rw [hget hk, hidx]
      split
      · simp; omega
      · rw [hc.issued hk]; omega
    · intro j k s t y z hjk hj hk hs ht
      rw [hget hj] at hs
      rw [hget hk] at ht
      split at ht
      · cases ht
        split at hs
        · cases hs; exact le_rfl
        · exact (hu.issued hs).1
      · split at hs
        · next hne hji =>
          have := (hc.issued hk).mp (by rw [ht]; rfl)
          omega
        · exact hc.mono hjk hj hk hs ht

/-! ### Any number of steps -/

structure Inv (T : BoundTrace) (inOrder : Bool) (now : ℕ) (c : Core) : Prop where
  uops : UopInv T now c
  rob : ∃ r a, RobInv T now c r a
  macros : MacroInv T c
  log : LogInv T c
  order : inOrder = true → InOrderInv T c

theorem inv_init : Inv T inOrder 0 (init T) :=
  ⟨uopInv_init, ⟨0, 0, robInv_init⟩, macroInv_init, logInv_init, fun _ => inOrderInv_init⟩

theorem inv_step (hT : WellFormed T) (hc : Inv T inOrder now c) (h : Step T inOrder now c c') :
    Inv T inOrder now c' := by
  obtain ⟨hr, hm⟩ := macroOrder_step hT hc.rob hc.macros h
  refine ⟨uopInv_step hT hc.uops h, hr, hm, logInv_step hc.log hc.uops hc.rob hT h, ?_⟩
  rintro rfl
  exact inOrderInv_step hT hc.uops (hc.order rfl) h

theorem Inv.steps (hT : WellFormed T) (hc : Inv T inOrder now c) (h : Steps T inOrder now c c') :
    Inv T inOrder now c' :=
  Steps.invariant T inOrder now h hc fun _ _ => inv_step hT

theorem Inv.later {next : ℕ} (hc : Inv T inOrder now c) (hn : now ≤ next) :
    Inv T inOrder next c := by
  obtain ⟨r, a, hr⟩ := hc.rob
  exact ⟨hc.uops.later hn, ⟨r, a, hr.later hn⟩, hc.macros, hc.log, hc.order⟩

/-! ### The end of a run -/

/-- What a run has ordered when it ends. -/
structure RunOrdered (T : BoundTrace) (inOrder : Bool) (c : Core) : Prop where
  /-- dispatch ≤ ready ≤ issue ≤ complete, and complete − issue is the final latency -/
  uop : ∀ x ∈ T.uops, ∃ d r i t, (c.uop x.id).dispatchTick = some d ∧
    (c.uop x.id).readyTick = some r ∧ (c.uop x.id).issueTick = some i ∧
    (c.uop x.id).completeTick = some t ∧ d ≤ r ∧ r ≤ i ∧ t = i + (c.uop x.id).latencyTicks
  dependency : ∀ x ∈ T.uops, ∀ d ∈ x.dependencies, ∀ i t,
    (c.uop x.id).issueTick = some i → (c.uop d).completeTick = some t → t ≤ i
  gap : ∀ x ∈ T.uops, ∀ p ∈ x.issueAfterUop, ∀ i s,
    (c.uop x.id).issueTick = some i → (c.uop p).issueTick = some s → s + x.issueGapTicks ≤ i
  /-- A macro-op's completion is the maximum over its uops. -/
  macroComplete : ∀ m ∈ T.macros, ∃ t, (c.macro_ m.id).completeTick = some t ∧
    (∀ u ∈ m.uopIds, ∃ s, (c.uop u).completeTick = some s ∧ s ≤ t) ∧
    ∃ u ∈ m.uopIds, (c.uop u).completeTick = some t
  macroRetire : ∀ m ∈ T.macros, ∃ s t, (c.macro_ m.id).completeTick = some s ∧
    (c.macro_ m.id).retireTick = some t ∧ s ≤ t
  dispatchOrder : T.macros.Pairwise fun m m' => ∀ s t,
    (c.macro_ m.id).dispatchTick = some s → (c.macro_ m'.id).dispatchTick = some t → s ≤ t
  retireOrder : T.macros.Pairwise fun m m' => ∀ s t,
    (c.macro_ m.id).retireTick = some s → (c.macro_ m'.id).retireTick = some t → s ≤ t
  issueOrder : inOrder = true → T.uops.Pairwise fun x y => ∀ s t,
    (c.uop x.id).issueTick = some s → (c.uop y.id).issueTick = some t → s ≤ t
  issuedOnce : ∀ x ∈ T.uops, ∃ i, ticksOf .issue x.id c.events = [i] ∧ (c.uop x.id).issueTick = some i
  completedOnce : ∀ x ∈ T.uops, ∃ t, ticksOf .complete x.id c.events = [t] ∧
    (c.uop x.id).completeTick = some t
  retiredOnce : ∀ m ∈ T.macros, ∃ t, ticksOf .retire m.id c.events = [t] ∧
    (c.macro_ m.id).retireTick = some t

/-- Each uop has one dispatch in the log. -/
def DispatchedOnce (T : BoundTrace) (c : Core) : Prop :=
  ∀ x ∈ T.uops, ∃ d, ticksOf .dispatch x.id c.events = [d] ∧ (c.uop x.id).dispatchTick = some d

theorem lastCompletion_spec {uop : Id → UopState} {m : MacroOp} (hm : m.uopIds ≠ [])
    (h : ∀ u ∈ m.uopIds, (uop u).completeTick.isSome) :
    (∀ u ∈ m.uopIds, ∃ s, (uop u).completeTick = some s ∧ s ≤ lastCompletion uop m) ∧
      ∃ u ∈ m.uopIds, (uop u).completeTick = some (lastCompletion uop m) := by
  have key : ∀ (l : List ℕ) (a : ℕ), (∀ b ∈ l, b ≤ l.foldl max a) ∧ a ≤ l.foldl max a ∧
      (l.foldl max a = a ∨ l.foldl max a ∈ l) := by
    intro l
    induction l with
    | nil => intro a; simp
    | cons b l ih =>
      intro a
      obtain ⟨h1, h2, h3⟩ := ih (max a b)
      refine ⟨?_, (le_max_left a b).trans h2, ?_⟩
      · intro d hd
        rcases List.mem_cons.mp hd with rfl | hd
        · exact (le_max_right a d).trans h2
        · exact h1 d hd
      · rw [List.foldl_cons]
        rcases h3 with h3 | h3
        · rcases le_total a b with hab | hab
          · right; rw [h3, max_eq_right hab]; exact List.mem_cons_self
          · left; rw [h3, max_eq_left hab]
        · exact .inr (List.mem_cons_of_mem _ h3)
  obtain ⟨h1, -, h3⟩ := key (m.uopIds.map fun v => (uop v).completeTick.getD 0) 0
  have hle : ∀ u ∈ m.uopIds, ∃ s, (uop u).completeTick = some s ∧ s ≤ lastCompletion uop m := by
    intro u hu
    obtain ⟨s, hs⟩ := Option.isSome_iff_exists.mp (h u hu)
    refine ⟨s, hs, h1 s (List.mem_map.mpr ⟨u, hu, ?_⟩)⟩
    rw [hs]; rfl
  refine ⟨hle, ?_⟩
  rcases h3 with h3 | h3
  · obtain ⟨u, hu⟩ := List.exists_mem_of_ne_nil _ hm
    obtain ⟨s, hs, hs'⟩ := hle u hu
    have : lastCompletion uop m = 0 := h3
    obtain rfl : s = 0 := by omega
    exact ⟨u, hu, by rw [hs, this]⟩
  · obtain ⟨u, hu, he⟩ := List.mem_map.mp h3
    obtain ⟨s, hs⟩ := Option.isSome_iff_exists.mp (h u hu)
    refine ⟨u, hu, ?_⟩
    rw [hs, Option.some.injEq]
    rw [hs] at he
    exact he

theorem toList_eq_singleton {α : Type*} {o : Option α} {l : List α} {a : α} (h : l = o.toList)
    (ho : o = some a) : l = [a] := by rw [h, ho]; rfl

/-- **A run that has ended is in order.** -/
theorem Inv.ordered (hT : WellFormed T) (hc : Inv T inOrder now c)
    (hnext : T.macros.length ≤ c.nextDispatch) (hrob : c.rob = []) : RunOrdered T inOrder c := by
  obtain ⟨r, a, hr⟩ := hc.rob
  -- every macro-op has retired
  have hall : T.macros.length ≤ r := by
    have hlen := congrArg List.length hr.rob
    rw [hrob, List.length_map, List.length_drop, List.length_take, List.length_nil] at hlen
    have := hr.length
    rcases hr.next with h | h <;> omega
  have hret : ∀ m ∈ T.macros, ∃ t, (c.macro_ m.id).retireTick = some t := by
    intro m hm
    obtain ⟨k, hk, rfl⟩ := List.getElem_of_mem hm
    exact Option.isSome_iff_exists.mp
      ((hr.retired (List.getElem?_eq_getElem hk)).mpr (by omega))
  have hretire : ∀ m ∈ T.macros, ∃ s t, (c.macro_ m.id).completeTick = some s ∧
      (c.macro_ m.id).retireTick = some t ∧ s ≤ t := by
    intro m hm
    obtain ⟨t, ht⟩ := hret m hm
    obtain ⟨s, hs, hst⟩ := hc.macros.retire hm ht
    exact ⟨s, t, hs, ht, hst⟩
  have huop : ∀ x ∈ T.uops, ∃ d r i t, (c.uop x.id).dispatchTick = some d ∧
      (c.uop x.id).readyTick = some r ∧ (c.uop x.id).issueTick = some i ∧
      (c.uop x.id).completeTick = some t ∧ d ≤ r ∧ r ≤ i ∧ t = i + (c.uop x.id).latencyTicks := by
    intro x hx
    obtain ⟨m, hm, hu⟩ := hT.listed x hx
    obtain ⟨s, -, hs, -, -⟩ := hretire m hm
    obtain ⟨t, ht⟩ := Option.isSome_iff_exists.mp ((hc.macros.complete hm hs).1 _ hu)
    obtain ⟨i, hi, hti, -⟩ := hc.uops.completed ht
    obtain ⟨d, r, hd, hr', hdr, hri⟩ := (hc.uops.issued hi).2.times
    exact ⟨d, r, i, t, hd, hr', hi, ht, hdr, hri, hti⟩
  refine { uop := huop, dependency := ?_, gap := ?_, macroComplete := ?_, macroRetire := hretire,
           dispatchOrder := ?_, retireOrder := ?_, issueOrder := ?_, issuedOnce := ?_,
           completedOnce := ?_, retiredOnce := ?_ }
  · intro x hx d hd i t hi ht
    obtain ⟨t', ht', hle⟩ := (hc.uops.issued hi).2.dependencies (hT.uop?_eq hx) d hd
    rw [ht] at ht'
    cases ht'
    exact hle
  · intro x hx p hp i s hi hs
    obtain ⟨s', hs', hle⟩ := (hc.uops.issued hi).2.gap (hT.uop?_eq hx) p hp
    rw [hs] at hs'
    cases hs'
    exact hle
  · intro m hm
    obtain ⟨s, -, hs, -, -⟩ := hretire m hm
    obtain ⟨hcomp, rfl⟩ := hc.macros.complete hm hs
    exact ⟨_, hs, lastCompletion_spec (hT.macroUops m hm) hcomp⟩
  · rw [List.pairwise_iff_getElem]
    intro j k hj hk hjk s t hs ht
    exact hr.dispatch_mono hjk.le (List.getElem?_eq_getElem hj) (List.getElem?_eq_getElem hk) hs ht
  · rw [List.pairwise_iff_getElem]
    intro j k hj hk hjk s t hs ht
    exact hr.retire_mono hjk.le (List.getElem?_eq_getElem hj) (List.getElem?_eq_getElem hk) hs ht
  · intro hin
    rw [List.pairwise_iff_getElem]
    intro j k hj hk hjk s t hs ht
    exact (hc.order hin).mono hjk.le (List.getElem?_eq_getElem hj) (List.getElem?_eq_getElem hk) hs ht
  · intro x hx
    obtain ⟨_, _, i, _, _, _, hi, _⟩ := huop x hx
    exact ⟨i, toList_eq_singleton (hc.log.issue x.id) hi, hi⟩
  · intro x hx
    obtain ⟨_, _, _, t, _, _, _, ht, _⟩ := huop x hx
    exact ⟨t, toList_eq_singleton (hc.log.complete x.id) ht, ht⟩
  · intro m hm
    obtain ⟨t, ht⟩ := hret m hm
    exact ⟨t, toList_eq_singleton (hc.log.retire m.id) ht, ht⟩

/-- Where no macro-op lists a uop twice, every uop is dispatched once. -/
theorem Inv.dispatchedOnce (hT : WellFormed T) (hc : Inv T inOrder now c)
    (hnext : T.macros.length ≤ c.nextDispatch) (hN : ∀ m ∈ T.macros, m.uopIds.Nodup) :
    DispatchedOnce T c := by
  intro x hx
  obtain ⟨m, hm, hu⟩ := hT.listed x hx
  obtain ⟨k, hk, rfl⟩ := List.getElem_of_mem hm
  obtain ⟨d, hd⟩ := Option.isSome_iff_exists.mp
    (hc.macros.whole (by omega) (List.getElem?_eq_getElem hk) _ hu)
  exact ⟨d, toList_eq_singleton (hc.log.dispatch_once hN x.id) hd, hd⟩

end Core
end VectorSim
