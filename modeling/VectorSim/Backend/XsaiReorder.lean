/-
# Traces with reordered rename allocations

`reorder ρ T` is `T` with the allocations `ρ m` listed for each macro-op `m`;
the binder may list them in any order. Away from the rename free lists the
engine does not look at them, nor do these procedures look at the batches on
their way back: they do the same for both traces (`issueFixedPoint_reordered`,
`complete_reordered`, `nextEventTick_reordered`).
-/
import VectorSim.Backend.XsaiRun

namespace VectorSim

/-- The macro-op lists its allocations as `ρ` has them. -/
def MacroOp.relist (ρ : Id → List (String × ℕ)) (m : MacroOp) : MacroOp :=
  { m with renameAllocations := ρ m.id }

def BoundTrace.reorder (ρ : Id → List (String × ℕ)) (T : BoundTrace) : BoundTrace :=
  { T with macros := T.macros.map (·.relist ρ) }

variable {ρ : Id → List (String × ℕ)}

theorem BoundTrace.macro?_reorder (T : BoundTrace) (i : Id) :
    (T.reorder ρ).macro? i = (T.macro? i).map (·.relist ρ) := by
  unfold macro? reorder
  rw [List.find?_map]
  rfl

namespace Xsai

open Checked Setup Core

/-- The engine on the reordered trace. -/
def Config.reorder (ρ : Id → List (String × ℕ)) (E : Config) : Config := { E with trace := E.trace.reorder ρ }

/-- The state with other batches on their way back. -/
def Sched.withPending (s : Sched) (q : List Release) : Sched := { s with renamePending := q }

variable {E : Config} {now : ℕ}

/-! ### The checks of an issue -/

theorem dependsTransitively_reordered (targets macroUops : List Id) : ∀ (fuel : ℕ) (pending visited : List Id),
    (E.reorder ρ).dependsTransitively targets macroUops fuel pending visited =
      E.dependsTransitively targets macroUops fuel pending visited
  | 0, _, _ => rfl
  | _ + 1, [], _ => rfl
  | fuel + 1, d :: pending, visited => by
    unfold dependsTransitively
    rw [dependsTransitively_reordered targets macroUops fuel,
      dependsTransitively_reordered targets macroUops fuel]
    rfl

theorem computeIds_reordered (m : MacroOp) :
    (E.reorder ρ).computeIds (m.relist ρ) = E.computeIds m := by
  unfold computeIds
  simp only [dependsTransitively_reordered]
  rfl

theorem group?_reordered (i : Id) : (E.reorder ρ).group? i = E.group? i := by
  unfold group?
  show ((E.trace.reorder ρ).macro? i).bind _ = _
  rw [BoundTrace.macro?_reorder]
  cases E.trace.macro? i with
  | none => rfl
  | some m =>
    show (if _ ∨ (E.reorder ρ).computeIds (m.relist ρ) = [] then none
      else some ((E.reorder ρ).computeIds (m.relist ρ))) = _
    rw [computeIds_reordered]
    rfl

theorem ancestors_reordered (body : List Id) : ∀ (fuel : ℕ) (pending visited : List Id),
    ancestors (E.reorder ρ) body fuel pending visited = ancestors E body fuel pending visited
  | 0, _, _ => rfl
  | _ + 1, [], _ => rfl
  | fuel + 1, d :: pending, visited => by
    unfold ancestors
    rw [ancestors_reordered body fuel, ancestors_reordered body fuel]
    rfl

theorem classify_reordered (body : List ExecutionUop) : classify (E.reorder ρ) body = classify E body := by
  unfold classify ancestorParents
  simp only [ancestors_reordered]
  rfl

theorem epochsFrom_reordered : ∀ (last : Option Id) (xs : List ExecutionUop),
    epochsFrom (E.reorder ρ) last xs = epochsFrom E last xs
  | _, [] => rfl
  | last, x :: xs => by
    unfold epochsFrom
    rw [epochsFrom_reordered, epochsFrom_reordered]
    rfl

theorem mixedTerminal_reordered (u : Id) : mixedTerminal (E.reorder ρ) u = mixedTerminal E u := by
  unfold mixedTerminal epochList
  simp only [epochsFrom_reordered, classify_reordered]
  rfl

theorem epochBlocker_reordered (s : Sched) (x : ExecutionUop) :
    epochBlocker (E.reorder ρ) s x now = epochBlocker E s x now := by
  unfold epochBlocker visibilityBlocker closeBlocker capacityBlocker delaysVisibility epochClose epochList
  simp only [epochsFrom_reordered, classify_reordered, mixedTerminal_reordered]
  rfl

theorem issueBlocker_reordered (s : Sched) (q : List Release) (x : ExecutionUop) :
    issueBlocker (E.reorder ρ) (s.withPending q) x now = issueBlocker E s x now := by
  unfold issueBlocker earlyBlocker overlapBlocker overlapBlocked
  rw [group?_reordered, epochBlocker_reordered]
  rfl

/-! ### An issue -/

theorem completionTickFrom_reordered (s : Sched) (q : List Release) (d : String) : ∀ (fuel tick : ℕ),
    completionTickFrom (E.reorder ρ) (s.withPending q) d fuel tick = completionTickFrom E s d fuel tick
  | 0, _ => rfl
  | fuel + 1, tick => by
    unfold completionTickFrom
    rw [completionTickFrom_reordered s q d fuel]
    rfl

theorem reserveCompletion_reordered (s : Sched) (q : List Release) (d : Option String) (tick : ℕ) :
    reserveCompletion (E.reorder ρ) (s.withPending q) d tick = reserveCompletion E s d tick := by
  cases d with
  | none => rfl
  | some d =>
    unfold reserveCompletion
    dsimp only
    rw [completionTickFrom_reordered]
    rfl

theorem parentUsesLegacy_reordered (x : ExecutionUop) :
    parentUsesLegacy (E.reorder ρ) x = parentUsesLegacy E x := by
  unfold parentUsesLegacy
  show ((E.trace.reorder ρ).macro? x.parentId).any _ = _
  rw [BoundTrace.macro?_reorder]
  cases E.trace.macro? x.parentId <;> rfl

theorem siblings_reordered (x : ExecutionUop) : (E.reorder ρ).siblings x = E.siblings x := by
  unfold siblings
  show (((E.trace.reorder ρ).macro? x.parentId).map (·.uopIds)).getD [] = _
  rw [BoundTrace.macro?_reorder]
  cases E.trace.macro? x.parentId <;> rfl

theorem updateGroups_reordered (c : Core) (x : ExecutionUop) (pending : List Id) :
    (E.reorder ρ).updateGroups c x pending = E.updateGroups c x pending := by
  unfold updateGroups
  rw [group?_reordered]
  rfl

theorem issued_reordered (s : Sched) (q : List Release) (x : ExecutionUop) (r : Reserved) :
    issued (E.reorder ρ) (s.withPending q) x now r = (issued E s x now r).withPending q := by
  unfold issued otherVectorIssued openEpoch
  simp only [reserveCompletion_reordered, parentUsesLegacy_reordered, siblings_reordered, updateGroups_reordered,
    mixedTerminal_reordered]
  rfl

theorem issueUop_reordered (s : Sched) (q : List Release) (x : ExecutionUop) :
    issueUop (E.reorder ρ) (s.withPending q) x now = (issueUop E s x now).map (·.withPending q) := by
  have hreserve : reserve (E.reorder ρ) (s.withPending q) x now = reserve E s x now := rfl
  unfold issueUop
  rw [hreserve]
  cases reserve E s x now with
  | error e => rfl
  | ok r => exact congrArg Except.ok (issued_reordered s q x r)

theorem issueList_reordered (q : List Release) : ∀ (xs : List ExecutionUop) (s : Sched),
    issueList (E.reorder ρ) now xs (s.withPending q) =
      (issueList E now xs s).map fun r => (r.1, r.2.withPending q)
  | [], _ => rfl
  | x :: xs, s => by
    unfold issueList
    rw [issueBlocker_reordered]
    cases issueBlocker E s x now with
    | error e => rfl
    | ok b =>
      obtain ⟨memory, b⟩ := b
      cases b with
      | some b =>
        show (if E.inOrder then .ok (false, { s with memory := memory }.withPending q)
          else issueList (E.reorder ρ) now xs ({ s with memory := memory }.withPending q)) =
            (if E.inOrder then .ok (false, { s with memory := memory })
              else issueList E now xs { s with memory := memory }).map _
        split
        · rfl
        · exact issueList_reordered q xs _
      | none =>
        have hissue : issueUop (E.reorder ρ) { s.withPending q with memory := memory } x now =
            (issueUop E { s with memory := memory } x now).map (·.withPending q) :=
          issueUop_reordered { s with memory := memory } q x
        simp only [Bind.bind, Except.bind]
        rw [hissue]
        cases issueUop E { s with memory := memory } x now with
        | error e => rfl
        | ok s₁ =>
          simp only [Except.map]
          rw [issueList_reordered q xs s₁]
          cases issueList E now xs s₁ <;> rfl

/-! ### Completion -/

theorem completedMacros_reordered (T : BoundTrace) (uop : Id → UopState) (macro_ : Id → MacroState) (u : Id) :
    completedMacros (T.reorder ρ) uop macro_ u = completedMacros T uop macro_ u := by
  unfold completedMacros parentMacro?
  rw [show (T.reorder ρ).uop? u = T.uop? u from rfl]
  cases T.uop? u with
  | none => rfl
  | some x =>
    dsimp only [Option.bind_some]
    rw [BoundTrace.macro?_reorder]
    cases T.macro? x.parentId <;> rfl

theorem completeEntry_reordered (s : Sched) (q : List Release) (e : HeapEntry) (rest : List HeapEntry) :
    completeEntry (E.reorder ρ) (s.withPending q) e rest =
      ((completeEntry E s e rest).1, (completeEntry E s e rest).2.withPending q) := by
  unfold completeEntry
  dsimp only
  show (if (s.uop e.id).completeTick.isSome then _ else _) = _
  split
  · rfl
  · have hcomplete : ∀ c : Core, c.completeUop (E.reorder ρ).trace e.tick e.id =
        c.completeUop E.trace e.tick e.id := by
      intro c
      unfold completeUop
      rw [show (E.reorder ρ).trace = E.trace.reorder ρ from rfl]
      simp only [completedMacros_reordered]
    rw [hcomplete]
    rfl

theorem completeLoop_reordered (now : ℕ) (q : List Release) : ∀ (fuel : ℕ) (s : Sched),
    completeLoop (E.reorder ρ) now fuel (s.withPending q) =
      ((completeLoop E now fuel s).1, (completeLoop E now fuel s).2.withPending q)
  | 0, _ => rfl
  | fuel + 1, s => by
    unfold completeLoop
    rw [show (s.withPending q).completionHeap = s.completionHeap from rfl]
    cases s.completionHeap with
    | nil => rfl
    | cons e rest =>
      dsimp only
      split
      · rw [completeEntry_reordered, completeLoop_reordered now q fuel]
      · rfl

theorem complete_reordered (now : ℕ) (s : Sched) (q : List Release) :
    complete (E.reorder ρ) now (s.withPending q) = ((complete E now s).1, (complete E now s).2.withPending q) :=
  completeLoop_reordered now q _ s

theorem issueFixedPoint_reordered (now : ℕ) (s : Sched) (q : List Release) :
    issueFixedPoint (E.reorder ρ) now (s.withPending q) = (issueFixedPoint E now s).map (·.withPending q) := by
  have hissue : ∀ s : Sched, issueOnce (E.reorder ρ) now (s.withPending q) =
      (issueOnce E now s).map fun r => (r.1, r.2.withPending q) := fun s => issueList_reordered q _ s
  exact FixedPoint.run_map (fun s => complete_reordered now s q) hissue _ s

/-! ### Flows and the next tick -/

theorem releaseFlowsLoop_reordered (now : ℕ) (q : List Release) : ∀ (fuel : ℕ) (s : Sched),
    releaseFlowsLoop (E.reorder ρ) now fuel (s.withPending q) = (releaseFlowsLoop E now fuel s).withPending q
  | 0, _ => rfl
  | fuel + 1, s => by
    unfold releaseFlowsLoop
    rw [show (s.withPending q).serviceHeap = s.serviceHeap from rfl]
    cases s.serviceHeap with
    | nil => rfl
    | cons e rest =>
      dsimp only
      split
      · exact releaseFlowsLoop_reordered now q fuel (releaseFlow E s e rest)
      · rfl

theorem pollWaiting_reordered (s : Sched) (q : List Release) (r : MemoryState × List ℕ) (x : ExecutionUop) :
    pollWaiting (E.reorder ρ) now (s.withPending q) r x = pollWaiting E now s r x := by
  unfold pollWaiting
  rw [show ({ s.withPending q with memory := r.1 } : Sched) = { s with memory := r.1 }.withPending q from rfl,
    issueBlocker_reordered]
  rfl

theorem unfinished_reordered (c : Core) : (E.reorder ρ).unfinished c = E.unfinished c := by
  unfold unfinished
  show (decide (c.nextDispatch < (E.trace.macros.map (·.relist ρ)).length) || _) = _
  rw [List.length_map]

/-- Where the heads of the batches are due alike, so is the next tick. -/
theorem nextEventTick_reordered (s : Sched) (q : List Release)
    (hq : q.head?.map (·.tick) = s.renamePending.head?.map (·.tick)) :
    nextEventTick (E.reorder ρ) now (s.withPending q) =
      (nextEventTick E now s).map fun r => (r.1.withPending q, r.2) := by
  have hevent : releaseEvent (E.reorder ρ) now (s.withPending q) = releaseEvent E now s := by
    have hhead : ∀ (s : Sched) (E : Config), releaseEvent E now s =
        (s.renamePending.head?.map (·.tick)).toList.map fun t => if now < t then t else E.nextCycle now := by
      intro s E
      unfold releaseEvent
      cases s.renamePending <;> rfl
    rw [hhead, hhead, show (s.withPending q).renamePending = q from rfl, hq]
    rfl
  have hticks : scheduledTicks (E.reorder ρ) now (s.withPending q) = scheduledTicks E now s := by
    unfold scheduledTicks
    rw [hevent, unfinished_reordered]
    rfl
  have hpoll : pollWaiting (E.reorder ρ) now (s.withPending q) = pollWaiting E now s := by
    funext r x
    exact pollWaiting_reordered s q r x
  unfold nextEventTick
  rw [hpoll, hticks]
  show ((E.issueCandidates s.toCore).foldlM (pollWaiting E now s) (s.memory, []) >>= _) = _
  cases (E.issueCandidates s.toCore).foldlM (pollWaiting E now s) (s.memory, []) with
  | error e => rfl
  | ok r =>
    simp only [Bind.bind, Except.bind]
    cases (scheduledTicks E now s ++ r.2).min? <;> rfl

/-! ### The constructor -/

theorem slotsOf_relist (m : MacroOp) (execution : List ExecutionUop) : ∀ (previous : Option Id)
    (gs : List (Expander.Group × ℕ)),
    Expander.slotsOf (m.relist ρ) execution previous gs = Expander.slotsOf m execution previous gs
  | _, [] => rfl
  | previous, g :: gs => by
    unfold Expander.slotsOf
    simp only [slotsOf_relist m execution _ gs]
    rfl

theorem slotsForMacro_reorder (T : BoundTrace) (width : PositiveParam) (m : MacroOp) :
    Expander.slotsForMacro (T.reorder ρ) width (m.relist ρ) = Expander.slotsForMacro T width m := by
  unfold Expander.slotsForMacro
  simp only [slotsOf_relist]
  rfl

theorem expand_reorder (T : BoundTrace) (P : EngineProfile) :
    Expander.expand (T.reorder ρ) P = Expander.expand T P := by
  have hslots : (T.reorder ρ).macros.mapM (Expander.slotsForMacro (T.reorder ρ) P.registerWidthBits) =
      T.macros.mapM (Expander.slotsForMacro T P.registerWidthBits) := by
    show (T.macros.map (·.relist ρ)).mapM _ = _
    rw [List.mapM_map]
    exact congrArg (T.macros.mapM ·) (funext fun m => slotsForMacro_reorder T P.registerWidthBits m)
  unfold Expander.expand
  rw [hslots]
  rfl

theorem materialize_reorder (T : BoundTrace) (slots : List (Expander.Slot × List Id)) :
    Expander.materialize (T.reorder ρ) slots = (Expander.materialize T slots).reorder ρ := by
  unfold Expander.materialize BoundTrace.reorder
  simp only [List.map_map]
  rfl

theorem visitReady_reorder (T : BoundTrace) : ∀ (fuel : ℕ) (ready : List Id) (indegree : Id → ℕ) (visited : ℕ),
    visitReady (T.reorder ρ) fuel ready indegree visited = visitReady T fuel ready indegree visited
  | 0, _, _, _ => rfl
  | _ + 1, [], _, _ => rfl
  | fuel + 1, p :: ready, indegree, visited => by
    unfold visitReady
    dsimp only
    rw [visitReady_reorder T fuel]
    rfl

/-- The allocations of the macro-ops of a trace, in another order. -/
def Reorders (ρ : Id → List (String × ℕ)) (T : BoundTrace) : Prop :=
  ∀ m ∈ T.macros, (ρ m.id).Perm m.renameAllocations

theorem validateMacro_reorder {T : BoundTrace} {m : MacroOp} (hρ : (ρ m.id).Perm m.renameAllocations)
    (h : validateMacro T m = .ok ()) : validateMacro (T.reorder ρ) (m.relist ρ) = .ok () := by
  obtain ⟨_, h₁, h⟩ := ok_bind.mp h
  obtain ⟨_, h₂, h⟩ := ok_bind.mp h
  obtain ⟨_, h₃, h⟩ := ok_bind.mp h
  obtain ⟨_, h₄, h⟩ := ok_bind.mp h
  obtain ⟨_, h₅, h⟩ := ok_bind.mp h
  obtain ⟨_, h₆, h⟩ := ok_bind.mp h
  obtain ⟨_, h₇, h⟩ := ok_bind.mp h
  obtain ⟨_, h₈, h⟩ := ok_bind.mp h
  have hrename : (ρ m.id).forM (fun d => check (1 ≤ d.2) (TraceError.invalidMacroRename m.id d.1)) = .ok () :=
    forM_ok.mpr fun d hd => forM_ok.mp h₈ d (hρ.mem_iff.mp hd)
  exact ok_bind.mpr ⟨_, h₁, ok_bind.mpr ⟨_, h₂, ok_bind.mpr ⟨_, h₃, ok_bind.mpr ⟨_, h₄,
    ok_bind.mpr ⟨_, h₅, ok_bind.mpr ⟨_, h₆, ok_bind.mpr ⟨_, h₇, ok_bind.mpr ⟨_, hrename, h⟩⟩⟩⟩⟩⟩⟩⟩

theorem validateUop_reorder (T : BoundTrace) (x : ExecutionUop) :
    validateUop (T.reorder ρ) x = validateUop T x := by
  have hparent : ((T.reorder ρ).macro? x.parentId).isSome = (T.macro? x.parentId).isSome := by
    rw [BoundTrace.macro?_reorder, Option.isSome_map]
  unfold validateUop
  rw [hparent]
  rfl

/-- The order does not matter to the validator. -/
theorem validate_reorder {T : BoundTrace} (hρ : Reorders ρ T) (h : validateBoundTrace T = .ok ()) :
    validateBoundTrace (T.reorder ρ) = .ok () := by
  obtain ⟨_, h₁, h⟩ := ok_bind.mp h
  obtain ⟨_, h₂, h⟩ := ok_bind.mp h
  obtain ⟨_, h₃, h⟩ := ok_bind.mp h
  obtain ⟨_, h₄, h⟩ := ok_bind.mp h
  obtain ⟨_, h₅, h₆⟩ := ok_bind.mp h
  have hids : (T.reorder ρ).macros.map (·.id) = T.macros.map (·.id) := List.map_map
  have hmacros : (T.reorder ρ).macros.forM (validateMacro (T.reorder ρ)) = .ok () := by
    refine forM_ok.mpr fun m hm => ?_
    obtain ⟨m', hm', rfl⟩ := List.mem_map.mp hm
    exact validateMacro_reorder (hρ m' hm') (forM_ok.mp h₃ m' hm')
  have howned : ∀ x ∈ T.uops, ∃ m ∈ (T.reorder ρ).macros, x.id ∈ m.uopIds := by
    intro x hx
    obtain ⟨m, hm, hu⟩ := check_ok.mp h₄ x hx
    exact ⟨m.relist ρ, List.mem_map_of_mem hm, hu⟩
  have huops : T.uops.forM (validateUop (T.reorder ρ)) = .ok () :=
    forM_ok.mpr fun x hx => (validateUop_reorder T x).trans (forM_ok.mp h₅ x hx)
  have hvisits : topologicalVisits (T.reorder ρ) = topologicalVisits T := by
    unfold topologicalVisits
    rw [visitReady_reorder]
    rfl
  exact ok_bind.mpr ⟨(), check_ok.mpr (by rw [hids]; exact check_ok.mp h₁), ok_bind.mpr ⟨_, h₂,
    ok_bind.mpr ⟨_, hmacros, ok_bind.mpr ⟨(), check_ok.mpr howned, ok_bind.mpr ⟨_, huops,
      check_ok.mpr (by rw [hvisits]; exact check_ok.mp h₆)⟩⟩⟩⟩⟩

theorem materialize_reorders {T : BoundTrace} {slots : List (Expander.Slot × List Id)} (hρ : Reorders ρ T) :
    Reorders ρ (Expander.materialize T slots) := by
  intro m hm
  obtain ⟨m', hm', rfl⟩ := List.mem_map.mp hm
  exact hρ m' hm'

theorem schedulerTrace_reorder {T T' : BoundTrace} {P : EngineProfile} {expandUops : Bool} (hρ : Reorders ρ T)
    (h : schedulerTrace T P expandUops = .ok T') :
    schedulerTrace (T.reorder ρ) P expandUops = .ok (T'.reorder ρ) ∧ Reorders ρ T' := by
  unfold schedulerTrace at h ⊢
  split at h
  · cases h
  · next hv =>
    rw [validate_reorder hρ hv]
    show (if expandUops && T.isDynamic then _ else _) = _ ∧ _
    split at h
    · split at h
      · cases h
      · next slots hslots =>
        dsimp only at h
        split at h
        · cases h
        · next hv' =>
          cases h
          refine ⟨?_, materialize_reorders hρ⟩
          rw [if_pos ‹_›, expand_reorder, hslots]
          dsimp only
          rw [materialize_reorder, validate_reorder (materialize_reorders hρ) hv']
    · cases h
      exact ⟨if_neg ‹_›, hρ⟩

theorem setupInit_reorder {T : BoundTrace} {P : EngineProfile} {inOrder : Bool} {mode : CacheMode}
    {limit : Option Bool} {S : Setup} (h : Setup.init T P inOrder mode limit = .ok S) :
    Setup.init (T.reorder ρ) P inOrder mode limit = .ok { S with trace := S.trace.reorder ρ } := by
  obtain ⟨_, h₁, h⟩ := ok_bind.mp h
  obtain ⟨_, h₂, h⟩ := ok_bind.mp h
  obtain ⟨_, h₃, h⟩ := ok_bind.mp h
  obtain ⟨_, h₄, h⟩ := ok_bind.mp h
  cases h
  exact ok_bind.mpr ⟨_, h₁, ok_bind.mpr ⟨_, h₂, ok_bind.mpr ⟨_, h₃, ok_bind.mpr ⟨_, h₄, rfl⟩⟩⟩⟩

/-- The engine accepts the trace in any order. -/
theorem init_reorder {T : BoundTrace} {P : EngineProfile} {inOrder : Bool} {mode : CacheMode}
    {limit : Option Bool} {expandUops : Bool} {E : Config} (hρ : Reorders ρ T)
    (h : init T P inOrder mode limit expandUops = .ok E) :
    init (T.reorder ρ) P inOrder mode limit expandUops = .ok (E.reorder ρ) ∧ Reorders ρ E.trace := by
  obtain ⟨T', h₁, h⟩ := ok_bind.mp h
  obtain ⟨_, h₂, h⟩ := ok_bind.mp h
  obtain ⟨_, h₃, h⟩ := ok_bind.mp h
  obtain ⟨_, h₄, h⟩ := ok_bind.mp h
  obtain ⟨_, h₅, h⟩ := ok_bind.mp h
  obtain ⟨S, h₆, h⟩ := ok_bind.mp h
  obtain ⟨_, h₇, h⟩ := ok_bind.mp h
  obtain ⟨_, h₈, h⟩ := ok_bind.mp h
  obtain ⟨_, h₉, h⟩ := ok_bind.mp h
  obtain ⟨_, h₁₀, h⟩ := ok_bind.mp h
  obtain ⟨h₁', hρ'⟩ := schedulerTrace_reorder hρ h₁
  have hS : S.trace = T' := by
    obtain ⟨_, -, hS⟩ := ok_bind.mp h₆
    obtain ⟨_, -, hS⟩ := ok_bind.mp hS
    obtain ⟨_, -, hS⟩ := ok_bind.mp hS
    obtain ⟨_, -, hS⟩ := ok_bind.mp hS
    cases hS
    rfl
  cases h
  refine ⟨?_, hS ▸ hρ'⟩
  exact ok_bind.mpr ⟨_, h₁', ok_bind.mpr ⟨_, h₂, ok_bind.mpr ⟨_, h₃, ok_bind.mpr ⟨_, h₄, ok_bind.mpr ⟨_, h₅,
    ok_bind.mpr ⟨_, setupInit_reorder h₆, ok_bind.mpr ⟨_, h₇, ok_bind.mpr ⟨_, h₈, ok_bind.mpr ⟨_, h₉,
      ok_bind.mpr ⟨_, h₁₀, rfl⟩⟩⟩⟩⟩⟩⟩⟩⟩⟩

end Xsai
end VectorSim
