/-
# The critical path

`_dependency_critical_path_cycles`, the same in both engines: after the run it takes
the uops off a heap of those whose dependencies have finished, and adds to the last
finish among these the latency the run has left. Whatever the trace, it returns the
greatest sum of final latencies over a chain of uops that each depend on the one
before, and no chain takes longer than the run (`critical_path_exact`).
-/
import VectorSim.TraceSafety
import VectorSim.Lib.LongestPath
import VectorSim.Lib.Queue

namespace VectorSim

open Checked Core Kahn LongestPath

variable {T : BoundTrace}

/-- The entry `(sequence, uop_id)` of the heap. -/
def heapKey (T : BoundTrace) (u : Id) : ℕ × ℕ × ℕ := (((T.uop? u).map (·.sequence)).getD 0, u, 0)

/-- `ready` as a heap: `heappush` and `heappop`. -/
def readyHeap (T : BoundTrace) : Policy Id where
  push c ready := Queue.push (heapKey T) c ready
  pop := first
  push_perm c ready := Queue.push_perm c ready
  pop_none := first_none
  pop_some := first_some

/-- `uop.dependencies`. -/
def dependenciesOf (T : BoundTrace) (u : Id) : List Id := ((T.uop? u).map (·.dependencies)).getD []

/-- The loop over the heap. `finish[dependency]` raises for a uop without an entry. -/
def finishLoop (T : BoundTrace) (latency : Id → ℕ) :
    ℕ → List Id → (Id → ℕ) → (Id → Option ℕ) → Except Id (Id → Option ℕ)
  | 0, _, _, finish => .ok finish
  | fuel + 1, ready, indegree, finish =>
    match (readyHeap T).pop ready with
    | none => .ok finish
    | some (u, rest) => do
      let ts ← (dependenciesOf T u).mapM fun d => match finish d with
        | some t => Except.ok t
        | none => .error d
      let finish := Function.update finish u (some (ts.foldl max 0 + latency u))
      let r := Kahn.relax (readyHeap T) (consumersOf T u) indegree rest
      finishLoop T latency fuel r.2 r.1 finish

/-- `_dependency_critical_path_cycles`, in ticks. Every uop enters the heap at most once. -/
def criticalPathTicks (T : BoundTrace) (c : Core) : Except Id ℕ := do
  let ready := ((T.uops.map (·.id)).filter fun u => indegreeOf T u = 0).foldr (Queue.push (heapKey T)) []
  let finish ← finishLoop T (fun u => (c.uop u).latencyTicks) T.uops.length ready (indegreeOf T) fun _ => none
  return (T.uops.filterMap fun x => finish x.id).foldl max 0

/-- `_dependency_critical_path_cycles`. -/
def dependencyCriticalPathCycles (T : BoundTrace) (c : Core) : Except Id ℚ :=
  (fun ticks : ℕ => (ticks : ℚ) / T.ticksPerCycle) <$> criticalPathTicks T c

/-! ### What it should be -/

/-- Uops of the trace that each depend on the one before. -/
structure DependencyChain (T : BoundTrace) (xs : List ExecutionUop) : Prop where
  inside : ∀ x ∈ xs, x ∈ T.uops
  depends : xs.IsChain fun d x => d.id ∈ x.dependencies

/-- The sum of the latencies the run has left. -/
def chainTicks (c : Core) (xs : List ExecutionUop) : ℕ := (xs.map fun x => (c.uop x.id).latencyTicks).sum

/-- The critical path of a run that took `total` ticks. -/
structure CriticalPathExact (T : BoundTrace) (c : Core) (total : ℕ) : Prop where
  /-- The final latency of a uop is the one observed. -/
  observed : ∀ x ∈ T.uops, ∃ i t, (c.uop x.id).issueTick = some i ∧ (c.uop x.id).completeTick = some t ∧
    t = i + (c.uop x.id).latencyTicks
  path : ∃ ticks : ℕ, criticalPathTicks T c = .ok ticks ∧
    IsGreatest {n | ∃ xs, DependencyChain T xs ∧ chainTicks c xs = n} ticks ∧ ticks ≤ total
  cycles : ∃ cycles : ℚ, dependencyCriticalPathCycles T c = .ok cycles ∧
    IsGreatest {q | ∃ xs, DependencyChain T xs ∧ (chainTicks c xs : ℚ) / T.ticksPerCycle = q} cycles ∧
    cycles ≤ (total : ℚ) / T.ticksPerCycle

/-! ### The loop -/

section Graph

variable (hn : (T.uops.map (·.id)).Nodup) (hd : ∀ x ∈ T.uops, ∀ d ∈ x.dependencies, (T.uop? d).isSome)

theorem finishLoop_eq (latency : Id → ℕ) : ∀ (fuel : ℕ) (ready : List Id) (indegree : Id → ℕ) (f : Id → Option ℕ),
    finishLoop T latency fuel ready indegree f =
      (Kahn.order (graphOf T hn hd) (readyHeap T) fuel ready indegree).foldlM (finish (graphOf T hn hd) latency) f
  | 0, _, _, _ => rfl
  | _ + 1, [], _, _ => rfl
  | fuel + 1, u :: rest, indegree, f => by
    have hdeps : dependenciesOf T u = (graphOf T hn hd).deps u := rfl
    show ((dependenciesOf T u).mapM _ >>= fun ts => finishLoop T latency fuel
        (Kahn.relax (readyHeap T) (consumersOf T u) indegree rest).2 (Kahn.relax (readyHeap T) (consumersOf T u) indegree rest).1 _) =
      (u :: Kahn.order (graphOf T hn hd) (readyHeap T) fuel
        (Kahn.relax (readyHeap T) ((graphOf T hn hd).consumers u) indegree rest).2
        (Kahn.relax (readyHeap T) ((graphOf T hn hd).consumers u) indegree rest).1).foldlM
          (finish (graphOf T hn hd) latency) f
    rw [consumersOf_eq hn hd, List.foldlM_cons, hdeps]
    unfold LongestPath.finish
    rw [bind_assoc]
    refine congrArg (_ >>= ·) (funext fun ts => ?_)
    rw [finishLoop_eq latency fuel, pure_bind]
    rfl

theorem heapify_perm (key : Id → ℕ × ℕ × ℕ) : ∀ us : List Id, (us.foldr (Queue.push key) []).Perm us
  | [] => List.Perm.refl _
  | u :: us => (Queue.push_perm u _).trans ((heapify_perm key us).cons u)

/-- Where the uops have an order, each finishes after its dependencies. -/
theorem criticalPath_settled (horder : HasOrder T) (c : Core) : ∃ f : Id → ℕ,
    criticalPathTicks T c = .ok (((graphOf T hn hd).nodes.map f).foldl max 0) ∧
      Settled (graphOf T hn hd) (fun u => (c.uop u).latencyTicks) f ∧
      ∃ order : List Id, order.Perm (graphOf T hn hd).nodes ∧ (graphOf T hn hd).Topological order := by
  let G := graphOf T hn hd
  let start := ((T.uops.map (·.id)).filter fun u => indegreeOf T u = 0).foldr (Queue.push (heapKey T)) []
  have hdegree : indegreeOf T = fun u => (G.deps u).length := indegreeOf_eq hn hd
  have hstart : start.Perm (G.nodes.filter fun u => (G.deps u).length = 0) := by
    refine (heapify_perm _ _).trans ?_
    rw [hdegree]
    exact List.Perm.refl _
  have htopological : ∃ l, l.Perm G.nodes ∧ G.Topological l := (hasOrder_iff hn hd).mp horder
  have hlength : (Kahn.sorted G (readyHeap T) start).length = G.nodes.length :=
    (Kahn.sorted_complete_iff hstart).mpr htopological
  obtain ⟨hperm, htop⟩ := Kahn.sorted_complete hstart hlength
  have hnone : Finished G (fun u => (c.uop u).latencyTicks) [] fun _ => none := ⟨by simp, by simp⟩
  obtain ⟨f, hf, hfinished⟩ := finishes (Kahn.sorted G (readyHeap T) start) [] hnone
    (by rw [List.nil_append]; exact hperm.nodup_iff.mpr G.nodup) (by rw [List.nil_append]; exact htop)
  rw [List.nil_append] at hfinished
  refine ⟨time f, ?_, fun u hu => hfinished.settled u (hperm.mem_iff.mpr hu), _, hperm, htop⟩
  have hloop : finishLoop T (fun u => (c.uop u).latencyTicks) T.uops.length start (indegreeOf T) (fun _ => none) = .ok f := by
    rw [finishLoop_eq hn hd, hdegree, ← hf]
    unfold Kahn.sorted
    rw [show G.nodes.length = T.uops.length from List.length_map _]
  unfold criticalPathTicks
  refine ok_bind.mpr ⟨f, hloop, ?_⟩
  have hvalues : T.uops.filterMap (fun x => f x.id) = G.nodes.map (time f) := by
    show _ = (T.uops.map (·.id)).map (time f)
    rw [List.map_map]
    refine (List.filterMap_congr (g := some ∘ time f ∘ (·.id)) fun x hx => ?_).trans (congrFun List.filterMap_eq_map _)
    have hsome := (hfinished.some_iff x.id).mpr (hperm.mem_iff.mpr (List.mem_map_of_mem hx))
    obtain ⟨t, ht⟩ := Option.isSome_iff_exists.mp hsome
    simp [time, ht]
  rw [hvalues]
  rfl

/-- The chains of uops are the chains of their ids. -/
theorem chain_map {xs : List ExecutionUop} (hx : ∀ x ∈ xs, x ∈ T.uops) :
    Chain (graphOf T hn hd) (xs.map (·.id)) ↔ DependencyChain T xs := by
  have hdepends : (xs.map (·.id)).IsChain (fun d u => d ∈ (graphOf T hn hd).deps u) ↔
      xs.IsChain fun d x => d.id ∈ x.dependencies := by
    rw [List.isChain_map]
    refine List.IsChain.iff_of_mem_imp fun d x _ hmem => ?_
    rw [graphOf_deps hn hd (hx x hmem)]
  constructor
  · exact fun h => ⟨hx, hdepends.mp h.depends⟩
  · exact fun h => ⟨fun u hu => List.map_subset _ hx hu, hdepends.mpr h.depends⟩

/-- The greatest sum over the chains of ids is that over the chains of uops. -/
theorem chains_eq (c : Core) : {n | ∃ us, Chain (graphOf T hn hd) us ∧ weight (fun u => (c.uop u).latencyTicks) us = n} =
    {n | ∃ xs, DependencyChain T xs ∧ chainTicks c xs = n} := by
  ext n
  constructor
  · rintro ⟨us, hus, rfl⟩
    -- the ids of a chain are those of uops
    obtain ⟨xs, hxs, rfl⟩ : ∃ xs : List ExecutionUop, (∀ x ∈ xs, x ∈ T.uops) ∧ xs.map (·.id) = us := by
      have hinside := hus.inside
      clear hus
      induction us with
      | nil => exact ⟨[], by simp, rfl⟩
      | cons u us ih =>
        obtain ⟨x, hx, rfl⟩ := List.mem_map.mp (hinside u List.mem_cons_self)
        obtain ⟨xs, hxs, rfl⟩ := ih fun v hv => hinside v (List.mem_cons_of_mem _ hv)
        exact ⟨x :: xs, by simpa using ⟨hx, hxs⟩, rfl⟩
    refine ⟨xs, (chain_map hn hd hxs).mp hus, ?_⟩
    unfold chainTicks weight
    rw [List.map_map]
    rfl
  · rintro ⟨xs, hxs, rfl⟩
    refine ⟨xs.map (·.id), (chain_map hn hd hxs.inside).mpr hxs, ?_⟩
    unfold chainTicks weight
    rw [List.map_map]
    rfl

include hn hd in
/-- Completions that respect the dependencies bound every chain. -/
theorem chain_le_total {inOrder : Bool} {total : ℕ} {c : Core} (hinv : c.Inv T inOrder total)
    (hrun : RunOrdered T inOrder c)
    (hobserved : ∀ x ∈ T.uops, ∃ i t, (c.uop x.id).issueTick = some i ∧ (c.uop x.id).completeTick = some t ∧
      t = i + (c.uop x.id).latencyTicks) {xs : List ExecutionUop} (hxs : DependencyChain T xs) :
    chainTicks c xs ≤ total := by
  have hends : ∀ u ∈ (graphOf T hn hd).nodes, ∀ d ∈ (graphOf T hn hd).deps u,
      ((c.uop d).completeTick).getD 0 + (c.uop u).latencyTicks ≤ ((c.uop u).completeTick).getD 0 := by
    intro u hu d hdep
    obtain ⟨x, hx, rfl⟩ := List.mem_map.mp hu
    rw [graphOf_deps hn hd hx] at hdep
    obtain ⟨z, hz⟩ := Option.isSome_iff_exists.mp (hd x hx d hdep)
    obtain ⟨hmem, rfl⟩ := T.uop?_mem hz
    obtain ⟨i, t, hi, ht, he⟩ := hobserved x hx
    obtain ⟨-, tz, -, htz, -⟩ := hobserved z hmem
    have hle : tz ≤ i := hrun.dependency x hx z.id hdep i tz hi htz
    rw [ht, htz]
    show tz + (c.uop x.id).latencyTicks ≤ t
    omega
  have hstarts : ∀ u ∈ (graphOf T hn hd).nodes, (c.uop u).latencyTicks ≤ ((c.uop u).completeTick).getD 0 := by
    intro u hu
    obtain ⟨x, hx, rfl⟩ := List.mem_map.mp hu
    obtain ⟨i, t, -, ht, he⟩ := hobserved x hx
    rw [ht]
    show (c.uop x.id).latencyTicks ≤ t
    omega
  rcases List.eq_nil_or_concat' xs with rfl | ⟨ys, x, rfl⟩
  · exact Nat.zero_le _
  have hchain := (chain_map hn hd hxs.inside).mpr hxs
  rw [List.map_append] at hchain
  have hbound := weight_le_of_starts hends hstarts hchain
  obtain ⟨i, t, -, ht, -⟩ := hobserved x (hxs.inside x (by simp))
  have hlast : t ≤ total := (hinv.uops.completed ht).choose_spec.2.2
  have htime : ((c.uop x.id).completeTick).getD 0 = t := by
    rw [ht]
    rfl
  calc chainTicks c (ys ++ [x])
      = weight (fun u => (c.uop u).latencyTicks) (ys.map (·.id) ++ [x.id]) := by
        simp [chainTicks, weight, Function.comp_def]
    _ ≤ ((c.uop x.id).completeTick).getD 0 := hbound
    _ = t := htime
    _ ≤ total := hlast

end Graph

/-- **The critical path of a run in order is the greatest chain, and no longer than the run.** -/
theorem criticalPath_exact {inOrder : Bool} {total : ℕ} {c : Core} (hT : validateBoundTrace T = .ok ())
    (hinv : c.Inv T inOrder total) (hrun : RunOrdered T inOrder c) : CriticalPathExact T c total := by
  obtain ⟨hfields, -, horder⟩ := validate_iff.mp hT
  have hn := hfields.uopIds
  have hd : ∀ x ∈ T.uops, ∀ d ∈ x.dependencies, (T.uop? d).isSome := fun x hx => (hfields.uops x hx).dependencies
  have hobserved : ∀ x ∈ T.uops, ∃ i t, (c.uop x.id).issueTick = some i ∧ (c.uop x.id).completeTick = some t ∧
      t = i + (c.uop x.id).latencyTicks := by
    intro x hx
    obtain ⟨_, _, i, t, -, -, hi, ht, -, -, he⟩ := hrun.uop x hx
    exact ⟨i, t, hi, ht, he⟩
  obtain ⟨f, hticks, hsettled, order, hperm, htop⟩ := criticalPath_settled hn hd horder c
  have hgreatest := hsettled.isGreatest hperm htop
  rw [chains_eq hn hd] at hgreatest
  have htotal : ((graphOf T hn hd).nodes.map f).foldl max 0 ≤ total := by
    obtain ⟨xs, hxs, hsum⟩ := hgreatest.1
    rw [← hsum]
    exact chain_le_total hn hd hinv hrun hobserved hxs
  -- dividing by the ticks of a cycle keeps the order
  have hmono : Monotone fun n : ℕ => (n : ℚ) / T.ticksPerCycle := fun m n h =>
    div_le_div_of_nonneg_right (Nat.cast_le.mpr h) (Nat.cast_nonneg _)
  have hcycles := hmono.map_isGreatest hgreatest
  have himage : {q | ∃ xs, DependencyChain T xs ∧ (chainTicks c xs : ℚ) / T.ticksPerCycle = q} =
      (fun n : ℕ => (n : ℚ) / T.ticksPerCycle) '' {n | ∃ xs, DependencyChain T xs ∧ chainTicks c xs = n} := by
    ext q
    constructor
    · rintro ⟨xs, hxs, rfl⟩
      exact ⟨_, ⟨xs, hxs, rfl⟩, rfl⟩
    · rintro ⟨_, ⟨xs, hxs, rfl⟩, rfl⟩
      exact ⟨xs, hxs, rfl⟩
  refine ⟨hobserved, ⟨_, hticks, hgreatest, htotal⟩, _, ok_map.mpr ⟨_, hticks, rfl⟩, ?_, hmono htotal⟩
  rw [himage]
  exact hcycles

/-- **The critical path of every completed run is exact**, in both engines. -/
theorem critical_path_exact (T : BoundTrace) (P : EngineProfile) (inOrder : Bool) (mode : CacheMode)
    (limit : Option Bool) :
    (∀ E s total, Zen4.init T P inOrder mode limit = .ok E → Zen4.run E = .ok (s, total) →
      CriticalPathExact E.trace s.toCore total) ∧
    (∀ expand E s total, Xsai.init T P inOrder mode limit expand = .ok E → Xsai.run E = .ok (s, total) →
      CriticalPathExact E.trace s.toCore total) := by
  constructor
  · intro E s total hE h
    obtain ⟨hinv, hrun, -⟩ := Zen4.run_ordered (Zen4.init_ok hE).1 h
    exact criticalPath_exact (Zen4.init_valid hE) hinv.core hrun
  · intro expand E s total hE h
    have hA := Xsai.init_ok hE
    obtain ⟨hinv, hrun, -⟩ := Xsai.run_ordered hA.wellFormed h
    exact criticalPath_exact hA.valid hinv hrun

theorem critical_path_exact_sample :
    (∃ E s t, Zen4.init Sample.kernelTrace Sample.kernelProfile false .cold none = .ok E ∧ Zen4.run E = .ok (s, t) ∧
      CriticalPathExact E.trace s.toCore t) ∧
    ∃ E s t, Xsai.init Sample.kernelTrace Sample.kernelProfile false .cold none false = .ok E ∧
      Xsai.run E = .ok (s, t) ∧ CriticalPathExact E.trace s.toCore t := by
  obtain ⟨E, s, t, hE, h, -⟩ := Sample.zen4_runs
  obtain ⟨E', s', t', hE', h', -⟩ := Sample.xsai_runs
  exact ⟨⟨E, s, t, hE, h, (critical_path_exact _ _ _ _ _).1 E s t hE h⟩,
    E', s', t', hE', h', (critical_path_exact _ _ _ _ _).2 false E' s' t' hE' h'⟩

end VectorSim
