/-
# The semantic view shows the run

Of a run that has ended, `build_semantic_view_model` builds the view of any window
without raising. Its nodes are the macro-ops of the window, their semantic uops and
their execution uops; a semantic uop has the execution uops that implement it, and
lasts from the first of their issues to the last of their completions. The execution
edges are the dependencies inside the window, with their reasons, and the semantic
edges are their images under the implementation and the chains inside the
instructions: so an edge between two instructions points forward in the program
(`SemanticView.Shown`).
-/
import VectorSim.EventSafety
import VectorSim.SemanticTraces
import VectorSim.SemanticView
import Mathlib.Data.List.ReduceOption

namespace VectorSim

open Checked Core

variable {T : BoundTrace} {inOrder : Bool}

/-- A uop runs between the dispatch and the retirement of its macro-op. -/
theorem Ended.span {c : Core} (h : Ended T inOrder c) {x : ExecutionUop} (hx : x ∈ T.uops) : ∃ d u i t r,
    (c.macro_ x.parentId).dispatchTick = some d ∧ (c.uop x.id).dispatchTick = some u ∧
      (c.uop x.id).issueTick = some i ∧ (c.uop x.id).completeTick = some t ∧
      (c.macro_ x.parentId).retireTick = some r ∧ d ≤ u ∧ u ≤ i ∧ i ≤ t ∧ t ≤ r := by
  obtain ⟨m, hm, -, hid, hlisted⟩ := h.wellFormed.mem_parent hx
  obtain ⟨u, ready, i, t, hu, -, hi, ht, hur, hri, hlatency⟩ := h.ordered.uop x hx
  obtain ⟨d, hle, hd⟩ := h.recorded.entered m hm x.id hlisted u hu
  obtain ⟨last, r, hlast, hr, hretire⟩ := h.ordered.macroRetire m hm
  obtain ⟨last', hlast', hall, -⟩ := h.ordered.macroComplete m hm
  obtain rfl : last' = last := Option.some.inj (hlast'.symm.trans hlast)
  obtain ⟨t', ht', htl⟩ := hall x.id hlisted
  obtain rfl : t' = t := Option.some.inj (ht'.symm.trans ht)
  rw [← hid]
  exact ⟨d, u, i, t', r, hd, hu, hi, ht, hr, hle, by omega, by omega, by omega⟩

namespace SemanticView

variable {W : Window} {s : Machine} {O : TextOrder}

/-! ### The window -/

theorem mem_macros {m : MacroOp} : m ∈ macros T W ↔ m ∈ T.macros ∧ W.start ≤ m.sequence ∧ m.sequence < W.stop T := by
  simp [macros]

theorem mem_executionUops {x : ExecutionUop} :
    x ∈ executionUops T W ↔ x ∈ T.uops ∧ ∃ m ∈ macros T W, m.id = x.parentId := by
  simp [executionUops]

theorem mem_executionOf {q : SemanticId} {x : ExecutionUop} :
    x ∈ executionOf T W q ↔ x ∈ executionUops T W ∧ q ∈ x.semanticIds := by
  simp only [executionOf, List.mem_flatMap, List.mem_map, List.mem_filter, decide_eq_true_eq]
  constructor
  · rintro ⟨y, hy, q', ⟨hq, rfl⟩, rfl⟩
    exact ⟨hy, hq⟩
  · rintro ⟨hx, hq⟩
    exact ⟨x, hx, q, ⟨hq, rfl⟩, rfl⟩

theorem mem_semanticDefinitions {i : Instruction} {q : SemanticId} :
    q ∈ i.semanticDefinitions.map (·.1) ↔ q.1 = i.id ∧ q.2 < i.semanticUops.length := by
  have hids : i.semanticDefinitions.map (·.1) = (List.range i.semanticUops.length).map fun k => (i.id, k) := by
    unfold Instruction.semanticDefinitions
    rw [List.map_map, List.range_eq_range']
    have hlength : i.semanticUops.length = i.semanticKinds.length := by simp [Instruction.semanticKinds]
    rw [hlength, ← List.zipIdx_map_snd 0 i.semanticKinds, List.map_map]
    rfl
  rw [hids, List.mem_map]
  obtain ⟨a, k⟩ := q
  simp only [List.mem_range, Prod.mk.injEq]
  constructor
  · rintro ⟨k', hk', rfl, rfl⟩
    exact ⟨rfl, hk'⟩
  · rintro ⟨rfl, hk⟩
    exact ⟨k, hk, rfl, rfl⟩

section Source

variable (hT : WellFormed T) (hP : Provenance T)

include hT hP

/-- The instructions of the source have ids of their own. -/
theorem sourceOf_eq {a : Id} {i : Instruction} : sourceOf T a = some i ↔ i ∈ T.source ∧ i.id = a := by
  have hn : (T.source.map (·.id)).Nodup := by
    rw [hP.source]
    exact hT.macroIds
  unfold sourceOf
  constructor
  · intro h
    exact ⟨List.mem_reverse.mp (List.mem_of_find?_eq_some h), by simpa using List.find?_some h⟩
  · rintro ⟨hi, rfl⟩
    cases hfind : T.source.reverse.find? (·.id = i.id) with
    | none =>
      have := List.find?_eq_none.mp hfind i (List.mem_reverse.mpr hi)
      simp at this
    | some j =>
      have hj := List.mem_reverse.mp (List.mem_of_find?_eq_some hfind)
      have hid : j.id = i.id := by simpa using List.find?_some hfind
      rw [List.inj_on_of_nodup_map hn hj hi hid]

theorem exists_source {m : MacroOp} (hm : m ∈ T.macros) : ∃ i ∈ T.source, i.id = m.id ∧ sourceOf T m.id = some i := by
  have hmem : m.id ∈ T.source.map (·.id) := by
    rw [hP.source]
    exact List.mem_map_of_mem hm
  obtain ⟨i, hi, hid⟩ := List.mem_map.mp hmem
  exact ⟨i, hi, hid, (sourceOf_eq hT hP).mpr ⟨hi, hid⟩⟩

omit hT in
/-- What implements a semantic uop of the window is in the window. -/
theorem executionOf_ne_nil {m : MacroOp} (hm : m ∈ macros T W) {i : Instruction} (hi : i ∈ T.source) (hid : i.id = m.id)
    {q : SemanticId} (hq : q ∈ i.semanticDefinitions.map (·.1)) : executionOf T W q ≠ [] := by
  obtain ⟨hqi, hlt⟩ := mem_semanticDefinitions.mp hq
  obtain ⟨x, hx, hmem⟩ := hP.implemented i hi q.2 hlt
  have hqe : (i.id, q.2) = q := Prod.ext hqi.symm rfl
  rw [hqe] at hmem
  have hparent : m.id = x.parentId := by
    rw [← ((hP.parents x hx).2 q hmem).1, hqi, hid]
  exact List.ne_nil_of_mem (mem_executionOf.mpr ⟨mem_executionUops.mpr ⟨hx, m, hm, hparent⟩, hmem⟩)

end Source

/-! ### Ticks -/

theorem minimumTick_spec {ticks : List (Option ℕ)} {t : ℕ} (h : some t ∈ ticks) :
    ∃ i, minimumTick ticks = some i ∧ some i ∈ ticks ∧ ∀ j, some j ∈ ticks → i ≤ j := by
  have hmem := List.reduceOption_mem_iff.mpr h
  obtain ⟨i, hi⟩ := Option.ne_none_iff_exists'.mp (mt List.min?_eq_none_iff.mp (List.ne_nil_of_mem hmem))
  obtain ⟨him, hle⟩ := List.min?_eq_some_iff.mp hi
  exact ⟨i, hi, List.reduceOption_mem_iff.mp him, fun j hj => hle j (List.reduceOption_mem_iff.mpr hj)⟩

theorem maximumTick_spec {ticks : List (Option ℕ)} {t : ℕ} (h : some t ∈ ticks) :
    ∃ i, maximumTick ticks = some i ∧ some i ∈ ticks ∧ ∀ j, some j ∈ ticks → j ≤ i := by
  have hmem := List.reduceOption_mem_iff.mpr h
  obtain ⟨i, hi⟩ := Option.ne_none_iff_exists'.mp (mt List.max?_eq_none_iff.mp (List.ne_nil_of_mem hmem))
  obtain ⟨him, hle⟩ := List.max?_eq_some_iff.mp hi
  exact ⟨i, hi, List.reduceOption_mem_iff.mp him, fun j hj => hle j (List.reduceOption_mem_iff.mpr hj)⟩

/-! ### Semantic nodes -/

/-- The time of a node is that of the uops that implement it: it starts with the first of them,
ends with the last, and lies between the dispatch and the retirement of the macro-op. -/
def Lasts (s : Machine) (m : Id) (uops : List Id) (t : Timing) : Prop :=
  ∃ d i c r, t = ⟨some d, some i, some c, some r⟩ ∧
    (s.macro_ m).dispatchTick = some d ∧ (s.macro_ m).retireTick = some r ∧ d ≤ i ∧ i ≤ c ∧ c ≤ r ∧
    (∃ u ∈ uops, (s.uop u).issueTick = some i) ∧ (∃ u ∈ uops, (s.uop u).completeTick = some c) ∧
    ∀ u ∈ uops, (∀ j ∈ (s.uop u).issueTick, i ≤ j) ∧ ∀ e ∈ (s.uop u).completeTick, e ≤ c

/-- What a semantic node says of its semantic uop. -/
structure NodeOf (T : BoundTrace) (W : Window) (s : Machine) (m : Id) (d : SemanticId × SemanticKind) (n : SemanticNode) :
    Prop where
  id : n.id = d.1
  parent : n.parentId = m
  kind : n.kind = d.2
  resource : n.abstractResource = d.2.abstractResource
  effects : n.effects = effectsOf d.2
  some_uop : n.executionUopIds ≠ []
  uops : ∀ u, u ∈ n.executionUopIds ↔ ∃ x ∈ executionUops T W, x.id = u ∧ d.1 ∈ x.semanticIds
  lasts : Lasts s m n.executionUopIds n.timing

theorem semanticNode_ok (h : Ended T inOrder s.toCore) (hP : Provenance T) {m : MacroOp} {d : SemanticId × SemanticKind}
    (hd : d.1.1 = m.id) (hne : executionOf T W d.1 ≠ []) :
    ∃ n, semanticNode T W s m d = .ok n ∧ NodeOf T W s m.id d n := by
  have hmem : ∀ x, x ∈ StableSort.sortBy (·.sequence) (executionOf T W d.1) ↔ x ∈ executionUops T W ∧ d.1 ∈ x.semanticIds :=
    fun x => (StableSort.mem_sortBy _).trans mem_executionOf
  have hnil : StableSort.sortBy (·.sequence) (executionOf T W d.1) ≠ [] := by
    obtain ⟨x, hx⟩ := List.exists_mem_of_ne_nil _ hne
    exact List.ne_nil_of_mem ((StableSort.mem_sortBy _).mpr hx)
  unfold semanticNode
  split
  · next he => exact absurd he hnil
  · next =>
    have hrun : ∀ x ∈ StableSort.sortBy (·.sequence) (executionOf T W d.1), ∃ a u i t r,
        (s.macro_ m.id).dispatchTick = some a ∧ (s.uop x.id).dispatchTick = some u ∧ (s.uop x.id).issueTick = some i ∧
          (s.uop x.id).completeTick = some t ∧ (s.macro_ m.id).retireTick = some r ∧ a ≤ u ∧ u ≤ i ∧ i ≤ t ∧ t ≤ r := by
      intro x hx
      obtain ⟨hx, hq⟩ := (hmem x).mp hx
      have hxm := (mem_executionUops.mp hx).1
      rw [show m.id = x.parentId by rw [← hd, ((hP.parents x hxm).2 _ hq).1]]
      exact h.span hxm
    refine ⟨_, rfl, rfl, rfl, rfl, rfl, rfl, by simpa using hnil, fun u => ?_, ?_⟩
    · simp only [List.mem_map, hmem]
      constructor
      · rintro ⟨x, ⟨hx, hq⟩, rfl⟩
        exact ⟨x, hx, rfl, hq⟩
      · rintro ⟨x, hx, rfl, hq⟩
        exact ⟨x, ⟨hx, hq⟩, rfl⟩
    · obtain ⟨x, hx⟩ := List.exists_mem_of_ne_nil _ hnil
      obtain ⟨a, u, i, t, r, ha, -, hi, ht, hr, hau, hui, hit, htr⟩ := hrun x hx
      obtain ⟨i₀, hmin, hi₀, hle⟩ := minimumTick_spec (hi ▸ List.mem_map_of_mem (f := fun x : ExecutionUop => (s.uop x.id).issueTick) hx)
      obtain ⟨c₀, hmax, hc₀, hge⟩ := maximumTick_spec (ht ▸ List.mem_map_of_mem (f := fun x : ExecutionUop => (s.uop x.id).completeTick) hx)
      have hi₀i := hle i (hi ▸ List.mem_map_of_mem (f := fun x : ExecutionUop => (s.uop x.id).issueTick) hx)
      have htc₀ := hge t (ht ▸ List.mem_map_of_mem (f := fun x : ExecutionUop => (s.uop x.id).completeTick) hx)
      obtain ⟨y, hy, hyi⟩ := List.mem_map.mp hi₀
      obtain ⟨z, hz, hzc⟩ := List.mem_map.mp hc₀
      have hfirst : a ≤ i₀ := by
        obtain ⟨a', u', i', -, -, ha', -, hi', -, -, hau', hui', -⟩ := hrun y hy
        obtain rfl : a' = a := Option.some.inj (ha'.symm.trans ha)
        obtain rfl : i' = i₀ := Option.some.inj (hi'.symm.trans hyi)
        omega
      have hlast : c₀ ≤ r := by
        obtain ⟨-, -, -, t', r', -, -, -, ht', hr', -, -, -, htr'⟩ := hrun z hz
        obtain rfl : r' = r := Option.some.inj (hr'.symm.trans hr)
        obtain rfl : t' = c₀ := Option.some.inj (ht'.symm.trans hzc)
        exact htr'
      refine ⟨a, i₀, c₀, r, by rw [ha, hr, hmin, hmax], ha, hr, hfirst, by omega, hlast,
        ⟨y.id, List.mem_map_of_mem hy, hyi⟩, ⟨z.id, List.mem_map_of_mem hz, hzc⟩, fun v hv => ?_⟩
      obtain ⟨w, hw, rfl⟩ := List.mem_map.mp hv
      refine ⟨fun j hj => hle j ?_, fun e he => hge e ?_⟩
      · rw [← Option.mem_def.mp hj]
        exact List.mem_map_of_mem (f := fun x : ExecutionUop => (s.uop x.id).issueTick) hw
      · rw [← Option.mem_def.mp he]
        exact List.mem_map_of_mem (f := fun x : ExecutionUop => (s.uop x.id).completeTick) hw

/-! ### Edges -/

/-- What makes an execution edge of the window. -/
def ExecutionEdge (T : BoundTrace) (W : Window) (e : Edge Id) : Prop :=
  ∃ p ∈ executionUops T W, ∃ c ∈ executionUops T W, e.source = p.id ∧ e.target = c.id ∧
    ((p.id ∈ c.dependencies ∧ ∃ i, sourceOf T c.parentId = some i ∧ e.kind = dependencyKind p.parentId c.parentId i) ∨
      c.issueAfterUop = some p.id ∧ e.kind = .partOrder)

/-- What makes a semantic edge of the window: a dependency between what implements its ends, or the
chain of its instruction. -/
def SemanticEdge (T : BoundTrace) (W : Window) (e : Edge SemanticId) : Prop :=
  (e.source ≠ e.target ∧ ∃ p ∈ executionUops T W, ∃ c ∈ executionUops T W, e.source ∈ p.semanticIds ∧
    e.target ∈ c.semanticIds ∧ p.id ∈ c.dependencies ∧
      ∃ i, sourceOf T c.parentId = some i ∧ e.kind = dependencyKind p.parentId c.parentId i) ∨
  ((∃ m ∈ macros T W, ∃ i ∈ T.source, i.id = m.id ∧ e.target ∈ i.semanticDefinitions.map (·.1)) ∧
    0 < e.target.2 ∧ e.source = (e.target.1, e.target.2 - 1) ∧ e.kind = .internal)

/-- What an execution uop of the window waits for in the window. -/
structure Waits (T : BoundTrace) (W : Window) (x : ExecutionUop) (ps : List (ExecutionUop × DependencyKind)) : Prop where
  edges : ∀ p k, (p, k) ∈ ps ↔ p ∈ executionUops T W ∧ p.id ∈ x.dependencies ∧
    ∃ i, sourceOf T x.parentId = some i ∧ k = dependencyKind p.parentId x.parentId i

theorem find_executionUops (hT : WellFormed T) {u : Id} {p : ExecutionUop} :
    (executionUops T W).find? (·.id = u) = some p ↔ p ∈ executionUops T W ∧ p.id = u := by
  constructor
  · intro h
    exact ⟨List.mem_of_find?_eq_some h, by simpa using List.find?_some h⟩
  · rintro ⟨hp, rfl⟩
    cases hfind : (executionUops T W).find? (·.id = p.id) with
    | none =>
      have := List.find?_eq_none.mp hfind p hp
      simp at this
    | some q =>
      have hid : q.id = p.id := by simpa using List.find?_some hfind
      have hq := (mem_executionUops.mp (List.mem_of_find?_eq_some hfind)).1
      rw [List.inj_on_of_nodup_map hT.uopIds hq (mem_executionUops.mp hp).1 hid]

theorem producersOf_ok (hT : WellFormed T) (hP : Provenance T) {x : ExecutionUop} (hx : x ∈ executionUops T W) :
    ∃ ps, producersOf T W O x = .ok ps ∧ Waits T W x ps := by
  obtain ⟨hxm, m, hm, hid⟩ := mem_executionUops.mp hx
  obtain ⟨i, -, -, hi⟩ := exists_source hT hP (mem_macros.mp hm).1
  rw [hid] at hi
  unfold producersOf
  rw [hi]
  refine ⟨_, rfl, ⟨fun p k => ?_⟩⟩
  simp only [List.mem_map, List.mem_filterMap, List.mem_mergeSort, find_executionUops hT]
  constructor
  · rintro ⟨q, ⟨d, hd, hq, rfl⟩, he⟩
    cases he
    exact ⟨hq, hd, i, hi, rfl⟩
  · rintro ⟨hp, hd, i', hi', rfl⟩
    rw [hi, Option.some.injEq] at hi'
    exact ⟨p, ⟨p.id, hd, hp, rfl⟩, by rw [hi']⟩

theorem mem_executionEdgesInto {x : ExecutionUop} {ps : List (ExecutionUop × DependencyKind)}
    (h : Waits T W x ps) {e : Edge Id} : e ∈ executionEdgesInto T W (x, ps) ↔
      e.target = x.id ∧ ∃ p ∈ executionUops T W, e.source = p.id ∧
        ((p.id ∈ x.dependencies ∧ ∃ i, sourceOf T x.parentId = some i ∧ e.kind = dependencyKind p.parentId x.parentId i) ∨
          x.issueAfterUop = some p.id ∧ e.kind = .partOrder) := by
  have hpart : e ∈ partEdge T W x ↔ e.target = x.id ∧ ∃ p ∈ executionUops T W, e.source = p.id ∧
      x.issueAfterUop = some p.id ∧ e.kind = .partOrder := by
    unfold partEdge
    cases hafter : x.issueAfterUop with
    | none => simp
    | some u =>
      obtain ⟨source, target, kind⟩ := e
      by_cases hu : u ∈ (executionUops T W).map (·.id)
      · obtain ⟨p, hp, rfl⟩ := List.mem_map.mp hu
        simp only [hu, if_true, List.mem_singleton, Edge.mk.injEq]
        constructor
        · rintro ⟨rfl, rfl, rfl⟩
          exact ⟨rfl, p, hp, rfl, rfl, rfl⟩
        · rintro ⟨rfl, q, -, rfl, hq, rfl⟩
          exact ⟨(Option.some.inj hq).symm, rfl, rfl⟩
      · simp only [hu, if_false, List.not_mem_nil, false_iff]
        rintro ⟨-, p, hp, -, hq, -⟩
        exact hu (List.mem_map.mpr ⟨p, hp, (Option.some.inj hq).symm⟩)
  unfold executionEdgesInto
  rw [List.mem_append, hpart, List.mem_map]
  constructor
  · rintro (⟨⟨p, k⟩, hp, rfl⟩ | ⟨ht, p, hp, hs, hafter⟩)
    · obtain ⟨hpm, hd, hi⟩ := (h.edges p k).mp hp
      exact ⟨rfl, p, hpm, rfl, .inl ⟨hd, hi⟩⟩
    · exact ⟨ht, p, hp, hs, .inr hafter⟩
  · rintro ⟨ht, p, hp, hs, ⟨hd, hi⟩ | hafter⟩
    · refine .inl ⟨(p, e.kind), (h.edges p e.kind).mpr ⟨hp, hd, hi⟩, ?_⟩
      rw [← hs, ← ht]
    · exact .inr ⟨ht, p, hp, hs, hafter⟩

theorem mem_semanticEdgesInto {x : ExecutionUop} {ps : List (ExecutionUop × DependencyKind)} (h : Waits T W x ps)
    {e : Edge SemanticId} : e ∈ semanticEdgesInto (x, ps) ↔ e.source ≠ e.target ∧ ∃ p ∈ executionUops T W,
      e.source ∈ p.semanticIds ∧ e.target ∈ x.semanticIds ∧ p.id ∈ x.dependencies ∧
        ∃ i, sourceOf T x.parentId = some i ∧ e.kind = dependencyKind p.parentId x.parentId i := by
  unfold semanticEdgesInto
  simp only [List.mem_flatMap, List.mem_filterMap]
  constructor
  · rintro ⟨⟨p, k⟩, hp, ⟨a, b⟩, hab, he⟩
    obtain ⟨ha, hb⟩ := List.pair_mem_product.mp hab
    obtain ⟨hpm, hd, hi⟩ := (h.edges p k).mp hp
    split at he
    · cases he
    · next hne =>
      cases he
      exact ⟨hne, p, hpm, ha, hb, hd, hi⟩
  · rintro ⟨hne, p, hp, ha, hb, hd, hi⟩
    refine ⟨(p, e.kind), (h.edges p e.kind).mpr ⟨hp, hd, hi⟩, (e.source, e.target), List.pair_mem_product.mpr ⟨ha, hb⟩, ?_⟩
    rw [if_neg hne]

theorem mem_internalEdges {nodes : List SemanticNode} {e : Edge SemanticId} : e ∈ internalEdges nodes ↔
    (∃ n ∈ nodes, n.id = e.target) ∧ 0 < e.target.2 ∧ e.source = (e.target.1, e.target.2 - 1) ∧ e.kind = .internal := by
  obtain ⟨source, target, kind⟩ := e
  unfold internalEdges dependsOnLocal
  simp only [List.mem_flatMap, List.mem_filterMap]
  constructor
  · rintro ⟨n, hn, k, hk, he⟩
    split at hk
    · cases hk
    · next hpos =>
      obtain rfl := List.mem_singleton.mp hk
      split at he
      · cases he
      · cases he
        exact ⟨⟨n, hn, rfl⟩, by omega, rfl, rfl⟩
  · rintro ⟨⟨n, hn, rfl⟩, hpos, rfl, rfl⟩
    refine ⟨n, hn, n.id.2 - 1, ?_, ?_⟩
    · rw [if_neg (by omega)]
      exact List.mem_singleton_self _
    · rw [if_neg]
      intro he
      have := congrArg Prod.snd he
      dsimp only at this
      omega

/-! ### The view -/

/-- What the view of a window says of a run that has ended. -/
structure Shown (T : BoundTrace) (W : Window) (s : Machine) (V : View) : Prop where
  instructions : V.instructions.map (·.op) = macros T W
  /-- The semantic uops of the window. -/
  semantic : ∀ q, q ∈ V.semanticUops.map (·.id) ↔
    ∃ m ∈ macros T W, ∃ i ∈ T.source, i.id = m.id ∧ q.1 = i.id ∧ q.2 < i.semanticUops.length
  numbered : V.semanticUops.map (·.sequence) = List.range V.semanticUops.length
  execution : V.executionUops.map (·.uop) = executionUops T W
  /-- A semantic uop has the execution uops that implement it, and their time. -/
  implemented : ∀ n ∈ V.semanticUops, n.executionUopIds ≠ [] ∧
    (∀ u, u ∈ n.executionUopIds ↔ ∃ x ∈ executionUops T W, x.id = u ∧ n.id ∈ x.semanticIds) ∧
    n.parentId = n.id.1 ∧ Lasts s n.parentId n.executionUopIds n.timing
  /-- An execution uop is under one of them. -/
  parent : ∀ x ∈ V.executionUops, ∃ n ∈ V.semanticUops, x.parentId = some n.id ∧ x.uop.id ∈ n.executionUopIds
  executionEdges : ∀ e, e ∈ V.executionEdges ↔ ExecutionEdge T W e
  semanticEdges : ∀ e, e ∈ V.semanticEdges ↔ SemanticEdge T W e
  dependencyIds : ∀ n ∈ V.semanticUops, ∀ q, q ∈ n.dependencyIds ↔ ∃ e ∈ V.semanticEdges, e.source = q ∧ e.target = n.id
  /-- The edges stay in the view. -/
  closed : ∀ e ∈ V.semanticEdges, e.source ∈ V.semanticUops.map (·.id) ∧ e.target ∈ V.semanticUops.map (·.id)
  /-- An edge is internal just where its ends are of one instruction; other edges point forward in
  the program, to an instruction that names where they come from. -/
  forward : ∀ e ∈ V.semanticEdges, e.source.1 = e.target.1 ∧ e.kind = .internal ∨
    Precedes T e.source.1 e.target.1 ∧ ∃ i ∈ T.source, i.id = e.target.1 ∧ e.source.1 ∈ i.producers ∧
      (e.kind = .memory ∧ e.source.1 ∈ i.memoryDependencies ∨
        e.kind = .flags ∧ i.flagsDependency = some e.source.1 ∨
        e.kind = .register ∧ e.source.1 ∉ i.memoryDependencies ∧ i.flagsDependency ≠ some e.source.1)
  /-- What a uop waits for is complete when it issues. -/
  waited : ∀ e ∈ V.executionEdges, e.kind ≠ .partOrder → ∃ t i, (s.uop e.source).completeTick = some t ∧
    (s.uop e.target).issueTick = some i ∧ t ≤ i

/-- The nodes of a macro-op. -/
structure NodesOf (T : BoundTrace) (W : Window) (s : Machine) (m : MacroOp) (r : InstructionNode × List SemanticNode) :
    Prop where
  op : r.1.op = m
  semantic : ∃ i ∈ T.source, i.id = m.id ∧ List.Forall₂ (NodeOf T W s m.id) i.semanticDefinitions r.2

theorem macroNodes_ok (h : Ended T inOrder s.toCore) (hP : Provenance T) {m : MacroOp} (hm : m ∈ macros T W) :
    ∃ r, macroNodes T W s m = .ok r ∧ NodesOf T W s m r := by
  have hmem := (mem_macros.mp hm).1
  obtain ⟨i, hi, hid, hsource⟩ := exists_source h.wellFormed hP hmem
  obtain ⟨uops, huops, -⟩ := exists_mapM (f := fun u => valueOf (T.uop? u)) (R := fun _ _ => True) fun u hu => by
    obtain ⟨x, hx, -⟩ := h.wellFormed.owned m hmem u hu
    exact ⟨x, by rw [hx]; rfl, trivial⟩
  obtain ⟨nodes, hnodes, hall⟩ := exists_mapM (f := semanticNode T W s m) (R := NodeOf T W s m.id)
    (l := i.semanticDefinitions) fun d hd => by
      have hd := List.mem_map_of_mem (f := (·.1)) hd
      refine semanticNode_ok h hP ((mem_semanticDefinitions.mp hd).1.trans hid) ?_
      exact executionOf_ne_nil hP hm hi hid hd
  refine ⟨(instructionNode s m i uops, nodes), ?_, rfl, i, hi, hid, hall⟩
  unfold macroNodes
  rw [hsource]
  exact ok_bind.mpr ⟨i, rfl, ok_bind.mpr ⟨uops, huops, ok_bind.mpr ⟨nodes, hnodes, rfl⟩⟩⟩

/-- The reason for an edge between two instructions is one that the consumer has. -/
theorem kind_of_ne {p c : Id} {i : Instruction} (hne : p ≠ c) :
    dependencyKind p c i = .memory ∧ p ∈ i.memoryDependencies ∨
      dependencyKind p c i = .flags ∧ i.flagsDependency = some p ∨
      dependencyKind p c i = .register ∧ p ∉ i.memoryDependencies ∧ i.flagsDependency ≠ some p := by
  unfold dependencyKind
  rw [if_neg hne]
  split
  · next hm => exact .inl ⟨rfl, hm⟩
  · next hm =>
    split
    · next hf => exact .inr (.inl ⟨rfl, hf⟩)
    · next hf => exact .inr (.inr ⟨rfl, hm, hf⟩)

/-- Semantic edges point forward. -/
theorem SemanticEdge.forward (hT : WellFormed T) (hP : Provenance T) {e : Edge SemanticId} (h : SemanticEdge T W e) :
    e.source.1 = e.target.1 ∧ e.kind = .internal ∨
      Precedes T e.source.1 e.target.1 ∧ ∃ i ∈ T.source, i.id = e.target.1 ∧ e.source.1 ∈ i.producers ∧
        (e.kind = .memory ∧ e.source.1 ∈ i.memoryDependencies ∨
          e.kind = .flags ∧ i.flagsDependency = some e.source.1 ∨
          e.kind = .register ∧ e.source.1 ∉ i.memoryDependencies ∧ i.flagsDependency ≠ some e.source.1) := by
  rcases h with ⟨-, p, hp, c, hc, hs, ht, hd, i, hi, hkind⟩ | ⟨-, -, hs, hk⟩
  · obtain ⟨hpm, -⟩ := mem_executionUops.mp hp
    obtain ⟨hcm, -⟩ := mem_executionUops.mp hc
    rw [((hP.parents p hpm).2 _ hs).1, ((hP.parents c hcm).2 _ ht).1, hkind]
    by_cases hsame : p.parentId = c.parentId
    · refine .inl ⟨hsame, ?_⟩
      unfold dependencyKind
      rw [if_pos hsame]
    · obtain ⟨y, hy, hid, hwhy⟩ := hP.dependencies c hcm p.id hd
      obtain rfl : y = p := List.inj_on_of_nodup_map hT.uopIds hy hpm hid
      obtain ⟨hprecedes, i', hi', hid', hproducer⟩ := hwhy.resolve_left hsame
      obtain rfl : i' = i := Option.some.inj (((sourceOf_eq hT hP).mpr ⟨hi', hid'⟩).symm.trans hi)
      exact .inr ⟨hprecedes, i', hi', hid', hproducer, kind_of_ne hsame⟩
  · exact .inl ⟨by rw [hs], hk⟩

/-- A uop of the window implements semantic uops of the window. -/
theorem semantic_of_mem (hP : Provenance T) {x : ExecutionUop} (hx : x ∈ executionUops T W) {q : SemanticId}
    (hq : q ∈ x.semanticIds) :
    ∃ m ∈ macros T W, ∃ i ∈ T.source, i.id = m.id ∧ q.1 = i.id ∧ q.2 < i.semanticUops.length := by
  obtain ⟨hxm, m, hm, hid⟩ := mem_executionUops.mp hx
  obtain ⟨hparent, i, hi, hii, hlt⟩ := (hP.parents x hxm).2 q hq
  exact ⟨m, hm, i, hi, hii.trans hid.symm, hparent.trans hii.symm, hlt⟩

/-- **The view of a window is built, and shows it.** -/
theorem build_shown (h : Ended T inOrder s.toCore) (hP : Provenance T) (W : Window) (O : TextOrder) :
    ∃ V, buildSemanticViewModel T W s O = .ok V ∧ Shown T W s V := by
  have hT := h.wellFormed
  obtain ⟨nodes, hnodes, hall⟩ := exists_mapM fun m hm => macroNodes_ok (W := W) h hP hm
  obtain ⟨waits, hwaits, hwait⟩ := exists_mapM (f := fun x => (producersOf T W O x).map fun ps => (x, ps))
    (R := fun x w => w.1 = x ∧ Waits T W x w.2) (l := executionUops T W) fun x hx => by
      obtain ⟨ps, hps, hw⟩ := producersOf_ok (O := O) hT hP hx
      exact ⟨(x, ps), by rw [hps]; rfl, rfl, hw⟩
  have hnode : ∀ n ∈ nodes.flatMap (·.2), ∃ m ∈ macros T W, ∃ i ∈ T.source, i.id = m.id ∧
      ∃ d ∈ i.semanticDefinitions, NodeOf T W s m.id d n := by
    intro n hn
    obtain ⟨r, hr, hn⟩ := List.mem_flatMap.mp hn
    obtain ⟨m, hm, -, i, hi, hid, hrow⟩ := forall₂_right hall hr
    obtain ⟨d, hd, hof⟩ := forall₂_right hrow hn
    exact ⟨m, hm, i, hi, hid, d, hd, hof⟩
  have hids : ∀ q, (∃ n ∈ nodes.flatMap (·.2), n.id = q) ↔
      ∃ m ∈ macros T W, ∃ i ∈ T.source, i.id = m.id ∧ q.1 = i.id ∧ q.2 < i.semanticUops.length := by
    intro q
    constructor
    · rintro ⟨n, hn, rfl⟩
      obtain ⟨m, hm, i, hi, hid, d, hd, hof⟩ := hnode n hn
      rw [hof.id]
      exact ⟨m, hm, i, hi, hid, mem_semanticDefinitions.mp (List.mem_map_of_mem hd)⟩
    · rintro ⟨m, hm, i, hi, hid, hq⟩
      obtain ⟨d, hd, rfl⟩ := List.mem_map.mp (mem_semanticDefinitions.mpr hq)
      obtain ⟨r, hr, -, i', hi', hid', hrow⟩ := forall₂_left hall hm
      obtain rfl : i' = i := Option.some.inj
        (((sourceOf_eq hT hP).mpr ⟨hi', hid'⟩).symm.trans ((sourceOf_eq hT hP).mpr ⟨hi, hid⟩))
      obtain ⟨n, hn, hof⟩ := forall₂_left hrow hd
      exact ⟨n, List.mem_flatMap.mpr ⟨r, hr, hn⟩, hof.id⟩
  have hexec : ∀ e, e ∈ waits.flatMap (executionEdgesInto T W) ↔ ExecutionEdge T W e := by
    intro e
    rw [List.mem_flatMap]
    constructor
    · rintro ⟨⟨x, ps⟩, hw, he⟩
      obtain ⟨y, hy, rfl, hps⟩ := forall₂_right hwait hw
      obtain ⟨ht, p, hp, hs, hwhy⟩ := (mem_executionEdgesInto hps).mp he
      exact ⟨p, hp, x, hy, hs, ht, hwhy⟩
    · rintro ⟨p, hp, c, hc, hs, ht, hwhy⟩
      obtain ⟨⟨x, ps⟩, hw, rfl, hps⟩ := forall₂_left hwait hc
      exact ⟨(x, ps), hw, (mem_executionEdgesInto hps).mpr ⟨ht, p, hp, hs, hwhy⟩⟩
  have hsem : ∀ e, e ∈ waits.flatMap semanticEdgesInto ++ internalEdges (nodes.flatMap (·.2)) ↔ SemanticEdge T W e := by
    intro e
    rw [List.mem_append, List.mem_flatMap, mem_internalEdges, hids]
    simp only [SemanticEdge, mem_semanticDefinitions]
    refine or_congr ?_ Iff.rfl
    constructor
    · rintro ⟨⟨x, ps⟩, hw, he⟩
      obtain ⟨y, hy, rfl, hps⟩ := forall₂_right hwait hw
      obtain ⟨hne, p, hp, hs, ht, hwhy⟩ := (mem_semanticEdgesInto hps).mp he
      exact ⟨hne, p, hp, x, hy, hs, ht, hwhy⟩
    · rintro ⟨hne, p, hp, c, hc, hs, ht, hwhy⟩
      obtain ⟨⟨x, ps⟩, hw, rfl, hps⟩ := forall₂_left hwait hc
      exact ⟨(x, ps), hw, (mem_semanticEdgesInto hps).mpr ⟨hne, p, hp, hs, ht, hwhy⟩⟩
  refine ⟨viewOf T W s O nodes waits, ok_bind.mpr ⟨(), check_ok.mpr ?_, ok_bind.mpr ⟨(), forM_ok.mpr fun x hx =>
    check_ok.mpr ?_, ok_bind.mpr ⟨nodes, hnodes, ok_bind.mpr ⟨waits, hwaits, rfl⟩⟩⟩⟩, ?_⟩
  · rw [List.filter_eq_nil_iff]
    intro m hm
    obtain ⟨i, -, -, hi⟩ := exists_source hT hP (mem_macros.mp hm).1
    simp [hi]
  · exact (hP.parents x (mem_executionUops.mp hx).1).1
  have hmapped : (viewOf T W s O nodes waits).semanticUops.map (·.id) = (nodes.flatMap (·.2)).map (·.id) := by
    rw [← List.zipIdx_map_fst 0 (nodes.flatMap (·.2)), List.map_map]
    show ((nodes.flatMap (·.2)).zipIdx.map _).map _ = _
    rw [List.map_map]
    rfl
  have hmem : ∀ q, q ∈ (viewOf T W s O nodes waits).semanticUops.map (·.id) ↔
      ∃ m ∈ macros T W, ∃ i ∈ T.source, i.id = m.id ∧ q.1 = i.id ∧ q.2 < i.semanticUops.length := by
    intro q
    rw [hmapped, ← hids, List.mem_map]
  have hnumbered : ∀ n ∈ (viewOf T W s O nodes waits).semanticUops, ∃ n₀ ∈ nodes.flatMap (·.2), ∃ k,
      n = numberedNode O (orderedUnique (waits.flatMap semanticEdgesInto ++ internalEdges (nodes.flatMap (·.2)))) (n₀, k) := by
    intro n hn
    obtain ⟨⟨n₀, k⟩, hk, rfl⟩ := List.mem_map.mp hn
    exact ⟨n₀, List.fst_mem_of_mem_zipIdx hk, k, rfl⟩
  have hexecEdges : ∀ e, e ∈ (viewOf T W s O nodes waits).executionEdges ↔ ExecutionEdge T W e := by
    intro e
    rw [← hexec]
    simp [viewOf]
  have hsemEdges : ∀ e, e ∈ (viewOf T W s O nodes waits).semanticEdges ↔ SemanticEdge T W e := by
    intro e
    rw [← hsem]
    simp [viewOf]
  have himplemented : ∀ n ∈ (viewOf T W s O nodes waits).semanticUops, n.executionUopIds ≠ [] ∧
      (∀ u, u ∈ n.executionUopIds ↔ ∃ x ∈ executionUops T W, x.id = u ∧ n.id ∈ x.semanticIds) ∧
      n.parentId = n.id.1 ∧ Lasts s n.parentId n.executionUopIds n.timing := by
    intro n hn
    obtain ⟨n₀, hn₀, k, rfl⟩ := hnumbered n hn
    obtain ⟨m, hm, i, hi, hid, d, hd, hof⟩ := hnode n₀ hn₀
    refine ⟨hof.some_uop, fun u => ?_, ?_, ?_⟩
    · show u ∈ n₀.executionUopIds ↔ ∃ x ∈ executionUops T W, x.id = u ∧ n₀.id ∈ x.semanticIds
      rw [hof.id]
      exact hof.uops u
    · show n₀.parentId = n₀.id.1
      rw [hof.id, hof.parent, (mem_semanticDefinitions.mp (List.mem_map_of_mem hd)).1, hid]
    · show Lasts s n₀.parentId n₀.executionUopIds n₀.timing
      rw [hof.parent]
      exact hof.lasts
  exact {
    instructions := by
      have hops : List.Forall₂ (· = ·) (macros T W) (nodes.map (·.1.op)) := by
        rw [List.forall₂_map_right_iff]
        exact hall.imp fun m r hr => hr.op.symm
      rw [List.forall₂_eq_eq_eq] at hops
      show (nodes.map (·.1)).map (·.op) = macros T W
      rw [hops, List.map_map]
      rfl
    semantic := hmem
    numbered := by
      show ((nodes.flatMap (·.2)).zipIdx.map _).map _ = List.range ((nodes.flatMap (·.2)).zipIdx.map _).length
      rw [List.map_map, List.length_map, List.length_zipIdx, List.range_eq_range']
      exact List.zipIdx_map_snd 0 _
    execution := by
      show ((executionUops T W).map (executionNode s O)).map (·.uop) = executionUops T W
      rw [List.map_map]
      exact List.map_id _
    implemented := himplemented
    parent := by
      intro y hy
      obtain ⟨x, hx, rfl⟩ := List.mem_map.mp hy
      obtain ⟨q, rest, hq⟩ := List.exists_cons_of_ne_nil (hP.parents x (mem_executionUops.mp hx).1).1
      have hqx : q ∈ x.semanticIds := by rw [hq]; exact List.mem_cons_self
      obtain ⟨n, hn, rfl⟩ := List.mem_map.mp ((hmem q).mpr (semantic_of_mem hP hx hqx))
      refine ⟨n, hn, ?_, ((himplemented n hn).2.1 x.id).mpr ⟨x, hx, rfl, hqx⟩⟩
      show x.semanticIds.head? = some n.id
      rw [hq, List.head?_cons]
    executionEdges := hexecEdges
    semanticEdges := hsemEdges
    dependencyIds := by
      intro n hn q
      obtain ⟨n₀, hn₀, k, rfl⟩ := hnumbered n hn
      simp only [hsemEdges, ← hsem]
      rw [numberedNode, List.mem_mergeSort, List.mem_dedup, List.mem_map]
      refine exists_congr fun e => ?_
      rw [List.mem_filter, mem_orderedUnique, decide_eq_true_eq, and_right_comm, and_assoc]
    closed := by
      intro e he
      rw [hmem, hmem]
      rcases (hsemEdges e).mp he with ⟨-, p, hp, c, hc, hs, ht, -⟩ | ⟨⟨m, hm, i, hi, hid, ht⟩, hpos, hs, -⟩
      · exact ⟨semantic_of_mem hP hp hs, semantic_of_mem hP hc ht⟩
      · obtain ⟨hti, hlt⟩ := mem_semanticDefinitions.mp ht
        refine ⟨⟨m, hm, i, hi, hid, ?_, ?_⟩, m, hm, i, hi, hid, hti, hlt⟩
        · rw [hs]
          exact hti
        · rw [hs]
          show e.target.2 - 1 < _
          omega
    forward := fun e he => ((hsemEdges e).mp he).forward hT hP
    waited := by
      intro e he hkind
      obtain ⟨p, hp, c, hc, hs, ht, hwhy⟩ := (hexecEdges e).mp he
      obtain ⟨hd, -⟩ := hwhy.resolve_right fun h => hkind h.2
      obtain ⟨-, -, -, t, -, -, -, -, hpt, -⟩ := h.span (mem_executionUops.mp hp).1
      obtain ⟨-, -, i, -, -, -, -, hci, -⟩ := h.span (mem_executionUops.mp hc).1
      rw [hs, ht]
      exact ⟨t, i, hpt, hci, h.ordered.dependency c (mem_executionUops.mp hc).1 p.id hd i t hci hpt⟩ }

end SemanticView

/-- **The semantic view of every window of every run that has ended is built, and shows the run.** -/
theorem semantic_view_shown (B : Profile) (source : List Instruction) (T : BoundTrace) (hB : bind B source = .ok T)
    (P : EngineProfile) (inOrder : Bool) (mode : CacheMode) (limit : Option Bool) (W : SemanticView.Window)
    (O : SemanticView.TextOrder) :
    (∀ E s t, Zen4.init T P inOrder mode limit = .ok E → Zen4.run E = .ok (s, t) →
      ∃ V, SemanticView.buildSemanticViewModel E.trace W s O = .ok V ∧ SemanticView.Shown E.trace W s V) ∧
    ∀ expand E s t, Xsai.init T P inOrder mode limit expand = .ok E → Xsai.run E = .ok (s, t) →
      ∃ V, SemanticView.buildSemanticViewModel E.trace W s.toMachine O = .ok V ∧
        SemanticView.Shown E.trace W s.toMachine V := by
  have hP := bind_provenance hB
  constructor
  · intro E s t hE h
    obtain ⟨hT, htrace, -⟩ := Zen4.init_ok hE
    exact SemanticView.build_shown (Zen4.run_ended hT h) (htrace ▸ hP) W O
  · intro expand E s t hE h
    have hA := Xsai.init_ok hE
    exact SemanticView.build_shown (s := s.toMachine) (Xsai.run_ended hA.wellFormed h)
      (Xsai.schedulerTrace_provenance hP hA.scheduled) W O

namespace Sample

/-- A profile with one recipe, of one vector uop. -/
def adder : Profile := { profile with
  recipes := [("vadd:any", {
    decodedMacroOps := some 1
    retireMacroOps := some 1
    uops := [{ id := "add", kind := .vectorFp, latencyCycles := some 1, issueIntervalCycles := some 1,
               resourceOccupancyCycles := some 1, resourceChoices := ["alu"] }] })]
  resources := [("alu", { capacity := some 1 })]
  l1d := ⟨none, none, none⟩ }

/-- Two sums, the second of what the first writes. -/
def sums : List Instruction := [0, 1].map fun n => {
  id := n
  sequence := n
  mnemonic := "vadd"
  registerDependencies := if n = 0 then [] else [("v1", 0)]
  semanticUops := [{ kind := .vectorFpAdd }] }

theorem sums_bound : ∃ T, bind adder sums = .ok T := Checked.exists_ok (by decide +kernel)

theorem sums_run {T : BoundTrace} (hT : bind adder sums = .ok T) :
    (∃ E s t, Zen4.init T adder.toEngineProfile false .cold none = .ok E ∧ Zen4.run E = .ok (s, t)) ∧
    ∃ E s t, Xsai.init T adder.toEngineProfile false .cold none true = .ok E ∧ Xsai.run E = .ok (s, t) := by
  have hrun : ((bind adder sums).toOption.all fun T =>
      (((Zen4.init T adder.toEngineProfile false .cold none).bind fun E => (Zen4.run E).map fun r => (E, r)).toOption.isSome &&
        ((Xsai.init T adder.toEngineProfile false .cold none true).bind fun E =>
          (Xsai.run E).map fun r => (E, r)).toOption.isSome)) = true := by decide +kernel
  rw [hT] at hrun
  obtain ⟨hzen4, hxsai⟩ := Bool.and_eq_true_iff.mp hrun
  obtain ⟨⟨E, s, t⟩, h⟩ := Checked.exists_ok hzen4
  obtain ⟨⟨E', s', t'⟩, h'⟩ := Checked.exists_ok hxsai
  obtain ⟨E₀, hE, h⟩ := ok_bind.mp h
  obtain ⟨E₀', hE', h'⟩ := ok_bind.mp h'
  obtain ⟨r, hr, he⟩ := ok_map.mp h
  obtain ⟨r', hr', he'⟩ := ok_map.mp h'
  cases he
  cases he'
  exact ⟨⟨E, s, t, hE, hr⟩, E', s', t', hE', hr'⟩

end Sample

theorem semantic_view_shown_sample : ∃ T, bind Sample.adder Sample.sums = .ok T ∧
    (∃ E s t V, Zen4.init T Sample.adder.toEngineProfile false .cold none = .ok E ∧ Zen4.run E = .ok (s, t) ∧
      SemanticView.Shown E.trace {} s V) ∧
    ∃ E s t V, Xsai.init T Sample.adder.toEngineProfile false .cold none true = .ok E ∧ Xsai.run E = .ok (s, t) ∧
      SemanticView.Shown E.trace {} s.toMachine V := by
  obtain ⟨T, hT⟩ := Sample.sums_bound
  obtain ⟨⟨E, s, t, hE, h⟩, E', s', t', hE', h'⟩ := Sample.sums_run hT
  have hshown := semantic_view_shown Sample.adder Sample.sums T hT Sample.adder.toEngineProfile false .cold none {}
    ⟨fun a b => a ≤ b, fun a b => decide (a.1 ≤ b.1)⟩
  obtain ⟨V, -, hV⟩ := hshown.1 E s t hE h
  obtain ⟨V', -, hV'⟩ := hshown.2 true E' s' t' hE' h'
  exact ⟨T, hT, ⟨E, s, t, V, hE, h, hV⟩, E', s', t', V', hE', h', hV'⟩

end VectorSim
