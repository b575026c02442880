/-
# The pending groups

With the overlap limit enabled an engine lists the macro-ops of which a load
has issued and a dependent compute uop has not. The list is updated at each
issue: a load enters its macro-op, the last compute uop takes it off. A load
that issues after the last compute uop, and is none itself, enters the
macro-op again, and no issue is left to take it off.
-/
import VectorSim.GuardSafety

namespace VectorSim

open Core

variable (E : Setup)

/-- The load uops of the macro-op `m`. -/
def Setup.loads (m : Id) : List Id := ((E.trace.macro? m).map E.loadIds).getD []

/-- A load of the group of `m` has issued, and a compute uop of it has not. -/
def Outstanding (c : Core) (m : Id) : Prop :=
  ∃ compute ∈ E.group? m, (∃ u ∈ E.loads m, (c.uop u).issueTick.isSome) ∧
    ∃ u ∈ compute, (c.uop u).issueTick = none

/-- The uops in the order in which they have issued. -/
def issueOrder (c : Core) : List Id := (c.events.filter (·.kind = .issue)).map (·.id)

/-- A load of the group of `m`, itself none of its compute uops, issues after all of them. -/
def LateLoad (order : List Id) (m : Id) : Prop :=
  ∃ compute ∈ E.group? m, ∃ done x later, order = done ++ x :: later ∧
    x ∈ E.loads m ∧ x ∉ compute ∧ ∀ u ∈ compute, u ∈ done

/-- The pending groups are those a load of which awaits a compute uop. -/
def GroupsExact (s : Machine) : Prop :=
  ∀ m, m ∈ s.pendingGroups ↔ Outstanding E s.toCore m

/-- One uop depends on another, through any number of others. -/
def DependsOn : Id → Id → Prop := Relation.TransGen fun u v => u ∈ (E.uop v).dependencies

/-- A compute uop waits for each load of a group that is none itself. -/
def LoadsAwaited : Prop :=
  ∀ m, ∀ compute ∈ E.group? m, ∀ x ∈ E.loads m, x ∈ compute ∨ ∃ u ∈ compute, DependsOn E x u

/-- The pending groups of any state of a run. -/
structure GroupInv (s : Machine) : Prop where
  pending : ∀ m, m ∈ s.pendingGroups ↔ Outstanding E s.toCore m ∨ LateLoad E (issueOrder s.toCore) m
  nodup : s.pendingGroups.Nodup
  bounded : s.pendingGroups.length ≤ E.overlap.maxPendingGroups
  first : ∀ {done u later}, issueOrder s.toCore = done ++ u :: later → (E.uop u).dependencies ⊆ done

variable {E} {now : ℕ} {s s' : Machine}

/-! ### Loads and compute uops of a macro-op -/

theorem mem_loads (hT : WellFormed E.trace) {x : ExecutionUop} (hx : x ∈ E.trace.uops) {m : Id} :
    x.id ∈ E.loads m ↔ x.parentId = m ∧ x.kind = .loadData := by
  have huop : E.uop x.id = x := Setup.uop_eq hT hx
  constructor
  · intro h
    unfold Setup.loads at h
    cases hm : E.trace.macro? m with
    | none => simp [hm] at h
    | some k =>
      obtain ⟨hk, rfl⟩ := E.trace.macro?_mem hm
      simp only [hm, Option.map_some, Option.getD_some, Setup.loadIds, List.mem_filter, huop,
        decide_eq_true_eq] at h
      obtain ⟨y, hy, hp⟩ := hT.owned k hk _ h.1
      rw [hT.uop?_eq hx] at hy
      exact ⟨Option.some.inj hy ▸ hp, h.2⟩
  · rintro ⟨rfl, hkind⟩
    obtain ⟨k, -, hk, -, hu⟩ := hT.mem_parent hx
    simp [Setup.loads, hk, Setup.loadIds, hu, huop, hkind]

theorem group?_parent (hT : WellFormed E.trace) {x : ExecutionUop} (hx : x ∈ E.trace.uops) {m : Id}
    {compute : List Id} (h : compute ∈ E.group? m) (hu : x.id ∈ compute) : x.parentId = m := by
  obtain ⟨k, hk, hc⟩ := Option.bind_eq_some_iff.mp (Option.mem_def.mp h)
  obtain ⟨hkm, rfl⟩ := E.trace.macro?_mem hk
  split at hc
  · cases hc
  · cases hc
    obtain ⟨y, hy, hp⟩ := hT.owned k hkm _ (List.mem_filter.mp hu).1
    rw [hT.uop?_eq hx] at hy
    exact Option.some.inj hy ▸ hp

/-- `_update_memory_compute_groups_after_issue` leaves the other macro-ops alone. -/
theorem mem_updateGroups_other {c : Core} {x : ExecutionUop} {pending : List Id} {m : Id}
    (hm : m = x.parentId → E.group? m = none) : m ∈ E.updateGroups c x pending ↔ m ∈ pending := by
  unfold Setup.updateGroups
  split
  · exact Iff.rfl
  · split
    · exact Iff.rfl
    · next compute hg =>
      have hne : m ≠ x.parentId := by
        intro he
        rw [← he, hm he] at hg
        cases hg
      have hinsert : m ∈ (if x.kind = .loadData then pending.insert x.parentId else pending) ↔
          m ∈ pending := by
        split <;> simp [hne]
      dsimp only
      split
      · rw [List.mem_filter, hinsert]
        simp [hne]
      · exact hinsert

/-- Its own macro-op is pending if the uop is a load or it was, and the uop is not the last
compute uop. -/
theorem mem_updateGroups_self (hE : E.overlap.enabled = true) {c : Core} {x : ExecutionUop}
    {pending compute : List Id} (hg : E.group? x.parentId = some compute) :
    x.parentId ∈ E.updateGroups c x pending ↔ (x.kind = .loadData ∨ x.parentId ∈ pending) ∧
      ¬ (x.id ∈ compute ∧ ∀ u ∈ compute, (c.uop u).issueTick.isSome) := by
  have hinsert : x.parentId ∈ (if x.kind = .loadData then pending.insert x.parentId else pending) ↔
      x.kind = .loadData ∨ x.parentId ∈ pending := by
    split <;> simp_all
  unfold Setup.updateGroups
  rw [if_neg (by simp [hE]), hg]
  dsimp only
  split
  · next hall =>
    rw [List.mem_filter]
    simp only [ne_eq, not_true_eq_false, decide_false, Bool.false_eq_true, and_false, false_iff]
    exact fun h => h.2 hall
  · next hall => rw [hinsert, and_iff_left hall]

/-- The list stays a set. -/
theorem nodup_updateGroups {c : Core} {x : ExecutionUop} {pending : List Id} (h : pending.Nodup) :
    (E.updateGroups c x pending).Nodup := by
  have hinsert : (if x.kind = .loadData then pending.insert x.parentId else pending).Nodup := by
    split
    · exact h.insert
    · exact h
  unfold Setup.updateGroups
  split
  · exact h
  · split
    · exact h
    · dsimp only
      split
      · exact hinsert.filter _
      · exact hinsert

/-- A load that the overlap check lets pass finds its macro-op listed or room for it. -/
theorem length_updateGroups (hE : E.overlap.enabled = true) {c : Core} {x : ExecutionUop}
    (free : E.overlapBlocker s x = none) (h : s.pendingGroups.length ≤ E.overlap.maxPendingGroups) :
    (E.updateGroups c x s.pendingGroups).length ≤ E.overlap.maxPendingGroups := by
  unfold Setup.updateGroups
  rw [if_neg (by simp [hE])]
  split
  · exact h
  · next compute hg =>
    have hinsert : (if x.kind = .loadData then s.pendingGroups.insert x.parentId else s.pendingGroups).length ≤
        E.overlap.maxPendingGroups := by
      split
      · next hk =>
        by_cases hp : x.parentId ∈ s.pendingGroups
        · rw [List.insert_of_mem hp]; exact h
        · rw [List.length_insert_of_not_mem hp]
          have hroom : ¬ E.overlap.maxPendingGroups ≤ s.pendingGroups.length := by
            intro hfull
            have hblocked : E.overlapBlocked s x = true := by
              simp [Setup.overlapBlocked, hE, hk, hg, hp, hfull]
            rw [Setup.overlapBlocker, if_pos hblocked] at free
            cases free
          omega
      · exact h
    dsimp only
    split
    · exact (List.length_filter_le _ _).trans hinsert
    · exact hinsert

/-! ### The order of the issues -/

theorem mem_issueOrder {c : Core} (h : LogInv E.trace c) {u : Id} :
    u ∈ issueOrder c ↔ (c.uop u).issueTick.isSome := by
  have hticks : u ∈ issueOrder c ↔ ticksOf .issue u c.events ≠ [] := by
    simp only [issueOrder, ticksOf, List.mem_map, List.mem_filter, decide_eq_true_eq, ne_eq,
      List.map_eq_nil_iff, List.filter_eq_nil_iff, not_forall, not_not, exists_prop]
    exact exists_congr fun e => and_assoc
  rw [hticks, h.issue u]
  cases (c.uop u).issueTick <;> simp

theorem issueOrder_append {c c' : Core} {l : List Event} (h : c'.events = c.events ++ l)
    (hl : ∀ e ∈ l, e.kind ≠ .issue) : issueOrder c' = issueOrder c := by
  have hnone : l.filter (·.kind = .issue) = [] := by
    rw [List.filter_eq_nil_iff]
    intro e he
    simp [hl e he]
  rw [issueOrder, h, List.filter_append, hnone, List.append_nil, issueOrder]

theorem issueOrder_issue (c : Core) (x : ExecutionUop) (now latency : ℕ) (inOrder : Bool) :
    issueOrder (c.issue x now latency inOrder) = issueOrder c ++ [x.id] := by
  simp [issueOrder, Core.issue]

theorem nodup_issueOrder {c : Core} (h : LogInv E.trace c) : (issueOrder c).Nodup := by
  rw [List.nodup_iff_count_le_one]
  intro u
  have hcount : (issueOrder c).count u = (ticksOf .issue u c.events).length := by
    rw [issueOrder, ticksOf, List.length_map, List.count, List.countP_map, List.countP_filter,
      List.countP_eq_length_filter]
    congr 1
    refine List.filter_congr fun e _ => ?_
    by_cases hu : e.id = u <;> by_cases hk : e.kind = .issue <;> simp [hu, hk]
  rw [hcount, h.issue u]
  cases (c.uop u).issueTick <;> simp

/-- What a uop depends on has issued before it. -/
theorem dependsOn_before {order : List Id}
    (first : ∀ {done u later}, order = done ++ u :: later → (E.uop u).dependencies ⊆ done) {d u : Id}
    (h : DependsOn E d u) : ∀ {done later}, order = done ++ u :: later → d ∈ done := by
  induction h with
  | single hd => exact fun he => first he hd
  | @tail b u _ hb ih =>
    intro done later he
    obtain ⟨before, after, hbefore⟩ := List.append_of_mem (first he hb)
    rw [hbefore, List.append_assoc, List.cons_append] at he
    rw [hbefore]
    exact List.mem_append_left _ (ih he)

/-- One more issue is late, or one before it was. -/
theorem lateLoad_snoc {order : List Id} {x m : Id} : LateLoad E (order ++ [x]) m ↔
    LateLoad E order m ∨
      ∃ compute ∈ E.group? m, x ∈ E.loads m ∧ x ∉ compute ∧ ∀ u ∈ compute, u ∈ order := by
  constructor
  · rintro ⟨compute, hg, done, y, later, he, hload, hy, hall⟩
    rcases List.eq_nil_or_concat later with rfl | ⟨later, z, rfl⟩
    · obtain ⟨rfl, hxy⟩ := List.append_inj' he rfl
      obtain rfl : x = y := by simpa using hxy
      exact .inr ⟨compute, hg, hload, hy, hall⟩
    · rw [List.concat_eq_append, ← List.cons_append, ← List.append_assoc] at he
      obtain ⟨rfl, -⟩ := List.append_inj' he rfl
      exact .inl ⟨compute, hg, done, y, later, rfl, hload, hy, hall⟩
  · rintro (⟨compute, hg, done, y, later, rfl, h⟩ | ⟨compute, hg, h⟩)
    · exact ⟨compute, hg, done, y, later ++ [x], by simp, h⟩
    · exact ⟨compute, hg, order, x, [], rfl, h⟩

/-- Where a load was late, every compute uop has issued. -/
theorem LateLoad.issued {order : List Id} {m : Id} (h : LateLoad E order m) :
    ∃ compute ∈ E.group? m, ∀ u ∈ compute, u ∈ order := by
  obtain ⟨compute, hg, done, x, later, rfl, -, -, hall⟩ := h
  exact ⟨compute, hg, fun u hu => List.mem_append_left _ (hall u hu)⟩

theorem LateLoad.not_outstanding {m : Id} (hlog : LogInv E.trace s.toCore)
    (h : LateLoad E (issueOrder s.toCore) m) : ¬ Outstanding E s.toCore m := by
  obtain ⟨compute, hg, hall⟩ := h.issued
  rintro ⟨compute', hg', -, u, hu, hnone⟩
  obtain rfl : compute = compute' := Option.some.inj (hg.symm.trans hg')
  have := (mem_issueOrder hlog).mp (hall u hu)
  rw [hnone] at this
  cases this

/-! ### Steps -/

theorem GroupInv.groupsExact_iff (h : GroupInv E s) (hlog : LogInv E.trace s.toCore) :
    GroupsExact E s ↔ ∀ m, ¬ LateLoad E (issueOrder s.toCore) m := by
  constructor
  · intro hexact m hlate
    exact hlate.not_outstanding hlog ((hexact m).mp ((h.pending m).mpr (.inr hlate)))
  · intro hlate m
    rw [h.pending m, or_iff_left (hlate m)]

/-- A load that a compute uop waits for is never late. -/
theorem GroupInv.not_late (h : GroupInv E s) (hlog : LogInv E.trace s.toCore) (hawaited : LoadsAwaited E)
    (m : Id) : ¬ LateLoad E (issueOrder s.toCore) m := by
  rintro ⟨compute, hg, done, x, later, he, hx, hxc, hall⟩
  obtain ⟨u, hu, hux⟩ := (hawaited m compute hg x hx).resolve_left hxc
  obtain ⟨before, after, hbefore⟩ := List.append_of_mem (hall u hu)
  have horder : issueOrder s.toCore = before ++ u :: (after ++ x :: later) := by
    rw [he, hbefore, List.append_assoc, List.cons_append]
  have hdone : x ∈ done := by
    rw [hbefore]
    exact List.mem_append_left _ (dependsOn_before h.first hux horder)
  have hnodup := nodup_issueOrder hlog
  rw [he] at hnodup
  exact (List.disjoint_of_nodup_append hnodup) hdone List.mem_cons_self

/-- A step that issues nothing leaves the groups alone. -/
theorem GroupInv.quiet (h : GroupInv E s) (pending : s'.pendingGroups = s.pendingGroups)
    (issue : ∀ u, (s'.uop u).issueTick = (s.uop u).issueTick) {l : List Event}
    (events : s'.events = s.events ++ l) (hl : ∀ e ∈ l, e.kind ≠ .issue) : GroupInv E s' := by
  have hout : ∀ m, Outstanding E s'.toCore m ↔ Outstanding E s.toCore m := by
    intro m
    simp only [Outstanding, issue]
  have horder := issueOrder_append events hl
  refine ⟨fun m => ?_, pending ▸ h.nodup, pending ▸ h.bounded, fun he => h.first (horder ▸ he)⟩
  rw [pending, hout, horder]
  exact h.pending m

/-- What an issue does to the groups. -/
theorem GroupInv.issue (hT : WellFormed E.trace) (hE : E.overlap.enabled = true) (h : GroupInv E s)
    (hc : Core.Inv E.trace E.inOrder now s.toCore) {x : ExecutionUop} {latency : ℕ}
    (hx : Issuable E.trace E.inOrder now s.toCore x) (free : E.overlapBlocker s x = none)
    (core : s'.toCore = s.toCore.issue x now latency E.inOrder)
    (pending : s'.pendingGroups = E.updateGroups s'.toCore x s.pendingGroups) : GroupInv E s' := by
  have hunissued : (s.uop x.id).issueTick = none := ((hc.uops.waiting x.id).mp hx.waiting).2
  have hself : ((s'.uop x.id).issueTick).isSome := by
    rw [core, issue_uop, if_pos rfl]; rfl
  have hother : ∀ u, u ≠ x.id → (s'.uop u).issueTick = (s.uop u).issueTick := by
    intro u hu
    rw [core, issue_uop, if_neg hu]
  have hmono : ∀ u, (s.uop u).issueTick.isSome → (s'.uop u).issueTick.isSome := by
    intro u hu
    by_cases hux : u = x.id
    · rw [hux]; exact hself
    · rw [hother u hux]; exact hu
  have horder : issueOrder s'.toCore = issueOrder s.toCore ++ [x.id] := by
    rw [core, issueOrder_issue]
  have hmem : ∀ u, u ∈ issueOrder s.toCore ↔ (s.uop u).issueTick.isSome := fun u => mem_issueOrder hc.log
  have hfirst : ∀ {done u later}, issueOrder s'.toCore = done ++ u :: later →
      (E.uop u).dependencies ⊆ done := by
    intro done u later he
    rw [horder] at he
    rcases List.eq_nil_or_concat later with rfl | ⟨later, z, rfl⟩
    · obtain ⟨rfl, hxu⟩ := List.append_inj' he rfl
      obtain rfl : x.id = u := by simpa using hxu
      have huop : E.uop x.id = x := Setup.uop_eq hT hx.mem
      rw [huop]
      intro d hd
      obtain ⟨t, ht⟩ := Option.isSome_iff_exists.mp (hx.complete d hd)
      obtain ⟨i, hi, -⟩ := hc.uops.completed ht
      exact (hmem d).mpr (Option.isSome_of_mem hi)
    · rw [List.concat_eq_append, ← List.cons_append, ← List.append_assoc] at he
      exact h.first (List.append_inj' he rfl).1
  refine ⟨fun m => ?_, pending ▸ nodup_updateGroups h.nodup,
    pending ▸ length_updateGroups hE free h.bounded, hfirst⟩
  rw [pending, horder, lateLoad_snoc]
  by_cases hm : m = x.parentId ∧ (E.group? m).isSome
  · obtain ⟨rfl, hg⟩ := hm
    obtain ⟨compute, hg⟩ := Option.isSome_iff_exists.mp hg
    have hload : x.id ∈ E.loads x.parentId ↔ x.kind = .loadData := by
      rw [mem_loads hT hx.mem, and_iff_right rfl]
    have hout : ∀ c : Core, Outstanding E c x.parentId ↔
        (∃ u ∈ E.loads x.parentId, (c.uop u).issueTick.isSome) ∧ ∃ u ∈ compute, (c.uop u).issueTick = none := by
      intro c
      simp [Outstanding, hg]
    rw [mem_updateGroups_self hE hg]
    by_cases hlast : x.id ∈ compute ∧ ∀ u ∈ compute, (s'.uop u).issueTick.isSome
    · -- the last compute uop takes the macro-op off, and no load has been late
      rw [hout]
      refine iff_of_false (fun hp => hp.2 hlast) ?_
      rintro (⟨-, u, hu, hnone⟩ | hlate | ⟨compute', hg', -, hnot, -⟩)
      · have := hlast.2 u hu
        rw [hnone] at this
        cases this
      · obtain ⟨compute', hg', hall⟩ := hlate.issued
        obtain rfl : compute = compute' := Option.some.inj (hg.symm.trans hg')
        have := (hmem x.id).mp (hall x.id hlast.1)
        rw [hunissued] at this
        cases this
      · obtain rfl : compute = compute' := Option.some.inj (hg.symm.trans hg')
        exact hnot hlast.1
    · rw [and_iff_left hlast]
      by_cases hk : x.kind = .loadData
      · -- a load enters the macro-op; it is late if no compute uop is left
        refine iff_of_true (.inl hk) ?_
        by_cases hleft : ∃ u ∈ compute, (s'.uop u).issueTick = none
        · exact .inl ((hout _).mpr ⟨⟨x.id, hload.mpr hk, hself⟩, hleft⟩)
        · have hall : ∀ u ∈ compute, (s'.uop u).issueTick.isSome := by
            intro u hu
            by_contra hne
            exact hleft ⟨u, hu, by simpa using hne⟩
          have hnot : x.id ∉ compute := fun hxc => hlast ⟨hxc, hall⟩
          refine .inr (.inr ⟨compute, hg, hload.mpr hk, hnot, fun u hu => (hmem u).mpr ?_⟩)
          have := hall u hu
          rwa [hother u fun he => hnot (he ▸ hu)] at this
      · -- another uop changes nothing, as it is not the last compute uop
        have hloads : (∃ u ∈ E.loads x.parentId, (s'.uop u).issueTick.isSome) ↔
            ∃ u ∈ E.loads x.parentId, (s.uop u).issueTick.isSome := by
          refine exists_congr fun u => and_congr_right fun hu => ?_
          rw [hother u fun he => hk (hload.mp (he ▸ hu))]
        have hleft : (∃ u ∈ compute, (s'.uop u).issueTick = none) ↔
            ∃ u ∈ compute, (s.uop u).issueTick = none := by
          constructor
          · rintro ⟨u, hu, hnone⟩
            refine ⟨u, hu, ?_⟩
            by_contra hne
            have := hmono u (Option.isSome_iff_ne_none.mpr hne)
            rw [hnone] at this
            cases this
          · rintro ⟨u, hu, hnone⟩
            by_cases hxc : x.id ∈ compute
            · by_contra hne
              refine hlast ⟨hxc, fun v hv => Option.isSome_iff_ne_none.mpr fun hv' => hne ⟨v, hv, hv'⟩⟩
            · exact ⟨u, hu, by rw [hother u fun he => hxc (he ▸ hu)]; exact hnone⟩
        have hlate : ¬ ∃ compute ∈ E.group? x.parentId, x.id ∈ E.loads x.parentId ∧ x.id ∉ compute ∧
            ∀ u ∈ compute, u ∈ issueOrder s.toCore := by
          rintro ⟨-, -, hxl, -⟩
          exact hk (hload.mp hxl)
        rw [or_iff_right hk, or_iff_left hlate, hout, hloads, hleft, ← hout s.toCore]
        exact h.pending _
  · have hnone : m = x.parentId → E.group? m = none := fun he => by
      by_contra hne
      exact hm ⟨he, Option.isSome_iff_ne_none.mpr hne⟩
    have hgroup : ∀ compute ∈ E.group? m, x.id ∉ compute ∧ x.id ∉ E.loads m := by
      intro compute hg
      have hne : x.parentId ≠ m := by
        intro he
        rw [hnone he.symm] at hg
        cases hg
      exact ⟨fun hxc => hne (group?_parent hT hx.mem hg hxc),
        fun hxl => hne ((mem_loads hT hx.mem).mp hxl).1⟩
    have hout : Outstanding E s'.toCore m ↔ Outstanding E s.toCore m := by
      refine exists_congr fun compute => and_congr_right fun hg => and_congr ?_ ?_
      · refine exists_congr fun u => and_congr_right fun hu => ?_
        rw [hother u fun he => (hgroup compute hg).2 (he ▸ hu)]
      · refine exists_congr fun u => and_congr_right fun hu => ?_
        rw [hother u fun he => (hgroup compute hg).1 (he ▸ hu)]
    have hlate : ¬ ∃ compute ∈ E.group? m, x.id ∈ E.loads m ∧ x.id ∉ compute ∧
        ∀ u ∈ compute, u ∈ issueOrder s.toCore := by
      rintro ⟨compute, hg, hxl, -⟩
      exact (hgroup compute hg).2 hxl
    rw [mem_updateGroups_other hnone, or_iff_left hlate, hout]
    exact h.pending m

theorem groupInv_init : GroupInv E E.machineInit where
  pending m := by
    refine iff_of_false List.not_mem_nil ?_
    rintro (⟨-, -, ⟨u, -, hu⟩, -⟩ | ⟨-, -, done, x, later, he, -⟩)
    · cases hu
    · exact absurd he.symm (by simp [issueOrder, Setup.machineInit, Core.init])
  nodup := List.nodup_nil
  bounded := Nat.zero_le _
  first he := absurd he.symm (by simp [issueOrder, Setup.machineInit, Core.init])

namespace Zen4

theorem groupInv_step (hT : WellFormed E.trace) (hE : E.overlap.enabled = true) (hs : Inv E now s)
    (h : GroupInv E s) (hstep : Step E now s s') : GroupInv E s' := by
  cases hstep with
  | @complete e rest head due =>
    unfold completeEntry
    dsimp only
    split
    · exact h.quiet (l := []) rfl (fun _ => rfl) (List.append_nil _).symm (by simp)
    · refine h.quiet (l := [⟨.complete, e.tick, e.id⟩]) rfl (fun u => ?_) rfl (by simp)
      rw [completeUop_uop]; split <;> rfl
  | @dispatch m head room =>
    refine h.quiet (l := m.uopIds.map fun u => ⟨.dispatch, now, u⟩) rfl (fun u => ?_) ?_ (by simp)
    · simp only [dispatchMacro, Core.advance, dispatchAll_uop]
      split <;> rfl
    · simp only [dispatchMacro, Core.advance, dispatchAll_eq]
      rfl
  | stall _ | poll _ => exact ⟨h.pending, h.nodup, h.bounded, h.first⟩
  | issue issuable early _ _ _ _ =>
    exact h.issue hT hE hs.core issuable (earlyBlocker_none early).2.2.1 rfl rfl
  | @retire m rest _ _ _ =>
    exact h.quiet (l := [⟨.retire, now, m.id⟩]) rfl (fun _ => rfl) rfl (by simp)

/-- The groups of every state of a run. -/
theorem Reachable.groups (hT : WellFormed E.trace) (hE : E.overlap.enabled = true) (h : Reachable E now s) :
    Inv E now s ∧ GroupInv E s :=
  h.invariant (P := fun now s => Inv E now s ∧ GroupInv E s) hT ⟨inv_init, groupInv_init⟩
    (fun _ _ _ hs hstep => ⟨inv_step hT hs.1 hstep, groupInv_step hT hE hs.1 hs.2 hstep⟩)
    fun _ _ _ hs hlt => ⟨hs.1.later hlt.le, hs.2⟩

end Zen4

namespace Xsai

variable {C : Config} {q q' : Sched}

theorem admitOnce_events (s : Sched) (c : DispatchCycle) (m : MacroOp) :
    (admitOnce C s c m now).1.events = s.events := by
  unfold admitOnce; split <;> rfl

theorem admitOnce_pendingGroups (s : Sched) (c : DispatchCycle) (m : MacroOp) :
    (admitOnce C s c m now).1.pendingGroups = s.pendingGroups := by
  unfold admitOnce; split <;> rfl

theorem groupInv_step (hT : WellFormed C.trace) (hE : C.overlap.enabled = true) (hs : CoreInv C now q)
    (h : GroupInv C.toSetup q.toMachine) (hstep : Step C now q q') : GroupInv C.toSetup q'.toMachine := by
  cases hstep with
  | @complete e rest head due =>
    unfold completeEntry
    dsimp only
    split
    · exact h.quiet (l := []) rfl (fun _ => rfl) (List.append_nil _).symm (by simp)
    · refine h.quiet (l := [⟨.complete, e.tick, e.id⟩]) rfl (fun u => ?_) rfl (by simp)
      simp only [completeUop_uop]
      split <;> rfl
  | @take c m width us a units head taken room =>
    refine h.quiet (l := us.map fun u => ⟨.dispatch, now, u⟩) ?_ (fun u => ?_) ?_ (by simp)
    · exact admitOnce_pendingGroups q c m
    · simp only [enqueue, spend, dispatchAll_uop, admitOnce_uop]
      split <;> rfl
    · simp only [enqueue, spend, dispatchAll_eq, admitOnce_events]
  | @budget c m width units head short room =>
    refine h.quiet (l := []) ?_ (fun u => ?_) ?_ (by simp)
    · exact admitOnce_pendingGroups q c m
    · simp only [spend, admitOnce_uop]
    · simp only [spend, admitOnce_events, List.append_nil]
  | releaseFlow _ _ | releaseRename _ _ | advance _ _ | stall _ _ _ | poll _ =>
    exact h.quiet (l := []) rfl (fun _ => rfl) (List.append_nil _).symm (by simp)
  | issue issuable early _ _ _ _ =>
    exact h.issue hT hE hs issuable (earlyBlocker_none early).2.2.2.1 rfl rfl
  | @retire m rest _ _ _ =>
    exact h.quiet (l := [⟨.retire, now, m.id⟩]) rfl (fun _ => rfl) rfl (by simp)

/-- The groups of every state of a run. -/
theorem Reachable.groups (hT : WellFormed C.trace) (hE : C.overlap.enabled = true) (h : Reachable C now q) :
    CoreInv C now q ∧ GroupInv C.toSetup q.toMachine :=
  h.invariant (P := fun now s => CoreInv C now s ∧ GroupInv C.toSetup s.toMachine) hT
    ⟨inv_init, groupInv_init⟩
    (fun _ _ _ hs hstep => ⟨inv_step hT hs.1 hstep, groupInv_step hT hE hs.1 hs.2 hstep⟩)
    fun _ _ _ hs hlt => ⟨hs.1.later hlt.le, hs.2⟩

end Xsai

/-! ### Runs of both engines -/

/-- No more macro-ops are pending than the profile allows, each once; and they are those with a load
that awaits a compute uop just as long as no load has been late, which none is that is awaited. -/
structure GroupsKept (E : Setup) (s : Machine) : Prop where
  bounded : s.pendingGroups.length ≤ E.overlap.maxPendingGroups
  nodup : s.pendingGroups.Nodup
  exact_iff : GroupsExact E s ↔ ∀ m, ¬ LateLoad E (issueOrder s.toCore) m
  awaited : LoadsAwaited E → GroupsExact E s

theorem GroupInv.kept (h : GroupInv E s) (hlog : LogInv E.trace s.toCore) : GroupsKept E s :=
  ⟨h.bounded, h.nodup, h.groupsExact_iff hlog, fun hawaited => (h.groupsExact_iff hlog).mpr (h.not_late hlog hawaited)⟩

/-- **The pending groups of a run are exact until a load is late**, and only then. -/
theorem groups_kept (T : BoundTrace) (P : EngineProfile) (inOrder : Bool) (mode : CacheMode)
    (limit : Option Bool) :
    (∀ E now s, Zen4.init T P inOrder mode limit = .ok E → E.overlap.enabled = true →
      Zen4.Reachable E now s → GroupsKept E s) ∧
    (∀ expand E now s, Xsai.init T P inOrder mode limit expand = .ok E → E.overlap.enabled = true →
      Xsai.Reachable E now s → GroupsKept E.toSetup s.toMachine) := by
  constructor
  · intro E now s hE henabled h
    obtain ⟨hs, hg⟩ := h.groups (Zen4.init_ok hE).1 henabled
    exact hg.kept hs.core.log
  · intro expand E now s hE henabled h
    obtain ⟨hs, hg⟩ := h.groups (Xsai.init_ok hE).wellFormed henabled
    exact hg.kept hs.log

namespace Sample

/-- A macro-op that loads, adds, and loads from where the sum says. -/
def chained : BoundTrace where
  profileId := "sample"
  ticksPerCycle := 1
  macros := [{ id := 1, sequence := 1, uopIds := [1, 2, 3], decodedMacroOps := 1, retireMacroOps := 1,
               usesVectorScheduler := true, usesLoadQueue := true, usesStoreQueue := false }]
  uops := [loadUop 1 1 [], addUop 2 1 [1], loadUop 3 1 [2]]
  resources := [("load", 1), ("add", 1)]
  source := [addInstruction 1]

end Sample

/-- The run of that macro-op. -/
theorem Sample.chained_run : ∃ E s t, Zen4.init Sample.chained Sample.oneGroup false .cold none = .ok E ∧
    E.overlap.enabled = true ∧ Zen4.run E = .ok (s, t) ∧ s.pendingGroups = [1] ∧
    E.group? 1 = some [2] ∧ (s.uop 2).issueTick.isSome := by
  have hrun : ((Zen4.init Sample.chained Sample.oneGroup false .cold none).bind fun E =>
      (Zen4.run E).map fun r => (E, r)).toOption.any (fun r => decide (
        r.1.overlap.enabled = true ∧ r.2.1.pendingGroups = [1] ∧ r.1.group? 1 = some [2] ∧
          (r.2.1.uop 2).issueTick.isSome)) = true := by
    decide +kernel
  obtain ⟨⟨E, r⟩, hr, hd⟩ := (Option.any_eq_true _ _).mp hrun
  obtain ⟨E', hE, hr⟩ := Checked.ok_bind.mp (Checked.toOption_ok.mp hr)
  obtain ⟨r', hrun', he⟩ := Checked.ok_map.mp hr
  obtain ⟨rfl, rfl⟩ := Prod.mk.inj he
  obtain ⟨henabled, hpending, hgroup, hissued⟩ := of_decide_eq_true hd
  exact ⟨E', r'.1, r'.2, hE, henabled, hrun', hpending, hgroup, hissued⟩

theorem groups_kept_chained : ∃ E s t, Zen4.init Sample.chained Sample.oneGroup false .cold none = .ok E ∧
    E.overlap.enabled = true ∧ Zen4.run E = .ok (s, t) ∧ GroupsKept E s := by
  obtain ⟨E, s, t, hE, henabled, h, -⟩ := Sample.chained_run
  exact ⟨E, s, t, hE, henabled, h, (groups_kept Sample.chained Sample.oneGroup false .cold none).1 E t s hE
    henabled (Zen4.run_reachable h)⟩

/-- The load after the sum leaves its macro-op pending for good. -/
theorem left_pending : ∃ E s t compute, Zen4.init Sample.chained Sample.oneGroup false .cold none = .ok E ∧
    E.overlap.enabled = true ∧ Zen4.Reachable E t s ∧ 1 ∈ s.pendingGroups ∧
    E.group? 1 = some compute ∧ (∀ u ∈ compute, (s.uop u).issueTick.isSome) ∧ ¬ GroupsExact E s := by
  obtain ⟨E, s, t, hE, henabled, h, hpending, hgroup, hissued⟩ := Sample.chained_run
  have hmem : 1 ∈ s.pendingGroups := by rw [hpending]; exact List.mem_cons_self
  have hall : ∀ u ∈ [2], (s.uop u).issueTick.isSome := by simpa using hissued
  refine ⟨E, s, t, [2], hE, henabled, Zen4.run_reachable h, hmem, hgroup, hall, fun hexact => ?_⟩
  obtain ⟨compute, hg, -, u, hu, hnone⟩ := (hexact 1).mp hmem
  obtain rfl : compute = [2] := Option.some.inj (Eq.trans hg.symm hgroup)
  have := hall u hu
  rw [hnone] at this
  cases this

end VectorSim
