/-
# The vector epochs of the XSAI engine

A config uop opens an epoch, the uops up to the next config uop are its body
(`ordered_epochs`). An epoch with computed stores and reductions is mixed: it
takes a token when its config uop issues and gives it back when its terminal
completes, and every state of a run has the tokens of the epochs that are open
(`EpochInv`). A close edge goes from a uop of an epoch to the config uop of the
next one; where the trace lists its uops in order and depends on earlier uops
only, everything that a uop waits for comes before it (`Waits.sequence_lt`).
-/
import VectorSim.OccupancySafety

namespace VectorSim
namespace Xsai

open Checked Setup Core

variable {E : Config} {now : ℕ} {s s' : Sched}

/-- An epoch: its config uop and its body. -/
abbrev EpochOf := ExecutionUop × List ExecutionUop

/-! ### The epochs partition the uops -/

theorem epochsFrom_split : ∀ (last : Option Id) (xs : List ExecutionUop),
    xs = xs.takeWhile (fun x => !opensEpoch E last x) ++ (epochsFrom E last xs).flatMap fun e => e.1 :: e.2
  | _, [] => rfl
  | last, x :: xs => by
    unfold epochsFrom
    cases hx : opensEpoch E last x with
    | true =>
      have ih := epochsFrom_split (some x.parentId) xs
      simp only [List.takeWhile_cons, hx, Bool.not_true, Bool.false_eq_true, if_false, if_true,
        List.nil_append, List.flatMap_cons, List.cons_append, List.cons.injEq, true_and]
      exact ih
    | false =>
      have ih := epochsFrom_split last xs
      simp only [List.takeWhile_cons, hx, Bool.not_false, Bool.false_eq_true, if_false, if_true,
        List.cons_append, List.cons.injEq, true_and]
      exact ih

/-- The uops in order: those before the first config uop, and the epochs one after the other. -/
theorem ordered_epochs (he : E.epochs.enabled = true) : ∃ before,
    ordered E = before ++ (epochList E).flatMap fun e => e.1 :: e.2 :=
  ⟨_, by rw [epochList, if_pos he]; exact epochsFrom_split none (ordered E)⟩

theorem ordered_perm (E : Config) : (ordered E).Perm E.trace.uops := List.perm_insertionSort _ _

theorem ordered_ids (hT : WellFormed E.trace) : ((ordered E).map (·.id)).Nodup :=
  ((ordered_perm E).map _).nodup_iff.mpr hT.uopIds

theorem epochList_disabled {e : EpochOf} (h : e ∈ epochList E) : E.epochs.enabled = true := by
  by_contra hne
  rw [epochList, if_neg hne] at h
  cases h

/-- A uop of an epoch is one of the trace. -/
theorem epoch_mem {e : EpochOf} (h : e ∈ epochList E) {x : ExecutionUop} (hx : x ∈ e.1 :: e.2) :
    x ∈ E.trace.uops := by
  obtain ⟨before, hsplit⟩ := ordered_epochs (epochList_disabled h)
  refine (ordered_perm E).subset ?_
  rw [hsplit]
  exact List.mem_append_right _ (List.mem_flatMap.mpr ⟨e, h, hx⟩)

/-- No two epochs share a uop. -/
theorem epochs_disjoint (hT : WellFormed E.trace) : (epochList E).Pairwise fun e e' =>
    ∀ x ∈ e.1 :: e.2, ∀ y ∈ e'.1 :: e'.2, x.id ≠ y.id := by
  by_cases he : E.epochs.enabled = true
  · obtain ⟨before, hsplit⟩ := ordered_epochs he
    have hn := ordered_ids hT
    rw [hsplit, List.map_append] at hn
    have hpair : ((epochList E).flatMap fun e => e.1 :: e.2).Pairwise fun x y => x.id ≠ y.id :=
      List.pairwise_map.mp hn.of_append_right
    exact (List.pairwise_flatMap.mp hpair).2
  · rw [epochList, if_neg he]
    exact .nil

/-- An epoch is the one that a uop of it belongs to. -/
theorem epoch_unique (hT : WellFormed E.trace) {e e' : EpochOf} (h : e ∈ epochList E) (h' : e' ∈ epochList E)
    {x y : ExecutionUop} (hx : x ∈ e.1 :: e.2) (hy : y ∈ e'.1 :: e'.2) (hid : x.id = y.id) : e = e' := by
  by_contra hne
  obtain ⟨i, hi, rfl⟩ := List.getElem_of_mem h
  obtain ⟨j, hj, rfl⟩ := List.getElem_of_mem h'
  have hpair := List.pairwise_iff_getElem.mp (epochs_disjoint hT)
  rcases lt_trichotomy i j with hij | rfl | hij
  · exact hpair i j hi hj hij x hx y hy hid
  · exact hne rfl
  · exact hpair j i hj hi hij y hy x hx hid.symm

/-! ### What an epoch imposes -/

theorem reductionTerminal_mem {body reductions : List ExecutionUop} {t : ExecutionUop}
    (hsub : ∀ x ∈ reductions, x ∈ body) (h : reductionTerminal body reductions = some t) : t ∈ body := by
  obtain ⟨last, hlast, rfl⟩ := Option.map_eq_some_iff.mp h
  cases htrail : (body.filter fun x => last.sequence ≤ x.sequence && isComputeKind x.kind).getLast? with
  | none => exact hsub last (Slots.minBy?_mem hlast)
  | some x => exact (List.mem_filter.mp (List.mem_of_getLast? htrail)).1

/-- The terminal of an epoch and the uop that closes it are uops of its body. -/
theorem classify_mem (E : Config) (body : List ExecutionUop) :
    (∀ t, (classify E body).terminal = some t → ∃ x ∈ body, x.id = t) ∧
      ∀ t offset, (classify E body).close = some (t, offset) → ∃ x ∈ body, x.id = t := by
  have hred : ∀ {t}, reductionTerminal body (body.filter (isReduction E)) = some t → t ∈ body :=
    fun h => reductionTerminal_mem (fun _ hx => (List.mem_filter.mp hx).1) h
  have hlast : ∀ {p : ExecutionUop → Bool} {t}, (body.filter p).getLast? = some t → t ∈ body :=
    fun h => (List.mem_filter.mp (List.mem_of_getLast? h)).1
  unfold classify
  dsimp only
  split
  · next store terminal hstore hterminal =>
    refine ⟨fun t h => ?_, fun t offset h => by cases h⟩
    cases h
    exact ⟨terminal, hred hterminal, rfl⟩
  · next store hstore hterminal =>
    refine ⟨fun t h => (by cases h), fun t offset h => ?_⟩
    cases h
    exact ⟨store, hlast hstore, rfl⟩
  · next terminal hstore hterminal =>
    refine ⟨fun t h => (by cases h), fun t offset h => ?_⟩
    cases h
    exact ⟨terminal, hred hterminal, rfl⟩
  · split
    · next load hload =>
      refine ⟨fun t h => (by cases h), fun t offset h => ?_⟩
      cases h
      exact ⟨load, hlast hload, rfl⟩
    · exact ⟨fun t h => (by cases h), fun t offset h => (by cases h)⟩

/-- The terminal of an epoch that is mixed. -/
abbrev terminalOf (E : Config) (e : EpochOf) : Option Id := (classify E e.2).terminal

/-- `mixed_epoch_terminal_by_config` holds the terminal of the epoch that a uop opens. -/
theorem mixedTerminal_eq (hT : WellFormed E.trace) {u t : Id} :
    mixedTerminal E u = some t ↔ ∃ e ∈ epochList E, e.1.id = u ∧ terminalOf E e = some t := by
  constructor
  · intro h
    obtain ⟨e, he, h⟩ := List.exists_of_findSome?_eq_some h
    split at h
    · next hid => exact ⟨e, he, hid, h⟩
    · cases h
  · rintro ⟨e, he, rfl, ht⟩
    cases h : mixedTerminal E e.1.id with
    | none =>
      have hnone := List.findSome?_eq_none_iff.mp h e he
      rw [if_pos rfl] at hnone
      rw [terminalOf, hnone] at ht
      cases ht
    | some t' =>
      obtain ⟨e', he', h'⟩ := List.exists_of_findSome?_eq_some h
      split at h'
      · next hid =>
        obtain rfl := epoch_unique hT he' he List.mem_cons_self List.mem_cons_self hid
        exact h'.symm.trans ht
      · cases h'

/-- A close edge goes from a uop of an epoch to the config uop of the next one. -/
theorem epochClose_next {u t : Id} {offset : ℤ} (h : epochClose E u = some (t, offset)) :
    ∃ i e e', (epochList E)[i]? = some e ∧ (epochList E)[i + 1]? = some e' ∧ e'.1.id = u ∧
      ∃ x ∈ e.2, x.id = t := by
  obtain ⟨p, hp, h⟩ := List.exists_of_findSome?_eq_some h
  obtain ⟨i, hi, hp⟩ := List.getElem_of_mem hp
  have hget := List.getElem?_eq_some_iff.mpr ⟨hi, hp⟩
  obtain ⟨h₁, h₂⟩ := List.getElem?_zip_eq_some.mp hget
  rw [List.getElem?_tail] at h₂
  split at h
  · next hid => exact ⟨i, p.1, p.2, h₁, h₂, hid, (classify_mem E p.1.2).2 t offset h⟩
  · cases h

/-! ### The tokens of a run -/

/-- A uop depends on another one, through any number of dependencies. -/
def DependsOn (E : Config) : Id → Id → Prop :=
  Relation.TransGen fun u d => ∃ x ∈ E.trace.uops, x.id = u ∧ d ∈ x.dependencies

/-- Each terminal depends on the config uop of its epoch. -/
def TerminalsDepend (E : Config) : Prop :=
  ∀ e ∈ epochList E, ∀ t, terminalOf E e = some t → DependsOn E t e.1.id

/-- What a uop that has issued depends on has completed. -/
theorem DependsOn.completed (hT : WellFormed E.trace) (hs : CoreInv E now s) {u d : Id} (h : DependsOn E u d)
    (hu : (s.uop u).issueTick.isSome) : (s.uop d).completeTick.isSome := by
  have hone : ∀ {u d}, (∃ x ∈ E.trace.uops, x.id = u ∧ d ∈ x.dependencies) → (s.uop u).issueTick.isSome →
      (s.uop d).completeTick.isSome := by
    rintro _ d ⟨x, hx, rfl, hd⟩ hu
    obtain ⟨i, hi⟩ := Option.isSome_iff_exists.mp hu
    obtain ⟨t, ht, -⟩ := (hs.uops.issued hi).2.dependencies (hT.uop?_eq hx) d hd
    exact Option.isSome_iff_exists.mpr ⟨t, ht⟩
  induction h with
  | single h => exact hone h hu
  | tail _ h ih =>
    obtain ⟨t, ht⟩ := Option.isSome_iff_exists.mp ih
    obtain ⟨i, hi, -⟩ := hs.uops.completed ht
    exact hone h (Option.isSome_iff_exists.mpr ⟨i, hi⟩)

/-- A mixed epoch is open: its config uop has issued and its terminal `t` has not completed. -/
structure IsOpen (E : Config) (s : Sched) (e : EpochOf) (t : Id) : Prop where
  terminal : terminalOf E e = some t
  opened : (s.uop e.1.id).issueTick.isSome
  running : (s.uop t).completeTick = none

/-- The tokens are those of the open epochs, within the capacity. -/
structure EpochInv (E : Config) (s : Sched) : Prop where
  tokens : ∀ t, t ∈ s.mixedActive ↔ ∃ e ∈ epochList E, IsOpen E s e t
  distinct : s.mixedActive.Nodup
  within : s.mixedActive.length ≤ E.epochs.mixedStoreReductionCapacity

theorem epochInv_init : EpochInv E (schedInit E) where
  tokens t := by
    constructor
    · intro h; cases h
    · rintro ⟨e, -, h⟩; cases h.opened
  distinct := List.nodup_nil
  within := Nat.zero_le _

theorem EpochInv.same (h : EpochInv E s) (hissue : ∀ u, (s'.uop u).issueTick = (s.uop u).issueTick)
    (hcomplete : ∀ u, (s'.uop u).completeTick = (s.uop u).completeTick) (hactive : s'.mixedActive = s.mixedActive) :
    EpochInv E s' := by
  refine ⟨fun t => ?_, hactive ▸ h.distinct, hactive ▸ h.within⟩
  rw [hactive, h.tokens t]
  refine exists_congr fun e => and_congr_right fun _ => ⟨fun ho => ?_, fun ho => ?_⟩
  · exact ⟨ho.terminal, hissue _ ▸ ho.opened, hcomplete t ▸ ho.running⟩
  · exact ⟨ho.terminal, hissue _ ▸ ho.opened, hcomplete t ▸ ho.running⟩

/-- A terminal that completes gives its token back. -/
theorem epochInv_complete (hs : EpochInv E s) (h : HeapEntry) (rest : List HeapEntry) :
    EpochInv E (completeEntry E s h rest).2 := by
  unfold completeEntry
  dsimp only
  split
  · exact hs.same (fun _ => rfl) (fun _ => rfl) rfl
  · refine ⟨fun t => ?_, hs.distinct.erase _, (List.erase_sublist).length_le.trans hs.within⟩
    show t ∈ s.mixedActive.erase h.id ↔ _
    rw [hs.distinct.mem_erase_iff, hs.tokens t]
    have hissue : ∀ u, ((completeUop { s.toCore with completionHeap := rest } E.trace h.tick h.id).uop u).issueTick =
        (s.uop u).issueTick := fun u => by rw [completeUop_uop]; split <;> rfl
    have hcomplete : ((completeUop { s.toCore with completionHeap := rest } E.trace h.tick h.id).uop t).completeTick =
        if t = h.id then some h.tick else (s.uop t).completeTick := by
      rw [completeUop_uop]; split <;> rfl
    constructor
    · rintro ⟨hne, e, he, ho⟩
      exact ⟨e, he, ho.terminal, hissue _ ▸ ho.opened, by rw [hcomplete, if_neg hne]; exact ho.running⟩
    · rintro ⟨e, he, ho⟩
      have hrun := ho.running
      rw [hcomplete] at hrun
      split at hrun
      · cases hrun
      · next hne => exact ⟨hne, e, he, ho.terminal, hissue _ ▸ ho.opened, hrun⟩

/-- A config uop of a mixed epoch issues when not all tokens are taken. -/
theorem early_capacity (hT : WellFormed E.trace) {x : ExecutionUop} (early : earlyBlocker E s x now = none)
    (hmixed : (mixedTerminal E x.id).isSome) : s.mixedActive.length < E.epochs.mixedStoreReductionCapacity := by
  obtain ⟨t, ht⟩ := Option.isSome_iff_exists.mp hmixed
  obtain ⟨e, he, -⟩ := (mixedTerminal_eq hT).mp ht
  have hblock := (earlyBlocker_none early).2.1
  rw [epochBlocker, if_pos (epochList_disabled he)] at hblock
  have hcap := (Option.or_eq_none_iff.mp (Option.or_eq_none_iff.mp hblock).2).2
  by_contra hge
  rw [capacityBlocker, if_pos ⟨hmixed, not_lt.mp hge⟩] at hcap
  cases hcap

/-- A config uop that issues finds a token free, and its terminal has not completed. -/
theorem epochInv_issue (hT : WellFormed E.trace) (hdep : TerminalsDepend E) (hi : CoreInv E now s)
    (hs : EpochInv E s) {x : ExecutionUop} {r : Reserved} (issuable : Issuable E.trace E.inOrder now s.toCore x)
    (early : earlyBlocker E s x now = none) : EpochInv E (issued E s x now r) := by
  have hwait := ((hi.uops.waiting x.id).mp issuable.waiting).2
  have hcomplete : ∀ u, ((issued E s x now r).uop u).completeTick = (s.uop u).completeTick := by
    intro u
    simp only [issued, issue_uop]
    split <;> rfl
  have hissue : ∀ u, ((issued E s x now r).uop u).issueTick.isSome ↔ u = x.id ∨ (s.uop u).issueTick.isSome := by
    intro u
    simp only [issued, issue_uop]
    split
    · next heq => simp [heq]
    · next hne => simp [hne]
  have hactive : (issued E s x now r).mixedActive = openEpoch E s x := rfl
  have hroom : ∀ t, mixedTerminal E x.id = some t →
      s.mixedActive.length < E.epochs.mixedStoreReductionCapacity := fun t ht =>
    early_capacity hT early (by rw [ht]; rfl)
  have htokens : ∀ t, (∃ e ∈ epochList E, IsOpen E (issued E s x now r) e t) ↔
      mixedTerminal E x.id = some t ∨ ∃ e ∈ epochList E, IsOpen E s e t := by
    intro t
    constructor
    · rintro ⟨e, he, ho⟩
      rcases (hissue _).mp ho.opened with heq | hold
      · exact .inl ((mixedTerminal_eq hT).mpr ⟨e, he, heq, ho.terminal⟩)
      · exact .inr ⟨e, he, ho.terminal, hold, hcomplete t ▸ ho.running⟩
    · rintro (ht | ⟨e, he, ho⟩)
      · obtain ⟨e, he, heq, hterm⟩ := (mixedTerminal_eq hT).mp ht
        refine ⟨e, he, hterm, (hissue _).mpr (.inl heq), ?_⟩
        rw [hcomplete]
        -- a terminal that has completed has waited for the config uop
        by_contra hne
        obtain ⟨c, hc⟩ := Option.ne_none_iff_exists'.mp hne
        obtain ⟨i, hi', -⟩ := hi.uops.completed hc
        have hdone := (hdep e he t hterm).completed hT hi (by rw [hi']; rfl)
        rw [heq] at hdone
        obtain ⟨c', hc'⟩ := Option.isSome_iff_exists.mp hdone
        obtain ⟨i', hi'', -⟩ := hi.uops.completed hc'
        rw [hwait] at hi''
        cases hi''
      · exact ⟨e, he, ho.terminal, (hissue _).mpr (.inr ho.opened), (hcomplete t).trans ho.running⟩
  refine ⟨fun t => ?_, ?_, ?_⟩
  · rw [htokens, hactive, openEpoch, ← hs.tokens t]
    cases mixedTerminal E x.id with
    | none => simp
    | some t' =>
      rw [List.mem_insert_iff, Option.some.injEq, eq_comm]
  · rw [hactive, openEpoch]
    cases mixedTerminal E x.id with
    | none => exact hs.distinct
    | some t' => exact hs.distinct.insert
  · rw [hactive, openEpoch]
    cases hterm : mixedTerminal E x.id with
    | none => exact hs.within
    | some t' =>
      have hlen := hroom t' hterm
      rw [List.length_insert]
      split <;> omega

theorem admitOnce_active (s : Sched) (c : DispatchCycle) (m : MacroOp) :
    (admitOnce E s c m now).1.mixedActive = s.mixedActive := by
  unfold admitOnce; split <;> rfl

/-- The steps that concern the epochs are completions and issues. -/
theorem step_epochs (h : Step E now s s') :
    (∃ e rest, s.completionHeap = e :: rest ∧ s' = (completeEntry E s e rest).2) ∨
    (∃ x r, Issuable E.trace E.inOrder now s.toCore x ∧ earlyBlocker E s x now = none ∧ s' = issued E s x now r) ∨
    (∀ u, (s'.uop u).issueTick = (s.uop u).issueTick) ∧ (∀ u, (s'.uop u).completeTick = (s.uop u).completeTick) ∧
      s'.mixedActive = s.mixedActive := by
  cases h with
  | complete head _ => exact .inl ⟨_, _, head, rfl⟩
  | issue issuable early _ _ _ _ => exact .inr (.inl ⟨_, _, issuable, early, rfl⟩)
  | releaseFlow _ _ | releaseRename _ _ | advance _ _ | stall _ _ _ | poll _ | retire _ _ _ =>
    exact .inr (.inr ⟨fun _ => rfl, fun _ => rfl, rfl⟩)
  | @budget c m width units _ _ _ =>
    have hactive : (admitOnce E s c m now).1.mixedActive = s.mixedActive := admitOnce_active s c m
    exact .inr (.inr ⟨fun u => by simp only [spend, admitOnce_uop], fun u => by simp only [spend, admitOnce_uop], hactive⟩)
  | @take c m width us a units _ _ _ =>
    have hactive : (admitOnce E s c m now).1.mixedActive = s.mixedActive := admitOnce_active s c m
    have huop : ∀ u, ((enqueue (spend (admitOnce E s c m now) m units) us a now).1.uop u).issueTick =
          (s.uop u).issueTick ∧
        ((enqueue (spend (admitOnce E s c m now) m units) us a now).1.uop u).completeTick =
          (s.uop u).completeTick := by
      intro u
      simp only [enqueue, spend, dispatchAll_uop, admitOnce_uop]
      split <;> exact ⟨rfl, rfl⟩
    exact .inr (.inr ⟨fun u => (huop u).1, fun u => (huop u).2, hactive⟩)

theorem epochInv_step (hT : WellFormed E.trace) (hdep : TerminalsDepend E) (hi : CoreInv E now s)
    (hs : EpochInv E s) (h : Step E now s s') : EpochInv E s' := by
  rcases step_epochs h with ⟨e, rest, -, rfl⟩ | ⟨x, r, issuable, early, rfl⟩ | ⟨hissue, hcomplete, hactive⟩
  · exact epochInv_complete hs e rest
  · exact epochInv_issue hT hdep hi hs issuable early
  · exact hs.same hissue hcomplete hactive

/-- **Every state of a run has the tokens of its open epochs.** -/
theorem Reachable.epochs (hT : WellFormed E.trace) (hdep : TerminalsDepend E) (h : Reachable E now s) :
    EpochInv E s :=
  (h.invariant (P := fun now s => CoreInv E now s ∧ EpochInv E s) hT ⟨inv_init, epochInv_init⟩
    (fun _ _ _ hs hstep => ⟨inv_step hT hs.1 hstep, epochInv_step hT hdep hs.1 hs.2 hstep⟩)
    fun _ _ _ hs hlt => ⟨hs.1.later hlt.le, hs.2⟩).2

/-- No token is left at the end of a run. -/
theorem run_epochs (hT : WellFormed E.trace) (hdep : TerminalsDepend E) (h : run E = .ok (s, now)) :
    s.mixedActive = [] := by
  have hs := (run_reachable h).epochs hT hdep
  refine List.eq_nil_iff_forall_not_mem.mpr fun t ht => ?_
  obtain ⟨e, he, ho⟩ := (hs.tokens t).mp ht
  obtain ⟨x, hx, rfl⟩ := (classify_mem E e.2).1 t ho.terminal
  obtain ⟨_, _, _, c, _, _, _, hc, _⟩ := (run_ordered hT h).2.1.uop x (epoch_mem he (List.mem_cons_of_mem _ hx))
  rw [ho.running] at hc
  cases hc

/-! ### What waits for what -/

/-- What a uop waits for before it issues: its dependencies, the uop that closes the epoch
before, the uop it is to follow, and, in order, the uops before it. -/
inductive Waits (E : Config) : Id → Id → Prop
  | dependency {x : ExecutionUop} {d : Id} (mem : x ∈ E.trace.uops) (listed : d ∈ x.dependencies) : Waits E x.id d
  | close {u t : Id} {offset : ℤ} (edge : epochClose E u = some (t, offset)) : Waits E u t
  | follow {x : ExecutionUop} {p : Id} (mem : x ∈ E.trace.uops) (listed : p ∈ x.issueAfterUop) : Waits E x.id p
  | inOrder {i j : ℕ} {x y : ExecutionUop} (order : E.inOrder = true) (before : i < j)
      (first : E.trace.uops[i]? = some x) (second : E.trace.uops[j]? = some y) : Waits E y.id x.id

/-- What a uop waits for in a state: besides, a config uop waits for the tokens when all are taken. -/
inductive WaitsIn (E : Config) (s : Sched) : Id → Id → Prop
  | always {u v : Id} (waits : Waits E u v) : WaitsIn E s u v
  | token {u t t' : Id} (mixed : mixedTerminal E u = some t') (waiting : (s.uop u).issueTick = none)
      (full : E.epochs.mixedStoreReductionCapacity ≤ s.mixedActive.length) (taken : t ∈ s.mixedActive) :
      WaitsIn E s u t

/-- The trace lists its uops by their sequence numbers, and they depend on earlier ones. -/
structure Sequenced (T : BoundTrace) : Prop where
  increasing : T.uops.Pairwise fun x y => x.sequence < y.sequence
  dependencies : ∀ x ∈ T.uops, ∀ d ∈ x.dependencies, ∀ y ∈ T.uop? d, y.sequence < x.sequence
  follows : ∀ x ∈ T.uops, ∀ p ∈ x.issueAfterUop, ∀ y ∈ T.uop? p, y.sequence < x.sequence

/-- The sequence number of a uop. -/
def sequenceOf (E : Config) (u : Id) : ℕ := (E.uop u).sequence

theorem sequenceOf_eq (hT : WellFormed E.trace) {x : ExecutionUop} (hx : x ∈ E.trace.uops) :
    sequenceOf E x.id = x.sequence := by
  rw [sequenceOf, uop_eq hT hx]

/-- A relation that goes down in a number has no cycle. -/
theorem not_transGen_self {α : Type*} {r : α → α → Prop} (rank : α → ℕ) (h : ∀ a b, r a b → rank b < rank a)
    (a : α) : ¬ Relation.TransGen r a a := by
  intro hcycle
  have hgt : Relation.TransGen (· > ·) (rank a) (rank a) := hcycle.lift rank h
  rw [Relation.transGen_eq_self] at hgt
  exact lt_irrefl _ hgt

/-- The uops of an epoch come before those of a later one. -/
theorem Sequenced.epochs (hS : Sequenced E.trace) : (epochList E).Pairwise fun e e' =>
    ∀ x ∈ e.1 :: e.2, ∀ y ∈ e'.1 :: e'.2, x.sequence < y.sequence := by
  by_cases he : E.epochs.enabled = true
  · obtain ⟨before, hsplit⟩ := ordered_epochs he
    have hsame : ordered E = E.trace.uops :=
      List.Pairwise.insertionSort_eq (hS.increasing.imp fun hlt => le_of_lt hlt)
    have hpair := hS.increasing
    rw [← hsame, hsplit] at hpair
    exact (List.pairwise_flatMap.mp (List.pairwise_append.mp hpair).2.1).2
  · rw [epochList, if_neg he]
    exact .nil

/-- **Everything that a uop waits for comes before it.** -/
theorem Waits.sequence_lt (hT : WellFormed E.trace) (hS : Sequenced E.trace) {u v : Id} (h : Waits E u v) :
    sequenceOf E v < sequenceOf E u := by
  cases h with
  | @dependency x _ mem listed =>
    obtain ⟨y, hy⟩ := Option.isSome_iff_exists.mp (hT.dependencies x mem _ listed)
    obtain ⟨hmem, rfl⟩ := E.trace.uop?_mem hy
    rw [sequenceOf_eq hT mem, sequenceOf_eq hT hmem]
    exact hS.dependencies x mem _ listed y hy
  | @follow x _ mem listed =>
    obtain ⟨y, hy⟩ := Option.isSome_iff_exists.mp (hT.predecessor x mem _ listed)
    obtain ⟨hmem, rfl⟩ := E.trace.uop?_mem hy
    rw [sequenceOf_eq hT mem, sequenceOf_eq hT hmem]
    exact hS.follows x mem _ listed y hy
  | close edge =>
    obtain ⟨i, e, e', hi, hj, rfl, x, hx, rfl⟩ := epochClose_next edge
    rw [sequenceOf_eq hT (epoch_mem (List.mem_of_getElem? hi) (List.mem_cons_of_mem _ hx)),
      sequenceOf_eq hT (epoch_mem (List.mem_of_getElem? hj) List.mem_cons_self)]
    obtain ⟨hi', rfl⟩ := List.getElem?_eq_some_iff.mp hi
    obtain ⟨hj', rfl⟩ := List.getElem?_eq_some_iff.mp hj
    exact List.pairwise_iff_getElem.mp hS.epochs i (i + 1) hi' hj' (Nat.lt_succ_self i) x
      (List.mem_cons_of_mem _ hx) _ List.mem_cons_self
  | @inOrder i j x y _ before first second =>
    rw [sequenceOf_eq hT (List.mem_of_getElem? first), sequenceOf_eq hT (List.mem_of_getElem? second)]
    obtain ⟨hi, rfl⟩ := List.getElem?_eq_some_iff.mp first
    obtain ⟨hj, rfl⟩ := List.getElem?_eq_some_iff.mp second
    exact List.pairwise_iff_getElem.mp hS.increasing i j hi hj before

/-- Config uops of mixed epochs issue in the order of the epochs: the machine issues in order,
or each depends on those before. -/
def ConfigsOrdered (E : Config) : Prop :=
  E.inOrder = true ∨ (epochList E).Pairwise fun e e' => (terminalOf E e).isSome → (terminalOf E e').isSome →
    DependsOn E e'.1.id e.1.id

/-- An open epoch comes before the mixed ones whose config uop has not issued. -/
theorem IsOpen.before (hT : WellFormed E.trace) (hS : Sequenced E.trace) (hord : ConfigsOrdered E)
    (hi : CoreInv E now s) {e e' : EpochOf} {t t' : Id} (he : e ∈ epochList E) (he' : e' ∈ epochList E)
    (ho : IsOpen E s e t) (hmixed : terminalOf E e' = some t') (hwait : (s.uop e'.1.id).issueTick = none) :
    ∃ i j : ℕ, i < j ∧ (epochList E)[i]? = some e ∧ (epochList E)[j]? = some e' := by
  obtain ⟨i, hil, hie⟩ := List.getElem_of_mem he
  obtain ⟨j, hjl, hje⟩ := List.getElem_of_mem he'
  refine ⟨i, j, ?_, List.getElem?_eq_some_iff.mpr ⟨hil, hie⟩, List.getElem?_eq_some_iff.mpr ⟨hjl, hje⟩⟩
  rcases lt_trichotomy i j with hlt | rfl | hlt
  · exact hlt
  · -- the epoch itself is not open
    obtain rfl := hie.symm.trans hje
    have hopen := ho.opened
    rw [hwait] at hopen
    cases hopen
  · -- a later epoch has its config uop issue after this one's
    exfalso
    have hissued : (s.uop e'.1.id).issueTick.isSome := by
      rcases hord with horder | hdep
      · have hlt' := List.pairwise_iff_getElem.mp hS.epochs j i hjl hil hlt
        rw [hie, hje] at hlt'
        have hseq := hlt' e'.1 List.mem_cons_self e.1 List.mem_cons_self
        obtain ⟨a, ha, hae⟩ := List.getElem_of_mem (epoch_mem he' List.mem_cons_self)
        obtain ⟨b, hb, hbe⟩ := List.getElem_of_mem (epoch_mem he List.mem_cons_self)
        have hab : a < b := by
          by_contra hge
          rcases Nat.eq_or_lt_of_le (not_lt.mp hge) with rfl | hba
          · rw [hae.symm.trans hbe] at hseq
            exact lt_irrefl _ hseq
          · have := List.pairwise_iff_getElem.mp hS.increasing b a hb ha hba
            rw [hae, hbe] at this
            exact lt_asymm hseq this
        have hin := hi.order horder
        have hopen := (hin.issued (List.getElem?_eq_some_iff.mpr ⟨hb, hbe⟩)).mp ho.opened
        exact (hin.issued (List.getElem?_eq_some_iff.mpr ⟨ha, hae⟩)).mpr (hab.trans hopen)
      · have hpair := List.pairwise_iff_getElem.mp hdep j i hjl hil hlt
        rw [hie, hje] at hpair
        have hdone := (hpair (by rw [hmixed]; rfl) (by rw [ho.terminal]; rfl)).completed hT hi ho.opened
        obtain ⟨c, hc⟩ := Option.isSome_iff_exists.mp hdone
        obtain ⟨k, hk, -⟩ := hi.uops.completed hc
        rw [hk]; rfl
    rw [hwait] at hissued
    cases hissued

/-- **With config uops in order, everything that a uop waits for in a state comes before it.** -/
theorem WaitsIn.sequence_lt (hT : WellFormed E.trace) (hS : Sequenced E.trace) (hord : ConfigsOrdered E)
    (hi : CoreInv E now s) (hs : EpochInv E s) {u v : Id} (h : WaitsIn E s u v) :
    sequenceOf E v < sequenceOf E u := by
  cases h with
  | always waits => exact waits.sequence_lt hT hS
  | token mixed waiting full taken =>
    obtain ⟨e', he', rfl, hmixed⟩ := (mixedTerminal_eq hT).mp mixed
    obtain ⟨e, he, ho⟩ := (hs.tokens v).mp taken
    obtain ⟨x, hx, rfl⟩ := (classify_mem E e.2).1 v ho.terminal
    obtain ⟨i, j, hij, hie, hje⟩ := ho.before hT hS hord hi he he' hmixed waiting
    rw [sequenceOf_eq hT (epoch_mem he (List.mem_cons_of_mem _ hx)), sequenceOf_eq hT (epoch_mem he' List.mem_cons_self)]
    obtain ⟨hil, rfl⟩ := List.getElem?_eq_some_iff.mp hie
    obtain ⟨hjl, rfl⟩ := List.getElem?_eq_some_iff.mp hje
    exact List.pairwise_iff_getElem.mp hS.epochs i j hil hjl hij x (List.mem_cons_of_mem _ hx) _ List.mem_cons_self

/-- What is promised of the vector epochs of an engine. -/
structure EpochsSafe (E : Config) : Prop where
  /-- The tokens are those of the open epochs, one each, within the capacity. -/
  tokens : ∀ now s, Reachable E now s → (∀ t, t ∈ s.mixedActive ↔ ∃! e, e ∈ epochList E ∧ IsOpen E s e t) ∧
    s.mixedActive.Nodup ∧ s.mixedActive.length ≤ E.epochs.mixedStoreReductionCapacity
  ends : ∀ s t, run E = .ok (s, t) → s.mixedActive = []
  /-- A close edge goes from a uop of an epoch to the config uop of the next one. -/
  closes : ∀ u t offset, epochClose E u = some (t, offset) → ∃ i e e', (epochList E)[i]? = some e ∧
    (epochList E)[i + 1]? = some e' ∧ e'.1.id = u ∧ ∃ x ∈ e.2, x.id = t
  /-- Nothing waits for itself. -/
  acyclic : Sequenced E.trace → ∀ u, ¬ Relation.TransGen (Waits E) u u
  /-- With config uops in order, neither does an epoch through the tokens. -/
  tokensAcyclic : Sequenced E.trace → ConfigsOrdered E → ∀ now s, Reachable E now s →
    ∀ u, ¬ Relation.TransGen (WaitsIn E s) u u

/-- **The vector epochs of a run are safe.** -/
theorem epochs_safe (T : BoundTrace) (P : EngineProfile) (inOrder : Bool) (mode : CacheMode) (limit : Option Bool)
    (expand : Bool) (E : Config) (hE : init T P inOrder mode limit expand = .ok E) (hdep : TerminalsDepend E) :
    EpochsSafe E := by
  have hT := (init_ok hE).wellFormed
  refine ⟨fun now s h => ?_, fun s t h => run_epochs hT hdep h, fun u t offset h => epochClose_next h, ?_, ?_⟩
  · have hs := h.epochs hT hdep
    refine ⟨fun t => (hs.tokens t).trans ⟨?_, fun h => ?_⟩, hs.distinct, hs.within⟩
    · rintro ⟨e, he, ho⟩
      refine ⟨e, ⟨he, ho⟩, fun e' ⟨he', ho'⟩ => ?_⟩
      obtain ⟨x, hx, hxt⟩ := (classify_mem E e.2).1 t ho.terminal
      obtain ⟨y, hy, hyt⟩ := (classify_mem E e'.2).1 t ho'.terminal
      exact epoch_unique hT he' he (List.mem_cons_of_mem _ hy) (List.mem_cons_of_mem _ hx) (hyt.trans hxt.symm)
    · obtain ⟨e, he, -⟩ := h
      exact ⟨e, he⟩
  · exact fun hS u => not_transGen_self (sequenceOf E) (fun _ _ h => h.sequence_lt hT hS) u
  · intro hS hord now s h u
    have hi : CoreInv E now s := h.invariant (P := CoreInv E) hT inv_init (fun _ _ _ => inv_step hT)
      fun _ _ _ hs hlt => hs.later hlt.le
    exact not_transGen_self (sequenceOf E)
      (fun _ _ hw => hw.sequence_lt hT hS hord hi (h.epochs hT hdep)) u

/-! ### An epoch that waits for itself -/

/-- A uop lists another one as a dependency. -/
def dependsDirectly (E : Config) (u d : Id) : Bool :=
  E.trace.uops.any fun x => decide (x.id = u) && decide (d ∈ x.dependencies)

theorem dependsDirectly_iff {u d : Id} :
    dependsDirectly E u d = true ↔ ∃ x ∈ E.trace.uops, x.id = u ∧ d ∈ x.dependencies := by
  simp [dependsDirectly]

theorem Waits.direct {u d : Id} (h : dependsDirectly E u d = true) : Waits E u d := by
  obtain ⟨x, hx, rfl, hd⟩ := dependsDirectly_iff.mp h
  exact .dependency hx hd

/-- The terminal of each epoch, and the uop that closes it, list the config uop as a dependency. -/
def terminalsDepend (E : Config) : Bool :=
  (epochList E).all fun e => ((terminalOf E e).all fun t => dependsDirectly E t e.1.id) &&
    ((classify E e.2).close.all fun c => dependsDirectly E c.1 e.1.id)

/-- Each uop that closes an epoch depends on its config uop. -/
def ClosesDepend (E : Config) : Prop :=
  ∀ e ∈ epochList E, ∀ t offset, (classify E e.2).close = some (t, offset) → DependsOn E t e.1.id

theorem terminalsDepend_sound (h : terminalsDepend E = true) : TerminalsDepend E ∧ ClosesDepend E := by
  have hall := List.all_eq_true.mp h
  refine ⟨fun e he t ht => ?_, fun e he t offset hc => ?_⟩
  · obtain ⟨hterm, -⟩ := Bool.and_eq_true_iff.mp (hall e he)
    rw [ht] at hterm
    exact .single (dependsDirectly_iff.mp hterm)
  · obtain ⟨-, hclose⟩ := Bool.and_eq_true_iff.mp (hall e he)
    rw [hc] at hclose
    exact .single (dependsDirectly_iff.mp hclose)

namespace Sample

/-- A profile with room for everything and one token for mixed epochs. -/
def epochProfile : EngineProfile := { VectorSim.Sample.profile with
  pipeline := ⟨some 16, some 16, some 16, some 16, some 16, some 16⟩
  epochs := some { enabled := true, loadOnlyVisibilityCycles := some 0, multiLoadDrainCycles := some 0,
                   chainedComputeDrainCycles := some 0, parallelReductionOverlapCycles := some 0,
                   mixedStoreReductionCapacity := some 1 } }

/-- A uop of an instruction of its own. -/
def epochUop (u : Id) (kind : Kind) (semantic : SemanticKind) (dependencies : List Id) : ExecutionUop :=
  { VectorSim.Sample.uop with
    id := u, sequence := u, parentId := u, kind := kind, semanticKinds := [semantic], dependencies := dependencies,
    issueIntervalTicks := 0
    memory := if kind.isMemory then
      some { address := 64 * u, bytes := 64, cacheLines := [u], access := if kind = .loadData then .load else .store }
      else none }

/-- A trace of such uops. -/
def epochTrace (uops : List ExecutionUop) : BoundTrace where
  profileId := "sample"
  ticksPerCycle := 1
  macros := uops.map fun x => {
    id := x.id, sequence := x.id, uopIds := [x.id], decodedMacroOps := 1, retireMacroOps := 1,
    usesVectorScheduler := x.kind.isVectorResource, usesLoadQueue := x.kind = .loadData,
    usesStoreQueue := x.kind = .storeData }
  uops := uops
  resources := [("alu", 8)]

/-- Two mixed epochs. The first config uop waits for a slow uop, and the second reduction
adds to the first. -/
def crossedEpochs : BoundTrace := epochTrace [
  { epochUop 0 .scalarAlu .scalarAlu [] with latencyTicks := 5 },
  epochUop 1 .scalarAlu .vectorConfig [0], epochUop 2 .vectorFp .vectorFpAdd [1],
  epochUop 3 .storeData .vectorStore [2], epochUop 4 .vectorFp .vectorReduceMax [1],
  epochUop 5 .scalarAlu .vectorConfig [], epochUop 6 .vectorFp .vectorFpAdd [5],
  epochUop 7 .storeData .vectorStore [6], epochUop 8 .vectorFp .vectorReduceMax [5, 4]]

/-- The load that closes the first epoch depends on a uop of the second one. -/
def backwardLoad : BoundTrace := epochTrace [
  epochUop 0 .scalarAlu .vectorConfig [], epochUop 1 .loadData .vectorLoad [0, 3],
  epochUop 2 .scalarAlu .vectorConfig [], epochUop 3 .vectorFp .vectorFpAdd [2]]

end Sample

theorem epochs_safe_sample : ∃ E, init Sample.crossedEpochs Sample.epochProfile false .cold none false = .ok E ∧
    EpochsSafe E := by
  obtain ⟨E, hE⟩ := exists_ok (x := init Sample.crossedEpochs Sample.epochProfile false .cold none false)
    (by decide +kernel)
  have hcheck : ((init Sample.crossedEpochs Sample.epochProfile false .cold none false).map
      terminalsDepend).toOption = some true := by
    decide +kernel
  rw [hE] at hcheck
  exact ⟨E, hE, epochs_safe _ _ _ _ _ _ E hE (terminalsDepend_sound (Option.some.inj hcheck)).1⟩

/-- The second config uop issues first and takes the only token, for a terminal that depends on
the first epoch, which waits for the token. And a load that closes an epoch waits for a uop of
the next one, whose config uop waits for the load. -/
theorem epoch_waits_for_itself :
    (∃ E s, init Sample.crossedEpochs Sample.epochProfile false .cold none false = .ok E ∧ TerminalsDepend E ∧
      ClosesDepend E ∧ Reachable E 0 s ∧ Relation.TransGen (WaitsIn E s) 1 1) ∧
    ∃ E, init Sample.backwardLoad Sample.epochProfile false .cold none false = .ok E ∧ TerminalsDepend E ∧
      ClosesDepend E ∧ Relation.TransGen (Waits E) 2 2 := by
  constructor
  · obtain ⟨E, hE⟩ := exists_ok (x := init Sample.crossedEpochs Sample.epochProfile false .cold none false)
      (by decide +kernel)
    have hvisit : ((init Sample.crossedEpochs Sample.epochProfile false .cold none false).bind fun E =>
        (visitOf (phases E 0) (schedInit E)).map fun s => decide (terminalsDepend E = true ∧
          mixedTerminal E 1 = some 4 ∧ (s.uop 1).issueTick = none ∧
          (E.epochs.mixedStoreReductionCapacity : ℕ) ≤ s.mixedActive.length ∧ 8 ∈ s.mixedActive ∧
          dependsDirectly E 8 4 = true ∧ dependsDirectly E 4 1 = true)).toOption = some true := by
      decide +kernel
    rw [hE] at hvisit
    obtain ⟨s, hs, hfacts⟩ := ok_map.mp (toOption_ok.mp hvisit)
    obtain ⟨hdep, hmixed, hwait, hfull, htaken, h84, h41⟩ := of_decide_eq_true hfacts
    obtain ⟨hterm, hclose⟩ := terminalsDepend_sound hdep
    refine ⟨E, s, hE, hterm, hclose, ⟨schedInit E, phases E 0, [], ⟨0, .zero⟩, (List.append_nil _).symm, hs⟩, ?_⟩
    have h18 : WaitsIn E s 1 8 := .token hmixed hwait hfull htaken
    exact ((Relation.TransGen.single h18).tail (.always (.direct h84))).tail (.always (.direct h41))
  · obtain ⟨E, hE⟩ := exists_ok (x := init Sample.backwardLoad Sample.epochProfile false .cold none false)
      (by decide +kernel)
    have hcheck : ((init Sample.backwardLoad Sample.epochProfile false .cold none false).map fun E =>
        decide (terminalsDepend E = true ∧ epochClose E 2 = some (1, 0) ∧ dependsDirectly E 1 3 = true ∧
          dependsDirectly E 3 2 = true)).toOption = some true := by
      decide +kernel
    rw [hE] at hcheck
    obtain ⟨hdep, hclose, h13, h32⟩ := of_decide_eq_true (Option.some.inj hcheck)
    obtain ⟨hterm, hcloses⟩ := terminalsDepend_sound hdep
    have h21 : Waits E 2 1 := .close hclose
    exact ⟨E, hE, hterm, hcloses, ((Relation.TransGen.single h21).tail (.direct h13)).tail (.direct h32)⟩

end Xsai
end VectorSim
