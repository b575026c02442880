/-
# The steps of an engine on the shared bookkeeping

Both event loops change the bookkeeping in seven ways only: a completion
leaves the heap, a macro-op enters the reorder buffer, some of its uops are
dispatched, the dispatcher goes on to the next macro-op, a uop issues, a
macro-op retires. `Core.Step` lists them with what the engine has checked
before each, at one tick; `Core.Steps` is any number of them. An engine
refines this relation, and what each step keeps holds in every run.
-/
import VectorSim.Backend.Core

namespace VectorSim
namespace Core

variable (T : BoundTrace) (inOrder : Bool) (now : ℕ)

/-- What `_issue_blocker` has checked of a uop's dependencies and its predecessor. -/
structure Issuable (c : Core) (x : ExecutionUop) : Prop where
  mem : x ∈ T.uops
  waiting : x.id ∈ c.unissued
  complete : ∀ d ∈ x.dependencies, (c.uop d).completeTick.isSome
  ready : c.dependencyReadyTick x ≤ now
  gap : ∀ p ∈ x.issueAfterUop, ∃ t, (c.uop p).issueTick = some t ∧ t + x.issueGapTicks ≤ now
  order : inOrder = true → T.uops[c.inOrderIssueIndex]? = some x

/-- One step of an engine at a tick. -/
inductive Step : Core → Core → Prop
  | drop {c : Core} {e rest} (head : c.completionHeap = e :: rest)
      (stale : (c.uop e.id).completeTick.isSome) :
      Step c { c with completionHeap := rest }
  | complete {c : Core} {e rest} (head : c.completionHeap = e :: rest) (due : e.tick ≤ now)
      (running : (c.uop e.id).completeTick = none) :
      Step c (completeUop { c with completionHeap := rest } T e.tick e.id)
  | enterRob {c : Core} {m} (head : T.macros[c.nextDispatch]? = some m)
      (outside : (c.macro_ m.id).dispatchTick = none) :
      Step c (c.enterRob m.id now)
  | dispatch {c : Core} {m} {us : List Id} (head : T.macros[c.nextDispatch]? = some m)
      (inside : (c.macro_ m.id).dispatchTick.isSome) (listed : us.Sublist m.uopIds)
      (pending : ∀ u ∈ us, (c.uop u).dispatchTick = none) :
      Step c (c.dispatchAll now us)
  | advance {c : Core} {m} (head : T.macros[c.nextDispatch]? = some m)
      (done : ∀ u ∈ m.uopIds, (c.uop u).dispatchTick.isSome) :
      Step c c.advance
  | issue {c : Core} {x latency} (issuable : Issuable T inOrder now c x) :
      Step c (c.issue x now latency inOrder)
  | retire {c : Core} {m rest t} (mem : m ∈ T.macros) (head : c.rob = m.id :: rest)
      (complete : (c.macro_ m.id).completeTick = some t) (due : t ≤ now) :
      Step c (c.retire m.id now)

abbrev Steps : Core → Core → Prop := Relation.ReflTransGen (Step T inOrder now)

/-- What every step keeps, any number of steps keep. -/
theorem Steps.invariant {P : Core → Prop} {c c' : Core} (h : Steps T inOrder now c c') (hc : P c)
    (step : ∀ c c', P c → Step T inOrder now c c' → P c') : P c' := by
  induction h with
  | refl => exact hc
  | tail _ hs ih => exact step _ _ ih hs

/-! ### The dispatch of several uops -/

section Dispatch

variable {now}

theorem dispatchAll_eq : ∀ (us : List Id) (c : Core), c.dispatchAll now us = { c with
    uop := fun v => if v ∈ us then { c.uop v with dispatchTick := some now } else c.uop v
    unissued := us.foldl (fun l u => l.insert u) c.unissued
    events := c.events ++ us.map fun u => ⟨.dispatch, now, u⟩ }
  | [], c => by simp [dispatchAll]
  | u :: us, c => by
    have ih := dispatchAll_eq us (c.dispatchUop now u)
    rw [dispatchAll, List.foldl_cons]
    rw [dispatchAll] at ih
    rw [ih]
    simp only [dispatchUop, List.map_cons, List.foldl_cons, List.append_assoc, List.singleton_append,
      Core.mk.injEq, and_true]
    funext v
    by_cases hv : v = u
    · subst hv
      by_cases hm : v ∈ us <;> simp [hm, Function.update_self]
    · by_cases hm : v ∈ us <;> simp [hm, hv]

theorem dispatchAll_uop (us : List Id) (c : Core) (v : Id) : (c.dispatchAll now us).uop v =
    if v ∈ us then { c.uop v with dispatchTick := some now } else c.uop v := by
  rw [dispatchAll_eq]

@[simp] theorem dispatchAll_macros (us : List Id) (c : Core) :
    (c.dispatchAll now us).macro_ = c.macro_ := by rw [dispatchAll_eq]

@[simp] theorem dispatchAll_rob (us : List Id) (c : Core) :
    (c.dispatchAll now us).rob = c.rob := by rw [dispatchAll_eq]

@[simp] theorem dispatchAll_heap (us : List Id) (c : Core) :
    (c.dispatchAll now us).completionHeap = c.completionHeap := by rw [dispatchAll_eq]

@[simp] theorem dispatchAll_next (us : List Id) (c : Core) :
    (c.dispatchAll now us).nextDispatch = c.nextDispatch := by rw [dispatchAll_eq]

@[simp] theorem dispatchAll_index (us : List Id) (c : Core) :
    (c.dispatchAll now us).inOrderIssueIndex = c.inOrderIssueIndex := by rw [dispatchAll_eq]

theorem mem_insertAll {v : Id} : ∀ (us l : List Id),
    v ∈ us.foldl (fun l u => l.insert u) l ↔ v ∈ us ∨ v ∈ l
  | [], l => by simp
  | u :: us, l => by
    rw [List.foldl_cons, mem_insertAll us, List.mem_insert_iff, List.mem_cons]
    tauto

theorem nodup_insertAll : ∀ (us : List Id) {l : List Id}, l.Nodup →
    (us.foldl (fun l u => l.insert u) l).Nodup
  | [], _, h => h
  | u :: us, _, h => by
    rw [List.foldl_cons]
    exact nodup_insertAll us (h.insert)

end Dispatch

/-! ### The timing fields after a step -/

theorem issue_uop (c : Core) (x : ExecutionUop) (now latency : ℕ) (inOrder : Bool) (v : Id) :
    (c.issue x now latency inOrder).uop v = if v = x.id then
      { c.uop v with
        readyTick := some (c.dependencyReadyTick x), issueTick := some now, latencyTicks := latency }
    else c.uop v := by
  by_cases h : v = x.id
  · subst h; simp [issue]
  · simp [issue, h]

theorem completeUop_uop (c : Core) (T : BoundTrace) (tick : ℕ) (u v : Id) :
    (c.completeUop T tick u).uop v =
      if v = u then { c.uop v with completeTick := some tick } else c.uop v := by
  by_cases h : v = u
  · subst h; simp [completeUop]
  · simp [completeUop, h]


end Core
end VectorSim
