/-
# Blocked dispatches

Where the dispatcher finds no room for the macro-op in front, it logs a
`dispatch_blocked` event and ends the cycle. The event is about that macro-op: the
macro-ops before it in the program have been dispatched by then, and it has a uop
that is dispatched at a later tick, if at all (`Stopped`).
-/
import VectorSim.Backend.XsaiWidths

namespace VectorSim
namespace Xsai

open Checked Setup Core

variable {E : Config} {now : ℕ} {s s' : Sched}

/-- What a `dispatch_blocked` event says. -/
structure Stopped (T : BoundTrace) (c : Core) (b : BlockedEvent) : Prop where
  /-- The macro-op has a uop that is dispatched later, and all before it are dispatched. -/
  waiting : ∃ (k : ℕ) (m : MacroOp), T.macros[k]? = some m ∧ m.id = b.instructionId ∧ m.sequence = b.sequence ∧
    (∃ u ∈ m.uopIds, ∀ d, (c.uop u).dispatchTick = some d → b.tick < d) ∧
    ∀ j < k, ∀ m' : MacroOp, T.macros[j]? = some m' → ∀ u ∈ m'.uopIds, ∃ d ≤ b.tick, (c.uop u).dispatchTick = some d
  /-- Its domain is the one that was full. -/
  domain : b.domain = fullDomain b.reason

/-! ### Uops are dispatched -/

/-- A uop keeps its dispatch, or is dispatched at the tick. -/
def Enters (now : ℕ) (c c' : Core) : Prop :=
  ∀ u, (c'.uop u).dispatchTick = (c.uop u).dispatchTick ∨
    (c.uop u).dispatchTick = none ∧ (c'.uop u).dispatchTick = some now

theorem Enters.refl (c : Core) : Enters now c c := fun _ => .inl rfl

theorem Enters.trans {c c' c'' : Core} (h : Enters now c c') (h' : Enters now c' c'') : Enters now c c'' := by
  intro u
  rcases h u with heq | ⟨hnone, hnow⟩
  · rw [← heq]
    exact h' u
  · rcases h' u with heq | ⟨hnone', -⟩
    · exact .inr ⟨hnone, heq.trans hnow⟩
    · rw [hnow] at hnone'
      cases hnone'

/-- What an earlier event says stays true. -/
theorem Stopped.enters {T : BoundTrace} {c c' : Core} {b : BlockedEvent} (h : Stopped T c b) (hb : b.tick < now)
    (hc : Enters now c c') : Stopped T c' b := by
  obtain ⟨k, m, hm, hid, hsequence, ⟨u, hu, hlater⟩, hbefore⟩ := h.waiting
  refine ⟨⟨k, m, hm, hid, hsequence, ⟨u, hu, fun d hd => ?_⟩, fun j hj m' hm' v hv => ?_⟩, h.domain⟩
  · rcases hc u with heq | ⟨-, hnow⟩
    · exact hlater d (heq ▸ hd)
    · rw [hnow] at hd
      cases hd
      exact hb
  · obtain ⟨d, hle, hd⟩ := hbefore j hj m' hm' v hv
    rcases hc v with heq | ⟨hnone, -⟩
    · exact ⟨d, hle, heq.trans hd⟩
    · rw [hd] at hnone
      cases hnone

theorem Stopped.same {T : BoundTrace} {c c' : Core} {b : BlockedEvent} (h : Stopped T c b)
    (hc : ∀ u, (c'.uop u).dispatchTick = (c.uop u).dispatchTick) : Stopped T c' b :=
  h.enters (Nat.lt_succ_self b.tick) fun u => .inl (hc u)

/-! ### The dispatcher -/

/-- A run of the dispatcher logs nothing, or at its end that it stands before a uop. -/
structure Logs (E : Config) (now : ℕ) (s s' : Sched) : Prop where
  enters : Enters now s.toCore s'.toCore
  blocked : s'.blocked = s.blocked ∨ ∃ m reason, E.trace.macros[s'.nextDispatch]? = some m ∧
    (∃ u ∈ m.uopIds, (s'.uop u).dispatchTick = none) ∧
    s'.blocked = s.blocked ++ [⟨now, m.id, m.sequence, reason, fullDomain reason⟩]

theorem admitOnce_blocked (s : Sched) (c : DispatchCycle) (m : MacroOp) :
    (admitOnce E s c m now).1.blocked = s.blocked := by
  unfold admitOnce
  split <;> rfl

theorem closeTurn_log {r : Sched × DispatchCycle} {m : MacroOp} {r' : Bool × Sched × DispatchCycle}
    (h : closeTurn r m = .ok r') : r'.2.1.uop = r.1.uop ∧ r'.2.1.blocked = r.1.blocked := by
  unfold closeTurn at h
  split at h
  · split at h
    · cases h
    · cases h
      exact ⟨rfl, rfl⟩
  · cases h
    exact ⟨rfl, rfl⟩

/-- The uops of a chunk are dispatched. -/
theorem enqueue_enters {s : Sched} {r : Sched × DispatchCycle} {us : List Id} {a : List (Id × String)}
    (hr : r.1.uop = s.uop) (hus : ∀ u ∈ us, (s.uop u).dispatchTick = none) :
    Enters now s.toCore (enqueue r us a now).1.toCore := by
  intro u
  simp only [enqueue, dispatchAll_uop, hr]
  by_cases hu : u ∈ us
  · rw [if_pos hu]
    exact .inr ⟨hus u hu, rfl⟩
  · rw [if_neg hu]
    exact .inl rfl

/-- A turn that logs something is the last. -/
theorem dispatchTurn_logs {width : ℕ} {c : DispatchCycle} {m : MacroOp} {r : Bool × Sched × DispatchCycle}
    (head : E.trace.macros[s.nextDispatch]? = some m) (h : dispatchTurn E width now s c m = .ok r) :
    Logs E now s r.2.1 ∧ (r.1 = true → r.2.1.blocked = s.blocked) := by
  have hstop : ∀ {reason}, pendingUops s m ≠ [] → stopBlocked s c m now reason = .ok r →
      Logs E now s r.2.1 ∧ (r.1 = true → r.2.1.blocked = s.blocked) := by
    intro reason hp h
    obtain ⟨stalls, domains, rfl⟩ := stopBlocked_ok h
    obtain ⟨u, hu⟩ := List.exists_mem_of_ne_nil _ hp
    obtain ⟨hmem, hnone⟩ := List.mem_filter.mp hu
    exact ⟨⟨.refl _, .inr ⟨m, reason, head, ⟨u, hmem, by simpa using hnone⟩, rfl⟩⟩, fun hf => by cases hf⟩
  unfold dispatchTurn at h
  dsimp only at h
  split at h
  · cases h
    exact ⟨⟨.refl _, .inl rfl⟩, fun _ => rfl⟩
  · next hp =>
    split at h
    · cases h
      exact ⟨⟨.refl _, .inl rfl⟩, fun _ => rfl⟩
    · next chunk hchunk =>
      obtain ⟨b, -, h⟩ := ok_bind.mp h
      have huops : (admitOnce E s c m now).1.uop = s.uop := admitOnce_uop s c m
      have hsame : (admitOnce E s c m now).1.blocked = s.blocked := admitOnce_blocked s c m
      cases b with
      | some reason => exact hstop hp h
      | none =>
        cases chunk with
        | take us a units =>
          obtain ⟨⟨count, -, rfl⟩, -⟩ := chooseChunk_take hp hchunk
          obtain ⟨huop, hblocked⟩ := closeTurn_log h
          have henters : Enters now s.toCore
              (enqueue (spend (admitOnce E s c m now) m units) ((pendingUops s m).take count) a now).1.toCore := by
            refine enqueue_enters huops fun u hu => ?_
            simpa using (List.mem_filter.mp (List.mem_of_mem_take hu)).2
          have hall : r.2.1.blocked = s.blocked := hblocked.trans hsame
          exact ⟨⟨fun u => by rw [huop]; exact henters u, .inl hall⟩, fun _ => hall⟩
        | budget units =>
          cases h
          refine ⟨⟨fun u => .inl ?_, .inl hsame⟩, fun _ => hsame⟩
          show ((admitOnce E s c m now).1.uop u).dispatchTick = _
          rw [huops]
        | blocked =>
          dsimp only at h
          split at h <;> exact hstop hp h

theorem dispatchLoop_logs {width : ℕ} : ∀ (fuel : ℕ) (s : Sched) (c : DispatchCycle) {s' : Sched},
    dispatchLoop E width now fuel s c = .ok s' → Logs E now s s'
  | 0, s, _, s', h => by
    cases h
    exact ⟨.refl _, .inl rfl⟩
  | fuel + 1, s, c, s', h => by
    unfold dispatchLoop at h
    split at h
    · cases h
      exact ⟨.refl _, .inl rfl⟩
    · next m hm =>
      split at h
      · cases h
        exact ⟨.refl _, .inl rfl⟩
      · obtain ⟨r, hr, h⟩ := ok_bind.mp h
        obtain ⟨hturn, hgo⟩ := dispatchTurn_logs hm hr
        split at h
        · next hmore =>
          have hrest := dispatchLoop_logs fuel _ _ h
          exact ⟨hturn.enters.trans hrest.enters, hgo hmore ▸ hrest.blocked⟩
        · cases h
          exact hturn

/-! ### Visits -/

/-- The assertion before the `k`-th procedure of a visit. -/
structure LogPhase (E : Config) (k now : ℕ) (s : Sched) : Prop where
  core : CoreInv E now s
  stopped : ∀ b ∈ s.blocked, Stopped E.trace s.toCore b
  upTo : ∀ b ∈ s.blocked, b.tick ≤ now
  past : k ≤ 3 → ∀ b ∈ s.blocked, b.tick < now

theorem LogPhase.same {k : ℕ} (hs : LogPhase E k now s) (hi : CoreInv E now s') (h : SameDispatch s s') :
    LogPhase E (k + 1) now s' where
  core := hi
  stopped b hb := (hs.stopped b (h.blocked ▸ hb)).same h.uops
  upTo b hb := hs.upTo b (h.blocked ▸ hb)
  past hk b hb := hs.past (by omega) b (h.blocked ▸ hb)

theorem LogPhase.dispatch (hs : LogPhase E 3 now s) (hi : CoreInv E now s') (h : Xsai.dispatch E now s = .ok s') :
    LogPhase E 4 now s' := by
  obtain ⟨width, -, h⟩ := ok_bind.mp h
  obtain ⟨henters, hblocked⟩ := dispatchLoop_logs _ _ _ h
  have hold : ∀ b ∈ s.blocked, Stopped E.trace s'.toCore b ∧ b.tick ≤ now := fun b hb =>
    ⟨(hs.stopped b hb).enters (hs.past le_rfl b hb) henters, hs.upTo b hb⟩
  have hall : ∀ b ∈ s'.blocked, Stopped E.trace s'.toCore b ∧ b.tick ≤ now := by
    intro b hb
    rcases hblocked with hsame | ⟨m, reason, hm, ⟨u, hu, hnone⟩, hadd⟩
    · exact hold b (hsame ▸ hb)
    · rw [hadd] at hb
      rcases List.mem_append.mp hb with hb | hb
      · exact hold b hb
      · obtain rfl := List.mem_singleton.mp hb
        refine ⟨⟨⟨_, m, hm, rfl, rfl, ⟨u, hu, fun d hd => ?_⟩, fun j hj m' hm' v hv => ?_⟩, rfl⟩, le_rfl⟩
        · rw [hnone] at hd
          cases hd
        · -- the dispatcher has gone past it
          obtain ⟨d, hd⟩ := Option.isSome_iff_exists.mp (hi.macros.whole hj hm' v hv)
          exact ⟨d, hi.uops.dispatched hd, hd⟩
  exact ⟨hi, fun b hb => (hall b hb).1, fun b hb => (hall b hb).2, fun hk => absurd hk (by omega)⟩

theorem log_phase (hT : WellFormed E.trace) {k : ℕ} {f : Sched → Except SimError Sched}
    (hf : (phases E now)[k]? = some f) (hs : LogPhase E k now s) (h : f s = .ok s') : LogPhase E (k + 1) now s' := by
  have hi : CoreInv E now s' := (phase_steps hT (List.mem_of_getElem? hf) h).invariant hs.core
    fun _ _ => inv_step hT
  rcases phase_cases hf h with hsame | ⟨rfl, -, hd⟩
  · exact hs.same hi hsame
  · exact hs.dispatch hi hd

theorem prefix_logs (hT : WellFormed E.trace) {fs gs : List (Sched → Except SimError Sched)}
    (hfs : phases E now = fs ++ gs) (h : visitOf fs s = .ok s') (hs : LogPhase E 0 now s) :
    LogPhase E fs.length now s' := by
  have hlen : fs.length ≤ (phases E now).length := by rw [hfs]; simp
  have hfs : fs = (phases E now).take fs.length := by rw [hfs]; simp
  rw [visitOf, hfs] at h
  exact foldlM_take (P := fun k => LogPhase E k now) hlen h hs fun _ _ _ _ hf hs => log_phase hT hf hs

theorem AtTick.logs (hT : WellFormed E.trace) (h : AtTick E now s) : LogPhase E 0 now s := by
  obtain ⟨n, h⟩ := h
  refine h.alternate (P := fun now s => LogPhase E 0 now s) (Q := fun now s => LogPhase E 7 now s) ?_ ?_ ?_
  · exact ⟨inv_init, fun _ hb => (by cases hb), fun _ hb => (by cases hb), fun _ _ hb => (by cases hb)⟩
  · exact fun now s s' hs _ hv => prefix_logs hT (List.append_nil _).symm hv hs
  · intro now s s' t hs hnext hlt
    obtain ⟨memory, rfl⟩ := nextEventTick_ok hnext
    exact ⟨(inv_step hT hs.core (.poll memory)).later hlt.le, fun b hb => (hs.stopped b hb).same fun _ => rfl,
      fun b hb => (hs.upTo b hb).trans hlt.le, fun _ b hb => (hs.upTo b hb).trans_lt hlt⟩

/-- **Each event of a blocked dispatch tells where the dispatcher stood.** -/
theorem Reachable.stopped (hT : WellFormed E.trace) (h : Reachable E now s) :
    ∀ b ∈ s.blocked, Stopped E.trace s.toCore b := by
  obtain ⟨s₀, fs, gs, h₀, hfs, hv⟩ := h
  exact (prefix_logs hT hfs hv (h₀.logs hT)).stopped

end Xsai
end VectorSim
