/-
# What a run has recorded

Three more facts about the bookkeeping that the steps keep, for those who read a
run off its timing fields and its event log. Every event is about a uop or a
macro-op of the trace. The retirements in the log and the macro-ops in the
reorder buffer are, one after the other, the macro-ops entered so far, in program
order. A uop is dispatched after its macro-op has entered.
-/
import VectorSim.Backend.RunOrder

namespace VectorSim
namespace Core

variable {T : BoundTrace} {inOrder : Bool} {now : ℕ} {c c' : Core}

/-- An event is about a macro-op of the trace, where it is a retirement, or else about a uop. -/
def Known (T : BoundTrace) (e : Event) : Prop :=
  if e.kind = .retire then ∃ m ∈ T.macros, m.id = e.id else ∃ x ∈ T.uops, x.id = e.id

/-- The macro-ops that the log has retired, in its order. -/
def retirements (l : List Event) : List Id := (l.filter fun e => e.kind = .retire).map (·.id)

@[simp] theorem retirements_append (l l' : List Event) :
    retirements (l ++ l') = retirements l ++ retirements l' := by
  simp [retirements]

theorem retirements_of_ne {l : List Event} (h : ∀ e ∈ l, e.kind ≠ .retire) : retirements l = [] := by
  simp only [retirements, List.map_eq_nil_iff, List.filter_eq_nil_iff, decide_eq_true_eq]
  exact h

structure Recorded (T : BoundTrace) (c : Core) : Prop where
  known : ∀ e ∈ c.events, Known T e
  /-- What has retired and what is in the reorder buffer are the first macro-ops of the program. -/
  program : ∃ n ≤ T.macros.length, retirements c.events ++ c.rob = (T.macros.take n).map (·.id) ∧
    ∀ {k : ℕ} {m : MacroOp}, T.macros[k]? = some m → ((c.macro_ m.id).dispatchTick.isSome ↔ k < n)
  /-- A uop is not dispatched before its macro-op. -/
  entered : ∀ m ∈ T.macros, ∀ u ∈ m.uopIds, ∀ d, (c.uop u).dispatchTick = some d →
    ∃ e ≤ d, (c.macro_ m.id).dispatchTick = some e

theorem recorded_init : Recorded T (init T) := by
  refine ⟨by simp [init], ⟨0, Nat.zero_le _, by simp [init, retirements], by simp [init]⟩, by simp [init]⟩

/-- A step that leaves the dispatch ticks and the reorder buffer, and logs no retirement. -/
theorem Recorded.of_log (h : Recorded T c) {l : List Event} (log : c'.events = c.events ++ l)
    (known : ∀ e ∈ l, Known T e) (kinds : ∀ e ∈ l, e.kind ≠ .retire) (rob : c'.rob = c.rob)
    (macros : ∀ m, (c'.macro_ m).dispatchTick = (c.macro_ m).dispatchTick)
    (uops : ∀ u, (c'.uop u).dispatchTick = (c.uop u).dispatchTick) : Recorded T c' := by
  obtain ⟨n, hn, hlist, hiff⟩ := h.program
  refine ⟨fun e he => ?_, ⟨n, hn, ?_, fun hk => by rw [macros]; exact hiff hk⟩, fun m hm u hu d hd => ?_⟩
  · rw [log, List.mem_append] at he
    exact he.elim (h.known e) (known e)
  · rw [log, rob, retirements_append, retirements_of_ne kinds, List.append_nil, hlist]
  · rw [uops] at hd
    rw [macros]
    exact h.entered m hm u hu d hd

theorem recorded_enterRob {m : MacroOp} (h : Recorded T c) (hT : WellFormed T) {r a : ℕ} (hr : RobInv T now c r a)
    (head : T.macros[c.nextDispatch]? = some m) (outside : (c.macro_ m.id).dispatchTick = none) :
    Recorded T (c.enterRob m.id now) := by
  obtain ⟨n, hn, hlist, hiff⟩ := h.program
  have hlt : c.nextDispatch < T.macros.length := (List.getElem?_eq_some_iff.mp head).1
  have hout : ¬ c.nextDispatch < n := by
    rw [← hiff head, outside]
    simp
  -- the macro-op is the first that has not entered
  obtain rfl : n = c.nextDispatch := by
    by_contra hne
    have hn' : n < T.macros.length := by omega
    have hin := (hr.dispatched (List.getElem?_eq_getElem hn')).mpr (by rcases hr.next with h | h <;> omega)
    have := (hiff (List.getElem?_eq_getElem hn')).mp hin
    omega
  refine ⟨h.known, ⟨c.nextDispatch + 1, hlt, ?_, ?_⟩, ?_⟩
  · show retirements c.events ++ (c.rob ++ [m.id]) = _
    rw [← List.append_assoc, hlist, List.take_add_one, head]
    simp
  · intro k m' hk
    simp only [Core.enterRob, Function.update_apply]
    by_cases he : m'.id = m.id
    · have := index_inj hT hk head he
      simp [he, this]
    · have hne : k ≠ c.nextDispatch := by
        rintro rfl
        rw [head, Option.some.injEq] at hk
        exact he (by rw [hk])
      rw [if_neg he, hiff hk]
      omega
  · intro m' hm' u hu d hd
    obtain ⟨e, he, hdis⟩ := h.entered m' hm' u hu d hd
    refine ⟨e, he, ?_⟩
    have hne : m'.id ≠ m.id := by
      intro hid
      rw [hid, outside] at hdis
      cases hdis
    simpa [Core.enterRob, hne] using hdis

theorem recorded_dispatch {m : MacroOp} {us : List Id} (h : Recorded T c) (hT : WellFormed T) {r a : ℕ}
    (hr : RobInv T now c r a) (head : T.macros[c.nextDispatch]? = some m)
    (inside : (c.macro_ m.id).dispatchTick.isSome) (listed : us.Sublist m.uopIds) :
    Recorded T (c.dispatchAll now us) := by
  have hm := List.mem_of_getElem? head
  obtain ⟨n, hn, hlist, hiff⟩ := h.program
  refine ⟨fun e he => ?_, ⟨n, hn, ?_, fun hk => by rw [dispatchAll_macros]; exact hiff hk⟩,
    fun m' hm' u hu d hd => ?_⟩
  · rw [dispatchAll_eq] at he
    rcases List.mem_append.mp he with he | he
    · exact h.known e he
    · obtain ⟨u, hu, rfl⟩ := List.mem_map.mp he
      obtain ⟨x, hx, -⟩ := hT.owned m hm u (listed.subset hu)
      exact ⟨x, (T.uop?_mem hx).1, (T.uop?_mem hx).2⟩
  · have hnone : retirements (us.map fun u => (⟨.dispatch, now, u⟩ : Event)) = [] := retirements_of_ne (by simp)
    rw [dispatchAll_rob, dispatchAll_eq]
    show retirements (c.events ++ _) ++ c.rob = _
    rw [retirements_append, hnone, List.append_nil, hlist]
  · rw [dispatchAll_macros]
    rw [dispatchAll_uop] at hd
    split at hd
    · next hmem =>
      -- the uop belongs to the macro-op that has entered
      obtain rfl := hT.owner_unique hm hm' (listed.subset hmem) hu
      obtain ⟨e, he⟩ := Option.isSome_iff_exists.mp inside
      cases hd
      exact ⟨e, hr.dispatch_le he, he⟩
    · exact h.entered m' hm' u hu d hd

theorem recorded_retire {m : MacroOp} {rest : List Id} (h : Recorded T c) (mem : m ∈ T.macros)
    (head : c.rob = m.id :: rest) : Recorded T (c.retire m.id now) := by
  obtain ⟨n, hn, hlist, hiff⟩ := h.program
  have hsame : ∀ m', ((c.retire m.id now).macro_ m').dispatchTick = (c.macro_ m').dispatchTick := by
    intro m'
    by_cases he : m' = m.id
    · subst he; simp [Core.retire]
    · simp [Core.retire, he]
  refine ⟨fun e he => ?_, ⟨n, hn, ?_, fun hk => by rw [hsame]; exact hiff hk⟩, fun m' hm' u hu d hd => ?_⟩
  · rcases List.mem_append.mp he with he | he
    · exact h.known e he
    · rw [List.mem_singleton.mp he]
      exact ⟨m, mem, rfl⟩
  · show retirements (c.events ++ [⟨.retire, now, m.id⟩]) ++ c.rob.tail = _
    rw [retirements_append, head, List.tail_cons, ← hlist, head]
    simp [retirements]
  · rw [hsame]
    exact h.entered m' hm' u hu d hd

theorem recorded_step (h : Recorded T c) (hT : WellFormed T) (hc : Inv T inOrder now c)
    (hstep : Step T inOrder now c c') : Recorded T c' := by
  obtain ⟨r, a, hr⟩ := hc.rob
  cases hstep with
  | drop _ _ | advance _ _ => exact ⟨h.known, h.program, h.entered⟩
  | @complete e rest head _ _ =>
    -- the uop has issued, and the log knows its issue
    obtain ⟨i, hi, -⟩ := hc.uops.due e (by simp [head])
    have hlog : (⟨.issue, i, e.id⟩ : Event) ∈ c.events := by
      have hticks : i ∈ ticksOf .issue e.id c.events := by simp [hc.log.issue, hi]
      obtain ⟨e', he', rfl⟩ := List.mem_map.mp hticks
      obtain ⟨hmem, hkind⟩ := List.mem_filter.mp he'
      simp only [decide_eq_true_eq] at hkind
      rwa [← hkind.1, ← hkind.2]
    have hknown : ∃ x ∈ T.uops, x.id = e.id := h.known _ hlog
    refine h.of_log (l := [⟨.complete, e.tick, e.id⟩]) rfl ?_ (by simp) rfl
      (fun m => (completedMacros_ticks _ _ _ m).1) fun u => ?_
    · intro e' he'
      rw [List.mem_singleton.mp he']
      exact hknown
    · rw [completeUop_uop]
      split <;> rfl
  | enterRob head outside => exact recorded_enterRob h hT hr head outside
  | dispatch head inside listed _ => exact recorded_dispatch h hT hr head inside listed
  | @issue x latency issuable =>
    refine h.of_log (l := [⟨.ready, c.dependencyReadyTick x, x.id⟩, ⟨.issue, now, x.id⟩]) rfl ?_ (by simp) rfl
      (fun _ => rfl) fun u => ?_
    · intro e he
      have hx : ∃ y ∈ T.uops, y.id = x.id := ⟨x, issuable.mem, rfl⟩
      rcases List.mem_cons.mp he with rfl | he
      · exact hx
      · rw [List.mem_singleton.mp he]
        exact hx
    · rw [issue_uop]
      split <;> rfl
  | retire mem head _ _ => exact recorded_retire h mem head

theorem Recorded.steps (h : Recorded T c) (hT : WellFormed T) (hc : Inv T inOrder now c)
    (hsteps : Steps T inOrder now c c') : Recorded T c' := by
  have hboth := Steps.invariant T inOrder now hsteps (P := fun c => Inv T inOrder now c ∧ Recorded T c) ⟨hc, h⟩
    fun c₁ c₂ h₁ hstep => ⟨inv_step hT h₁.1 hstep, recorded_step h₁.2 hT h₁.1 hstep⟩
  exact hboth.2

/-- The log of a run that has ended retires the program, in its order. -/
theorem Recorded.retired (h : Recorded T c) (hrob : c.rob = []) (hall : ∀ m ∈ T.macros, (c.macro_ m.id).dispatchTick.isSome) :
    retirements c.events = T.macros.map (·.id) := by
  obtain ⟨n, hn, hlist, hiff⟩ := h.program
  have hlen : T.macros.length ≤ n := by
    by_contra hlt
    have hn' : n < T.macros.length := by omega
    have := (hiff (List.getElem?_eq_getElem hn')).mp (hall _ (List.getElem_mem hn'))
    omega
  rwa [hrob, List.append_nil, List.take_of_length_le hlen] at hlist

end Core
end VectorSim
