/-
# The order of the macro-ops

Macro-ops enter the reorder buffer and leave it in program order: at every
state the first `r` macro-ops have retired, the first `a` have entered, the
buffer holds those between, and the dispatcher is at `a` or still at the last
one that entered. A macro-op completes when the last of its uops does.
-/
import VectorSim.Backend.UopOrder

namespace VectorSim
namespace Core

variable {T : BoundTrace} {inOrder : Bool} {now : ℕ} {c c' : Core} {r a : ℕ}

structure RobInv (T : BoundTrace) (now : ℕ) (c : Core) (r a : ℕ) : Prop where
  le : r ≤ a
  next : a = c.nextDispatch ∨ a = c.nextDispatch + 1
  length : a ≤ T.macros.length
  rob : c.rob = ((T.macros.take a).drop r).map (·.id)
  dispatched : ∀ {k : ℕ} {m : MacroOp}, T.macros[k]? = some m → ((c.macro_ m.id).dispatchTick.isSome ↔ k < a)
  retired : ∀ {k : ℕ} {m : MacroOp}, T.macros[k]? = some m → ((c.macro_ m.id).retireTick.isSome ↔ k < r)
  dispatch_le : ∀ {m t}, (c.macro_ m).dispatchTick = some t → t ≤ now
  retire_le : ∀ {m t}, (c.macro_ m).retireTick = some t → t ≤ now
  dispatch_mono : ∀ {j k : ℕ} {s t : ℕ} {m m' : MacroOp}, j ≤ k → T.macros[j]? = some m → T.macros[k]? = some m' →
    (c.macro_ m.id).dispatchTick = some s → (c.macro_ m'.id).dispatchTick = some t → s ≤ t
  retire_mono : ∀ {j k : ℕ} {s t : ℕ} {m m' : MacroOp}, j ≤ k → T.macros[j]? = some m → T.macros[k]? = some m' →
    (c.macro_ m.id).retireTick = some s → (c.macro_ m'.id).retireTick = some t → s ≤ t

structure MacroInv (T : BoundTrace) (c : Core) : Prop where
  /-- A macro-op that has completed completed with the last of its uops. -/
  complete : ∀ {t : ℕ} {m : MacroOp}, m ∈ T.macros → (c.macro_ m.id).completeTick = some t →
    (∀ u ∈ m.uopIds, (c.uop u).completeTick.isSome) ∧ t = lastCompletion c.uop m
  retire : ∀ {t : ℕ} {m : MacroOp}, m ∈ T.macros → (c.macro_ m.id).retireTick = some t →
    ∃ s, (c.macro_ m.id).completeTick = some s ∧ s ≤ t
  /-- The macro-ops behind the dispatcher are dispatched whole. -/
  whole : ∀ {k : ℕ} {m : MacroOp}, k < c.nextDispatch → T.macros[k]? = some m →
    ∀ u ∈ m.uopIds, (c.uop u).dispatchTick.isSome
  owner : ∀ {m : MacroOp}, m ∈ T.macros → ∀ u ∈ m.uopIds, (c.uop u).dispatchTick.isSome →
    (c.macro_ m.id).dispatchTick.isSome

theorem robInv_init : RobInv T now (init T) 0 0 where
  le := le_rfl
  next := .inl rfl
  length := Nat.zero_le _
  rob := by simp [init]
  dispatched _ := by simp [init]
  retired _ := by simp [init]
  dispatch_le h := by cases h
  retire_le h := by cases h
  dispatch_mono _ _ _ h := by cases h
  retire_mono _ _ _ h := by cases h

theorem macroInv_init : MacroInv T (init T) where
  complete _ h := by cases h
  retire _ h := by cases h
  whole h := by cases h
  owner _ _ _ h := by cases h

theorem RobInv.later {next : ℕ} (h : RobInv T now c r a) (hn : now ≤ next) :
    RobInv T next c r a :=
  { h with
    dispatch_le := fun hd => (h.dispatch_le hd).trans hn
    retire_le := fun hr => (h.retire_le hr).trans hn }

/-! ### What a completion does to the macro-ops -/

theorem parentMacro?_eq (hT : WellFormed T) {m : MacroOp} (hm : m ∈ T.macros) {u : Id}
    (hu : u ∈ m.uopIds) : parentMacro? T u = some m := by
  obtain ⟨x, hx, hpar⟩ := hT.owned m hm u hu
  rw [parentMacro?, hx, Option.bind_some, hpar, hT.macro?_eq hm]

theorem parentMacro?_mem (hT : WellFormed T) {m : MacroOp} {u : Id} (h : parentMacro? T u = some m) :
    m ∈ T.macros ∧ u ∈ m.uopIds := by
  obtain ⟨x, hx, hm⟩ := Option.bind_eq_some_iff.mp h
  obtain ⟨hxm, rfl⟩ := T.uop?_mem hx
  obtain ⟨m', hm', he, _, hu⟩ := hT.mem_parent hxm
  obtain rfl : m = m' := Option.some.inj (hm.symm.trans he)
  exact ⟨hm', hu⟩

/-- The macro-ops after a completion: the parent of the uop completes if the uop was its last. -/
theorem completedMacros_apply (hT : WellFormed T) (uop : Id → UopState) (macro_ : Id → MacroState)
    (u : Id) {m : MacroOp} (hm : m ∈ T.macros) : completedMacros T uop macro_ u m.id =
      if u ∈ m.uopIds ∧ ∀ v ∈ m.uopIds, (uop v).completeTick.isSome then
        { macro_ m.id with completeTick := some (lastCompletion uop m) }
      else macro_ m.id := by
  unfold completedMacros
  by_cases hu : u ∈ m.uopIds
  · rw [parentMacro?_eq hT hm hu]
    by_cases hall : ∀ v ∈ m.uopIds, (uop v).completeTick.isSome
    · simp only [hu, if_pos hall, true_and, Function.update_self]
    · simp only [hu, if_neg hall, true_and]
  · rw [if_neg fun h => hu h.1]
    cases hp : parentMacro? T u with
    | none => rfl
    | some p =>
      obtain ⟨hpm, hpu⟩ := parentMacro?_mem hT hp
      have hne : m.id ≠ p.id := by
        intro he
        have := hT.macro?_eq hm
        rw [he, hT.macro?_eq hpm, Option.some.injEq] at this
        exact hu (this ▸ hpu)
      dsimp only
      split
      · rw [Function.update_of_ne hne]
      · rfl

/-- `lastCompletion` looks at the completion ticks of the macro-op's own uops. -/
theorem lastCompletion_congr {uop uop' : Id → UopState} {m : MacroOp}
    (h : ∀ u ∈ m.uopIds, (uop' u).completeTick = (uop u).completeTick) :
    lastCompletion uop' m = lastCompletion uop m := by
  unfold lastCompletion
  rw [List.map_congr_left fun u hu => by rw [h u hu]]

theorem MacroInv.of_uop (hc : MacroInv T c) (hm : c'.macro_ = c.macro_)
    (hn : c'.nextDispatch = c.nextDispatch)
    (hcomplete : ∀ u, (c'.uop u).completeTick = (c.uop u).completeTick)
    (hdispatch : ∀ u, (c'.uop u).dispatchTick = (c.uop u).dispatchTick) : MacroInv T c' where
  complete hm' h := by
    rw [hm] at h
    obtain ⟨h1, h2⟩ := hc.complete hm' h
    exact ⟨fun u hu => by rw [hcomplete]; exact h1 u hu,
      h2.trans (lastCompletion_congr fun u _ => hcomplete u).symm⟩
  retire hm' h := by rw [hm] at h ⊢; exact hc.retire hm' h
  whole hk h u hu := by
    rw [hn] at hk
    rw [hdispatch]
    exact hc.whole hk h u hu
  owner hm' u hu h := by
    rw [hdispatch] at h
    rw [hm]
    exact hc.owner hm' u hu h

theorem RobInv.of_fields (hc : RobInv T now c r a) (hm : c'.macro_ = c.macro_)
    (hn : c'.nextDispatch = c.nextDispatch) (hr : c'.rob = c.rob) : RobInv T now c' r a := by
  obtain ⟨h1, h2, h3, h4, h5, h6, h7, h8, h9, h10⟩ := hc
  exact ⟨h1, hn ▸ h2, h3, hr ▸ h4, by rwa [hm], by rwa [hm], by rwa [hm], by rwa [hm], by rwa [hm],
    by rwa [hm]⟩

/-! ### One step -/

theorem macroInv_complete {e : HeapEntry} {rest : List HeapEntry} (hT : WellFormed T)
    (hc : MacroInv T c) (running : (c.uop e.id).completeTick = none) :
    MacroInv T (completeUop { c with completionHeap := rest } T e.tick e.id) := by
  set s := completeUop { c with completionHeap := rest } T e.tick e.id with hs
  have hmac : ∀ {m : MacroOp}, m ∈ T.macros → s.macro_ m.id = _ :=
    fun hm => completedMacros_apply hT s.uop c.macro_ e.id hm
  have hdispatch : ∀ u, (s.uop u).dispatchTick = (c.uop u).dispatchTick := by
    intro u; rw [hs, completeUop_uop]; split <;> rfl
  -- a macro-op that was complete does not list the uop, and its uops are unchanged
  have hout : ∀ {t : ℕ} {m : MacroOp}, m ∈ T.macros → (c.macro_ m.id).completeTick = some t →
      e.id ∉ m.uopIds := by
    intro t m hm h hu
    have := (hc.complete hm h).1 _ hu
    rw [running] at this
    cases this
  have hsame : ∀ {m : MacroOp}, e.id ∉ m.uopIds → ∀ u ∈ m.uopIds, s.uop u = c.uop u := by
    intro m hm u hu
    rw [hs, completeUop_uop, if_neg]
    rintro rfl; exact hm hu
  refine { complete := ?_, retire := ?_, whole := ?_, owner := ?_ }
  · intro t m hm h
    rw [hmac hm] at h
    split at h
    · next hall =>
      cases h
      exact ⟨hall.2, rfl⟩
    · obtain ⟨h1, h2⟩ := hc.complete hm h
      have := hsame (hout hm h)
      refine ⟨fun u hu => ?_, h2.trans (lastCompletion_congr fun u hu => ?_).symm⟩
      · rw [this u hu]; exact h1 u hu
      · rw [this u hu]
  · intro t m hm h
    have hr : (c.macro_ m.id).retireTick = some t := by
      rw [hmac hm] at h
      split at h <;> exact h
    obtain ⟨t', h1, h2⟩ := hc.retire hm hr
    refine ⟨t', ?_, h2⟩
    rw [hmac hm, if_neg fun h => hout hm h1 h.1]
    exact h1
  · intro k m hk hm u hu
    rw [hdispatch]
    exact hc.whole hk hm u hu
  · intro m hm u hu h
    rw [hdispatch] at h
    rw [hmac hm]
    split <;> exact hc.owner hm u hu h

theorem completedMacros_ticks (uop : Id → UopState) (macro_ : Id → MacroState) (u m : Id) :
    (completedMacros T uop macro_ u m).dispatchTick = (macro_ m).dispatchTick ∧
      (completedMacros T uop macro_ u m).retireTick = (macro_ m).retireTick := by
  unfold completedMacros
  cases parentMacro? T u with
  | none => exact ⟨rfl, rfl⟩
  | some p =>
    dsimp only
    split
    · by_cases h : m = p.id
      · subst h; simp
      · simp [h]
    · exact ⟨rfl, rfl⟩

theorem robInv_complete {e : HeapEntry} {rest : List HeapEntry} (hc : RobInv T now c r a) :
    RobInv T now (completeUop { c with completionHeap := rest } T e.tick e.id) r a := by
  set s := completeUop { c with completionHeap := rest } T e.tick e.id with hs
  have hd : ∀ m, (s.macro_ m).dispatchTick = (c.macro_ m).dispatchTick :=
    fun m => (completedMacros_ticks _ _ _ m).1
  have hr : ∀ m, (s.macro_ m).retireTick = (c.macro_ m).retireTick :=
    fun m => (completedMacros_ticks _ _ _ m).2
  refine ⟨hc.le, hc.next, hc.length, hc.rob, ?_, ?_, ?_, ?_, ?_, ?_⟩
  · intro k m hk; rw [hd]; exact hc.dispatched hk
  · intro k m hk; rw [hr]; exact hc.retired hk
  · intro m t h; rw [hd] at h; exact hc.dispatch_le h
  · intro m t h; rw [hr] at h; exact hc.retire_le h
  · intro j k s t mj mk hjk hj hk h h'; rw [hd] at h h'; exact hc.dispatch_mono hjk hj hk h h'
  · intro j k s t mj mk hjk hj hk h h'; rw [hr] at h h'; exact hc.retire_mono hjk hj hk h h'

theorem index_inj (hT : WellFormed T) {j k : ℕ} {m m' : MacroOp} (hj : T.macros[j]? = some m)
    (hk : T.macros[k]? = some m') (h : m.id = m'.id) : j = k := by
  have hn := hT.macroIds
  obtain ⟨hj', rfl⟩ := List.getElem?_eq_some_iff.mp hj
  obtain ⟨hk', rfl⟩ := List.getElem?_eq_some_iff.mp hk
  have hj'' : j < (T.macros.map (·.id)).length := by simpa using hj'
  have hk'' : k < (T.macros.map (·.id)).length := by simpa using hk'
  have hids : (T.macros.map (·.id))[j] = (T.macros.map (·.id))[k] := by simpa using h
  exact hn.getElem_inj_iff.mp hids

theorem robInv_enterRob {m : MacroOp} (hT : WellFormed T) (hc : RobInv T now c r a)
    (head : T.macros[c.nextDispatch]? = some m) (outside : (c.macro_ m.id).dispatchTick = none) :
    RobInv T now (c.enterRob m.id now) r (a + 1) := by
  have hnot : ¬ c.nextDispatch < a := by
    intro h
    have := (hc.dispatched head).mpr h
    simp [outside] at this
  have ha : a = c.nextDispatch := by rcases hc.next with h | h <;> omega
  have hlt : c.nextDispatch < T.macros.length := (List.getElem?_eq_some_iff.mp head).1
  have hup : ∀ m', ((c.enterRob m.id now).macro_ m').retireTick = (c.macro_ m').retireTick := by
    intro m'
    simp only [enterRob, Function.update_apply]
    split
    · next h => rw [h]
    · rfl
  have hdisp : ∀ {k : ℕ} {m' : MacroOp}, T.macros[k]? = some m' →
      ((c.enterRob m.id now).macro_ m'.id).dispatchTick =
        if k = a then some now else (c.macro_ m'.id).dispatchTick := by
    intro k m' hk
    simp only [enterRob, Function.update_apply]
    by_cases h : m'.id = m.id
    · have := index_inj hT hk head h
      simp [h, this, ha]
    · have : k ≠ a := by
        rintro rfl
        rw [ha, head, Option.some.injEq] at hk
        exact h (by rw [hk])
      simp [h, this]
  refine ⟨hc.le.trans (by omega), ?_, by omega, ?_, ?_, ?_, ?_, ?_, ?_, ?_⟩
  · exact .inr (by rw [ha]; rfl)
  · have htake : T.macros.take (a + 1) = T.macros.take a ++ [m] := by
      rw [List.take_add_one, ha, head]; rfl
    show c.rob ++ [m.id] = _
    rw [htake, hc.rob, List.drop_append_of_le_length, List.map_append]
    · rfl
    · rw [List.length_take]; have := hc.le; omega
  · intro k m' hk
    rw [hdisp hk]
    split
    · simp; omega
    · rw [hc.dispatched hk]; omega
  · intro k m' hk
    rw [hup]; exact hc.retired hk
  · intro m' t h
    simp only [enterRob, Function.update_apply] at h
    split at h
    · cases h; exact le_rfl
    · exact hc.dispatch_le h
  · intro m' t h
    rw [hup] at h; exact hc.retire_le h
  · intro j k s t mj mk hjk hj hk hs ht
    rw [hdisp hj] at hs
    rw [hdisp hk] at ht
    split at ht
    · cases ht
      split at hs
      · cases hs; exact le_rfl
      · exact hc.dispatch_le hs
    · split at hs
      · next hne hja =>
        have := (hc.dispatched hk).mp (by rw [ht]; rfl)
        omega
      · exact hc.dispatch_mono hjk hj hk hs ht
  · intro j k s t mj mk hjk hj hk hs ht
    rw [hup] at hs ht
    exact hc.retire_mono hjk hj hk hs ht

theorem macroInv_enterRob {m : MacroOp} (hc : MacroInv T c) : MacroInv T (c.enterRob m.id now) := by
  have hcomplete : ∀ m', ((c.enterRob m.id now).macro_ m').completeTick = (c.macro_ m').completeTick := by
    intro m'
    simp only [enterRob, Function.update_apply]
    split
    · next h => rw [h]
    · rfl
  have hretire : ∀ m', ((c.enterRob m.id now).macro_ m').retireTick = (c.macro_ m').retireTick := by
    intro m'
    simp only [enterRob, Function.update_apply]
    split
    · next h => rw [h]
    · rfl
  refine ⟨?_, ?_, hc.whole, ?_⟩
  · intro t m' hm h
    rw [hcomplete] at h; exact hc.complete hm h
  · intro t m' hm h
    rw [hretire] at h
    rw [hcomplete]; exact hc.retire hm h
  · intro m' hm u hu h
    have := hc.owner hm u hu h
    simp only [enterRob, Function.update_apply]
    split
    · rfl
    · exact this

theorem macroInv_dispatch {m : MacroOp} {us : List Id} (hT : WellFormed T) (hc : MacroInv T c)
    (head : T.macros[c.nextDispatch]? = some m) (inside : (c.macro_ m.id).dispatchTick.isSome)
    (listed : us.Sublist m.uopIds) : MacroInv T (c.dispatchAll now us) := by
  have hcomplete : ∀ u, ((c.dispatchAll now us).uop u).completeTick = (c.uop u).completeTick := by
    intro u; rw [dispatchAll_uop]; split <;> rfl
  refine ⟨?_, ?_, ?_, ?_⟩
  · intro t m' hm h
    rw [dispatchAll_macros] at h
    obtain ⟨h1, h2⟩ := hc.complete hm h
    exact ⟨fun u hu => by rw [hcomplete]; exact h1 u hu,
      h2.trans (lastCompletion_congr fun u _ => hcomplete u).symm⟩
  · intro t m' hm h
    rw [dispatchAll_macros] at h ⊢
    exact hc.retire hm h
  · intro k m' hk hm u hu
    rw [dispatchAll_next] at hk
    rw [dispatchAll_uop]
    split
    · rfl
    · exact hc.whole hk hm u hu
  · intro m' hm u hu h
    rw [dispatchAll_macros]
    rw [dispatchAll_uop] at h
    split at h
    · next hus =>
      have : m' = m := hT.owner_unique hm (List.mem_of_getElem? head) hu (listed.subset hus)
      rw [this]; exact inside
    · exact hc.owner hm u hu h

theorem robInv_advance {m : MacroOp} (hT : WellFormed T) (hc : RobInv T now c r a) (hm : MacroInv T c)
    (head : T.macros[c.nextDispatch]? = some m)
    (done : ∀ u ∈ m.uopIds, (c.uop u).dispatchTick.isSome) : RobInv T now c.advance r a := by
  have hmem := List.mem_of_getElem? head
  have hin : (c.macro_ m.id).dispatchTick.isSome := by
    obtain ⟨u, hu⟩ := List.exists_mem_of_ne_nil _ (hT.macroUops m hmem)
    exact hm.owner hmem u hu (done u hu)
  have := (hc.dispatched head).mp hin
  refine { hc with next := .inl ?_ }
  have hn : c.advance.nextDispatch = c.nextDispatch + 1 := rfl
  rcases hc.next with h | h <;> omega

theorem macroInv_advance {m : MacroOp} (hc : MacroInv T c)
    (head : T.macros[c.nextDispatch]? = some m)
    (done : ∀ u ∈ m.uopIds, (c.uop u).dispatchTick.isSome) : MacroInv T c.advance := by
  refine { hc with whole := ?_ }
  intro k m' hk hm u hu
  have hn : c.advance.nextDispatch = c.nextDispatch + 1 := rfl
  rcases Nat.lt_or_ge k c.nextDispatch with h | h
  · exact hc.whole h hm u hu
  · obtain rfl : k = c.nextDispatch := by omega
    rw [head, Option.some.injEq] at hm
    subst hm
    exact done u hu

/-- The head of the reorder buffer is the first macro-op that has not retired. -/
theorem RobInv.head (hT : WellFormed T) (hc : RobInv T now c r a) {m : MacroOp} {rest : List Id}
    (mem : m ∈ T.macros) (head : c.rob = m.id :: rest) :
    r < a ∧ T.macros[r]? = some m ∧ rest = ((T.macros.take a).drop (r + 1)).map (·.id) := by
  have hlen : r < (T.macros.take a).length := by
    by_contra h
    rw [hc.rob, List.drop_eq_nil_of_le (by omega)] at head
    cases head
  have hra : r < a ∧ r < T.macros.length := by rw [List.length_take] at hlen; omega
  have hrob := hc.rob
  rw [List.drop_eq_getElem_cons hlen, List.map_cons, head, List.cons.injEq,
    List.getElem_take] at hrob
  refine ⟨hra.1, ?_, hrob.2⟩
  rw [List.getElem?_eq_getElem hra.2, Option.some.injEq]
  have h := hT.macro?_eq mem
  rw [hrob.1, hT.macro?_eq (List.getElem_mem hra.2)] at h
  exact Option.some.inj h

theorem RobInv.head_unretired (hT : WellFormed T) (hc : RobInv T now c r a) {m : MacroOp}
    {rest : List Id} (mem : m ∈ T.macros) (head : c.rob = m.id :: rest) :
    (c.macro_ m.id).retireTick = none := by
  have h := hc.retired (hc.head hT mem head).2.1
  simpa using h

theorem robInv_retire {m : MacroOp} {rest : List Id} (hT : WellFormed T) (hc : RobInv T now c r a)
    (mem : m ∈ T.macros) (head : c.rob = m.id :: rest) :
    RobInv T now (c.retire m.id now) (r + 1) a := by
  obtain ⟨hra, hget, hrest⟩ := hc.head hT mem head
  have hdisp : ∀ m', ((c.retire m.id now).macro_ m').dispatchTick = (c.macro_ m').dispatchTick := by
    intro m'
    simp only [retire, Function.update_apply]
    split
    · next h => rw [h]
    · rfl
  have hret : ∀ {k : ℕ} {m' : MacroOp}, T.macros[k]? = some m' → ((c.retire m.id now).macro_ m'.id).retireTick =
      if k = r then some now else (c.macro_ m'.id).retireTick := by
    intro k m' hk
    simp only [retire, Function.update_apply]
    by_cases h : m'.id = m.id
    · have := index_inj hT hk hget h
      simp [h, this]
    · have : k ≠ r := by
        rintro rfl
        rw [hget, Option.some.injEq] at hk
        exact h (by rw [hk])
      simp [h, this]
  refine ⟨hra, hc.next, hc.length, ?_, ?_, ?_, ?_, ?_, ?_, ?_⟩
  · show c.rob.tail = _
    rw [head]; exact hrest
  · intro k m' hk
    rw [hdisp]; exact hc.dispatched hk
  · intro k m' hk
    rw [hret hk]
    split
    · simp; omega
    · rw [hc.retired hk]; omega
  · intro m' t h
    rw [hdisp] at h; exact hc.dispatch_le h
  · intro m' t h
    simp only [retire, Function.update_apply] at h
    split at h
    · cases h; exact le_rfl
    · exact hc.retire_le h
  · intro j k s t mj mk hjk hj hk hs ht
    rw [hdisp] at hs ht
    exact hc.dispatch_mono hjk hj hk hs ht
  · intro j k s t mj mk hjk hj hk hs ht
    rw [hret hj] at hs
    rw [hret hk] at ht
    split at ht
    · cases ht
      split at hs
      · cases hs; exact le_rfl
      · exact hc.retire_le hs
    · split at hs
      · next hne hjr =>
        have := (hc.retired hk).mp (by rw [ht]; rfl)
        omega
      · exact hc.retire_mono hjk hj hk hs ht

theorem macroInv_retire {m : MacroOp} {t : ℕ} (hc : MacroInv T c)
    (complete : (c.macro_ m.id).completeTick = some t) (due : t ≤ now) :
    MacroInv T (c.retire m.id now) := by
  have hdisp : ∀ m', ((c.retire m.id now).macro_ m').dispatchTick = (c.macro_ m').dispatchTick := by
    intro m'
    simp only [retire, Function.update_apply]
    split
    · next h => rw [h]
    · rfl
  have hcomp : ∀ m', ((c.retire m.id now).macro_ m').completeTick = (c.macro_ m').completeTick := by
    intro m'
    simp only [retire, Function.update_apply]
    split
    · next h => rw [h]
    · rfl
  refine ⟨?_, ?_, hc.whole, ?_⟩
  · intro t m' hm h
    rw [hcomp] at h; exact hc.complete hm h
  · intro s m' hm h
    rw [hcomp]
    simp only [retire, Function.update_apply] at h
    split at h
    · next he =>
      cases h
      exact ⟨t, by rw [he]; exact complete, due⟩
    · exact hc.retire hm h
  · intro m' hm u hu h
    rw [hdisp]; exact hc.owner hm u hu h

/-- The order of the macro-ops is kept by every step. -/
theorem macroOrder_step (hT : WellFormed T) (hr : ∃ r a, RobInv T now c r a) (hm : MacroInv T c)
    (h : Step T inOrder now c c') : (∃ r a, RobInv T now c' r a) ∧ MacroInv T c' := by
  obtain ⟨r, a, hr⟩ := hr
  cases h with
  | drop _ _ => exact ⟨⟨r, a, hr.of_fields rfl rfl rfl⟩, hm.of_uop rfl rfl (fun _ => rfl) fun _ => rfl⟩
  | complete _ _ running => exact ⟨⟨r, a, robInv_complete hr⟩, macroInv_complete hT hm running⟩
  | enterRob head outside =>
    exact ⟨⟨r, a + 1, robInv_enterRob hT hr head outside⟩, macroInv_enterRob hm⟩
  | dispatch head inside listed _ =>
    exact ⟨⟨r, a, hr.of_fields (dispatchAll_macros _ _) (dispatchAll_next _ _) (dispatchAll_rob _ _)⟩,
      macroInv_dispatch hT hm head inside listed⟩
  | advance head done =>
    exact ⟨⟨r, a, robInv_advance hT hr hm head done⟩, macroInv_advance hm head done⟩
  | @issue x latency _ =>
    refine ⟨⟨r, a, hr.of_fields rfl rfl rfl⟩, hm.of_uop rfl rfl (fun u => ?_) fun u => ?_⟩ <;>
      rw [issue_uop] <;> split <;> rfl
  | retire mem head complete due =>
    exact ⟨⟨r + 1, a, robInv_retire hT hr mem head⟩, macroInv_retire hm complete due⟩

end Core
end VectorSim
