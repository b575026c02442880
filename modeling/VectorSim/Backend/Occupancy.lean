/-
# What the occupancy counters count

The engines keep their occupancies by increments and decrements. Here is what
they are meant to be: a sum over the macro-ops in the reorder buffer
(`occupancy`), the macro-ops that wait in the unpartitioned vector scheduler
(`waitingVector`), and how the steps of the bookkeeping change both.
-/
import VectorSim.Backend.Checks
import VectorSim.Lib.Serial

namespace VectorSim

open Core Setup

/-! ### Macro-ops in the reorder buffer -/

/-- The macro-op is dispatched and has not retired. -/
def live (c : Core) (m : MacroOp) : Bool :=
  (c.macro_ m.id).dispatchTick.isSome && (c.macro_ m.id).retireTick.isNone

/-- What the macro-ops in the reorder buffer take, all together. -/
def occupancy (T : BoundTrace) (c : Core) (entries : MacroOp → ℕ) : ℕ :=
  ((T.macros.filter (live c)).map entries).sum

variable {T : BoundTrace} {inOrder : Bool} {now : ℕ} {c c' : Core} {entries : MacroOp → ℕ}

theorem occupancy_eq (T : BoundTrace) (c : Core) (entries : MacroOp → ℕ) :
    occupancy T c entries = (T.macros.map fun m => if live c m then entries m else 0).sum := by
  unfold occupancy
  induction T.macros with
  | nil => rfl
  | cons m l ih => by_cases h : live c m <;> simp [h, ih]

@[simp] theorem occupancy_init : occupancy T (Core.init T) entries = 0 := by
  rw [occupancy_eq]
  refine List.sum_eq_zero fun n hn => ?_
  obtain ⟨m, -, rfl⟩ := List.mem_map.mp hn
  rfl

/-- Where no macro-op is dispatched or retires, nothing changes. -/
theorem occupancy_congr (hd : ∀ m, (c'.macro_ m).dispatchTick = (c.macro_ m).dispatchTick)
    (hr : ∀ m, (c'.macro_ m).retireTick = (c.macro_ m).retireTick) :
    occupancy T c' entries = occupancy T c entries := by
  have : live c' = live c := by
    funext m
    rw [live, live, hd, hr]
  rw [occupancy, occupancy, this]

theorem macros_nodup (hT : WellFormed T) : T.macros.Nodup := hT.macroIds.of_map _

theorem macro_ext (hT : WellFormed T) {m m' : MacroOp} (hm : m ∈ T.macros) (hm' : m' ∈ T.macros)
    (h : m.id = m'.id) : m = m' := by
  have h1 := hT.macro?_eq hm
  rw [h, hT.macro?_eq hm'] at h1
  exact (Option.some.inj h1).symm

theorem Core.Inv.outside_unretired (hc : Core.Inv T inOrder now c) {m : MacroOp}
    (head : T.macros[c.nextDispatch]? = some m) (outside : (c.macro_ m.id).dispatchTick = none) :
    (c.macro_ m.id).retireTick = none := by
  obtain ⟨r, a, hr⟩ := hc.rob
  by_contra hne
  have h1 := (hr.retired head).mp (Option.isSome_iff_ne_none.mpr hne)
  have h2 := (hr.dispatched head).mpr (h1.trans_le hr.le)
  rw [outside] at h2
  cases h2

theorem Core.Inv.head_live (hT : WellFormed T) (hc : Core.Inv T inOrder now c) {m : MacroOp}
    {rest : List Id} (mem : m ∈ T.macros) (head : c.rob = m.id :: rest) : live c m = true := by
  obtain ⟨r, a, hr⟩ := hc.rob
  obtain ⟨hlt, hget, -⟩ := hr.head hT mem head
  rw [live, hr.head_unretired hT mem head, (hr.dispatched hget).mpr hlt]
  rfl

theorem Core.Inv.issued_dispatched (hc : Core.Inv T inOrder now c) {u : Id} {i : ℕ}
    (h : (c.uop u).issueTick = some i) : (c.uop u).dispatchTick.isSome := by
  obtain ⟨d, _, hd, -⟩ := (hc.uops.issued h).2.times
  rw [hd]; rfl

/-- A macro-op that enters the reorder buffer adds its entries. -/
theorem occupancy_enterRob (hT : WellFormed T) (hc : Core.Inv T inOrder now c) {m : MacroOp}
    (head : T.macros[c.nextDispatch]? = some m) (outside : (c.macro_ m.id).dispatchTick = none) :
    occupancy T (c.enterRob m.id now) entries = occupancy T c entries + entries m := by
  have hmem := List.mem_of_getElem? head
  have hother : ∀ y ∈ T.macros, y ≠ m → live (c.enterRob m.id now) y = live c y := by
    intro y hy hym
    have hid : y.id ≠ m.id := fun h => hym (macro_ext hT hy hmem h)
    simp [live, Core.enterRob, hid]
  have hself : live (c.enterRob m.id now) m = true := by
    simp [live, Core.enterRob, hc.outside_unretired head outside]
  have hbefore : live c m = false := by simp [live, outside]
  have hstep := Serial.sum_of_step (macros_nodup hT) hmem
    (f := fun m => if live c m then entries m else 0)
    (g := fun y => if live (c.enterRob m.id now) y then entries y else 0)
    fun y hy hym => by rw [hother y hy hym]
  simpa [occupancy_eq, hself, hbefore] using hstep

/-- A macro-op that retires takes its entries with it. -/
theorem occupancy_retire (hT : WellFormed T) (hc : Core.Inv T inOrder now c) {m : MacroOp}
    {rest : List Id} (mem : m ∈ T.macros) (head : c.rob = m.id :: rest) :
    occupancy T (c.retire m.id now) entries + entries m = occupancy T c entries := by
  have hother : ∀ y ∈ T.macros, y ≠ m → live (c.retire m.id now) y = live c y := by
    intro y hy hym
    have hid : y.id ≠ m.id := fun h => hym (macro_ext hT hy mem h)
    simp [live, Core.retire, hid]
  have hself : live (c.retire m.id now) m = false := by simp [live, Core.retire]
  have hbefore := hc.head_live hT mem head
  have hstep := Serial.sum_of_step (macros_nodup hT) mem
    (f := fun m => if live c m then entries m else 0)
    (g := fun y => if live (c.retire m.id now) y then entries y else 0)
    fun y hy hym => by rw [hother y hy hym]
  simpa [occupancy_eq, hself, hbefore] using hstep

/-! ### Macro-ops that wait in the vector scheduler -/

variable {E : Setup} {uses : MacroOp → Bool} {x : ExecutionUop}

/-- A vector-kind uop that has issued. -/
def vectorIssued (E : Setup) (c : Core) (u : Id) : Bool :=
  (E.uop u).kind.isVectorResource && (c.uop u).issueTick.isSome

/-- The macro-op is dispatched, uses the scheduler, and none of its vector-kind uops has
issued. -/
def waitsVector (E : Setup) (uses : MacroOp → Bool) (c : Core) (m : MacroOp) : Bool :=
  (c.macro_ m.id).dispatchTick.isSome && uses m && !m.uopIds.any (vectorIssued E c)

def waitingVector (E : Setup) (uses : MacroOp → Bool) (c : Core) : ℕ :=
  E.trace.macros.countP (waitsVector E uses c)

@[simp] theorem waitingVector_init : waitingVector E uses (Core.init T) = 0 :=
  List.countP_eq_zero.mpr fun m _ => by simp [waitsVector, Core.init]

theorem waitingVector_congr (hd : ∀ m, (c'.macro_ m).dispatchTick = (c.macro_ m).dispatchTick)
    (hi : ∀ u, (c'.uop u).issueTick = (c.uop u).issueTick) :
    waitingVector E uses c' = waitingVector E uses c := by
  have : waitsVector E uses c' = waitsVector E uses c := by
    funext m
    have hv : vectorIssued E c' = vectorIssued E c := by
      funext u
      rw [vectorIssued, vectorIssued, hi]
    rw [waitsVector, waitsVector, hd, hv]
  rw [waitingVector, waitingVector, this]

/-- No uop of a macro-op outside the reorder buffer has issued. -/
theorem Core.Inv.outside_unissued (hc : Core.Inv T inOrder now c) {m : MacroOp} (mem : m ∈ T.macros)
    (outside : (c.macro_ m.id).dispatchTick = none) : ∀ u ∈ m.uopIds, (c.uop u).issueTick = none := by
  intro u hu
  by_contra hne
  obtain ⟨i, hi⟩ := Option.ne_none_iff_exists'.mp hne
  have := hc.macros.owner mem u hu (hc.issued_dispatched hi)
  rw [outside] at this
  cases this

theorem waitingVector_enterRob (hT : WellFormed E.trace) (hc : Core.Inv E.trace inOrder now c)
    {m : MacroOp} (head : E.trace.macros[c.nextDispatch]? = some m)
    (outside : (c.macro_ m.id).dispatchTick = none) :
    waitingVector E uses (c.enterRob m.id now) = waitingVector E uses c + (uses m).toNat := by
  have hmem := List.mem_of_getElem? head
  have hv : vectorIssued E (c.enterRob m.id now) = vectorIssued E c := rfl
  have hother : ∀ y ∈ E.trace.macros, y ≠ m →
      waitsVector E uses (c.enterRob m.id now) y = waitsVector E uses c y := by
    intro y hy hym
    have hid : y.id ≠ m.id := fun h => hym (macro_ext hT hy hmem h)
    rw [waitsVector, waitsVector, hv]
    simp [Core.enterRob, hid]
  have hnone : m.uopIds.any (vectorIssued E c) = false := by
    rw [Bool.eq_false_iff]
    intro hany
    obtain ⟨u, hu, hi⟩ := List.any_eq_true.mp hany
    rw [vectorIssued, hc.outside_unissued hmem outside u hu, Option.isSome_none, Bool.and_false] at hi
    cases hi
  have hself : waitsVector E uses (c.enterRob m.id now) m = uses m := by
    rw [waitsVector, hv, hnone]
    simp [Core.enterRob]
  have hbefore : waitsVector E uses c m = false := by simp [waitsVector, outside]
  have hstep := Serial.countP_of_step (macros_nodup hT) hmem hother
  rw [hself, hbefore] at hstep
  exact hstep

theorem siblings_eq (hT : WellFormed E.trace) {m : MacroOp} (hm : m ∈ E.trace.macros)
    (hx : x ∈ E.trace.uops) (hu : x.id ∈ m.uopIds) :
    E.trace.macro? x.parentId = some m ∧ E.siblings x = m.uopIds := by
  obtain ⟨y, hy, hp⟩ := hT.owned m hm x.id hu
  rw [hT.uop?_eq hx] at hy
  cases hy
  have : E.trace.macro? x.parentId = some m := by rw [hp]; exact hT.macro?_eq hm
  exact ⟨this, by rw [siblings, this]; rfl⟩

/-- Apart from a uop that has not issued, the vector-kind uops of its macro-op that have are those that
`otherVectorIssued` asks about. -/
theorem otherVectorIssued_eq (hT : WellFormed E.trace) {m : MacroOp} (hm : m ∈ E.trace.macros)
    (hx : x ∈ E.trace.uops) (hu : x.id ∈ m.uopIds) (hi : (c.uop x.id).issueTick = none) :
    E.otherVectorIssued c x = m.uopIds.any (vectorIssued E c) := by
  rw [otherVectorIssued, (siblings_eq hT hm hx hu).2, Bool.eq_iff_iff, List.any_eq_true, List.any_eq_true]
  refine exists_congr fun v => and_congr_right fun _ => ?_
  by_cases hv : v = x.id
  · subst hv; simp [vectorIssued, hi]
  · simp [vectorIssued, hv]

/-- An issue adds a vector-kind uop to those of its macro-op that have issued. -/
theorem any_vectorIssued_issue (hx : E.uop x.id = x) (l : List Id) (latency : ℕ) :
    l.any (vectorIssued E (c.issue x now latency inOrder)) = true ↔
      l.any (vectorIssued E c) = true ∨ x.id ∈ l ∧ x.kind.isVectorResource = true := by
  have hnew : vectorIssued E (c.issue x now latency inOrder) x.id = x.kind.isVectorResource := by
    simp [vectorIssued, issue_uop, hx]
  have hold : ∀ v, v ≠ x.id → vectorIssued E (c.issue x now latency inOrder) v = vectorIssued E c v := by
    intro v hv
    rw [vectorIssued, vectorIssued, issue_uop, if_neg hv]
  have hkind : vectorIssued E c x.id = true → x.kind.isVectorResource = true := by
    rw [vectorIssued, hx, Bool.and_eq_true]
    exact And.left
  simp only [List.any_eq_true]
  constructor
  · rintro ⟨v, hv, hvi⟩
    by_cases hvx : v = x.id
    · subst hvx; exact .inr ⟨hv, hnew ▸ hvi⟩
    · exact .inl ⟨v, hv, hold v hvx ▸ hvi⟩
  · rintro (⟨v, hv, hvi⟩ | ⟨hv, hk⟩)
    · by_cases hvx : v = x.id
      · subst hvx; exact ⟨x.id, hv, by rw [hnew]; exact hkind hvi⟩
      · exact ⟨v, hv, by rw [hold v hvx]; exact hvi⟩
    · exact ⟨x.id, hv, by rw [hnew]; exact hk⟩

/-- The first issue of a vector-kind uop ends its macro-op's wait; no other issue does. -/
theorem waitingVector_issue (hT : WellFormed E.trace) (hc : Core.Inv E.trace inOrder now c)
    (h : Issuable E.trace inOrder now c x) {m : MacroOp} (hm : m ∈ E.trace.macros)
    (hu : x.id ∈ m.uopIds) (latency : ℕ) (uses : MacroOp → Bool) :
    waitingVector E uses (c.issue x now latency inOrder) +
        (x.kind.isVectorResource && uses m && !E.otherVectorIssued c x).toNat =
      waitingVector E uses c := by
  have hx : E.uop x.id = x := Setup.uop_eq hT h.mem
  obtain ⟨hd, hi⟩ := (hc.uops.waiting x.id).mp h.waiting
  have hdm := hc.macros.owner hm x.id hu hd
  have hmac : (c.issue x now latency inOrder).macro_ = c.macro_ := rfl
  have hother : ∀ y ∈ E.trace.macros, y ≠ m →
      waitsVector E uses (c.issue x now latency inOrder) y = waitsVector E uses c y := by
    intro y hy hym
    have hnot : x.id ∉ y.uopIds := fun hu' => hym (hT.owner_unique hy hm hu' hu)
    have : y.uopIds.any (vectorIssued E (c.issue x now latency inOrder)) =
        y.uopIds.any (vectorIssued E c) := by
      rw [Bool.eq_iff_iff, any_vectorIssued_issue hx]
      simp [hnot]
    rw [waitsVector, waitsVector, hmac, this]
  have hany := (otherVectorIssued_eq hT hm h.mem hu hi).symm
  have hstep := Serial.countP_of_step (macros_nodup hT) hm hother
  have hwas : waitsVector E uses c m = (uses m && !E.otherVectorIssued c x) := by
    rw [waitsVector, hdm, hany, Bool.true_and]
  have hafter : waitsVector E uses (c.issue x now latency inOrder) m =
      (uses m && !(x.kind.isVectorResource || E.otherVectorIssued c x)) := by
    have : m.uopIds.any (vectorIssued E (c.issue x now latency inOrder)) =
        (x.kind.isVectorResource || E.otherVectorIssued c x) := by
      rw [← hany, Bool.eq_iff_iff, any_vectorIssued_issue hx]
      simp [hu, or_comm]
    rw [waitsVector, hmac, hdm, this, Bool.true_and]
  rw [hwas, hafter] at hstep
  rw [waitingVector, waitingVector]
  cases hk : x.kind.isVectorResource <;> cases ho : E.otherVectorIssued c x <;> cases hm : uses m <;>
    simp [hk, ho, hm] at hstep ⊢ <;> omega

/-! ### What happens in a cycle -/

/-- What the macro-ops whose tick lies in a cycle take, all together. -/
def sumIn (T : BoundTrace) (tpc : ℕ) (tick : Id → Option ℕ) (units : MacroOp → ℕ) (cycle : ℕ) : ℕ :=
  ((T.macros.filter fun m => (tick m.id).any (· / tpc = cycle)).map units).sum

/-- What is dispatched, or admitted, in a cycle. -/
def dispatchedIn (T : BoundTrace) (tpc : ℕ) (c : Core) : (MacroOp → ℕ) → ℕ → ℕ :=
  sumIn T tpc fun m => (c.macro_ m).dispatchTick

/-- What retires in a cycle. -/
def retiredIn (T : BoundTrace) (tpc : ℕ) (c : Core) : (MacroOp → ℕ) → ℕ → ℕ :=
  sumIn T tpc fun m => (c.macro_ m).retireTick

variable {tpc cycle : ℕ} {tick : Id → Option ℕ} {units : MacroOp → ℕ}

theorem sumIn_eq (T : BoundTrace) (tpc : ℕ) (tick : Id → Option ℕ) (units : MacroOp → ℕ) (cycle : ℕ) :
    sumIn T tpc tick units cycle =
      (T.macros.map fun m => if (tick m.id).any (· / tpc = cycle) then units m else 0).sum := by
  unfold sumIn
  induction T.macros with
  | nil => rfl
  | cons m l ih => by_cases h : (tick m.id).any (· / tpc = cycle) <;> simp [h, ih]

/-- A tick that is set counts in its cycle. -/
theorem sumIn_update (hT : WellFormed T) {m : MacroOp} (hm : m ∈ T.macros) (fresh : tick m.id = none)
    (now : ℕ) : sumIn T tpc (Function.update tick m.id (some now)) units cycle =
      sumIn T tpc tick units cycle + if now / tpc = cycle then units m else 0 := by
  have hstep := Serial.sum_of_step (macros_nodup hT) hm
    (f := fun m => if (tick m.id).any (· / tpc = cycle) then units m else 0)
    (g := fun y => if (Function.update tick m.id (some now) y.id).any (· / tpc = cycle) then units y else 0)
    fun y hy hym => by rw [Function.update_of_ne fun h => hym (macro_ext hT hy hm h)]
  simpa [sumIn_eq, fresh] using hstep

theorem sumIn_zero (h : ∀ m t, tick m = some t → t / tpc ≠ cycle) : sumIn T tpc tick units cycle = 0 := by
  rw [sumIn_eq]
  refine List.sum_eq_zero fun n hn => ?_
  obtain ⟨m, -, rfl⟩ := List.mem_map.mp hn
  cases ht : tick m.id with
  | none => rfl
  | some t => simp [h _ t ht]

theorem dispatchedIn_enterRob (hT : WellFormed T) {m : MacroOp} (hm : m ∈ T.macros)
    (outside : (c.macro_ m.id).dispatchTick = none) :
    dispatchedIn T tpc (c.enterRob m.id now) units cycle =
      dispatchedIn T tpc c units cycle + if now / tpc = cycle then units m else 0 := by
  have htick : (fun m : Id => (c.macro_ m).dispatchTick) m.id = none := outside
  rw [dispatchedIn, dispatchedIn, ← sumIn_update hT hm htick]
  congr 1
  funext m'
  simp only [Core.enterRob, Function.update_apply]
  split <;> rfl

theorem retiredIn_retire (hT : WellFormed T) {m : MacroOp} (hm : m ∈ T.macros)
    (fresh : (c.macro_ m.id).retireTick = none) :
    retiredIn T tpc (c.retire m.id now) units cycle =
      retiredIn T tpc c units cycle + if now / tpc = cycle then units m else 0 := by
  have htick : (fun m : Id => (c.macro_ m).retireTick) m.id = none := fresh
  rw [retiredIn, retiredIn, ← sumIn_update hT hm htick]
  congr 1
  funext m'
  simp only [Core.retire, Function.update_apply]
  split <;> rfl

/-- At a cycle boundary no earlier tick lies in the cycle that starts. -/
theorem div_ne_of_boundary (hb : now % tpc = 0) {t : ℕ} (h : t < now) :
    t / tpc ≠ now / tpc := by
  intro he
  have h1 := Nat.div_add_mod now tpc
  rw [hb, Nat.add_zero, ← he] at h1
  have h2 := Nat.div_mul_le_self t tpc
  rw [Nat.mul_comm] at h2
  omega

/-- Neither a dispatch nor a retirement of a macro-op lies between two states. -/
structure SameTicks (c c' : Core) : Prop where
  dispatch : ∀ m, (c'.macro_ m).dispatchTick = (c.macro_ m).dispatchTick
  retire : ∀ m, (c'.macro_ m).retireTick = (c.macro_ m).retireTick

theorem SameTicks.refl (c : Core) : SameTicks c c := ⟨fun _ => rfl, fun _ => rfl⟩

theorem SameTicks.trans {c'' : Core} (h : SameTicks c c') (h' : SameTicks c' c'') : SameTicks c c'' :=
  ⟨fun m => (h'.dispatch m).trans (h.dispatch m), fun m => (h'.retire m).trans (h.retire m)⟩

theorem SameTicks.dispatchedIn (h : SameTicks c c') :
    dispatchedIn T tpc c' units cycle = VectorSim.dispatchedIn T tpc c units cycle := by
  rw [VectorSim.dispatchedIn, VectorSim.dispatchedIn]
  congr 1
  exact funext h.dispatch

theorem SameTicks.retiredIn (h : SameTicks c c') :
    retiredIn T tpc c' units cycle = VectorSim.retiredIn T tpc c units cycle := by
  rw [VectorSim.retiredIn, VectorSim.retiredIn]
  congr 1
  exact funext h.retire

/-! ### The widths of a cycle -/

/-- What happens in the cycle that is running adds up there and nowhere else. -/
theorem within_add {f f' : ℕ → ℕ} {here units n : ℕ} (h : ∀ c, f c ≤ n) (room : f here + units ≤ n)
    (add : ∀ c, f' c = f c + if here = c then units else 0) : ∀ c, f' c ≤ n := by
  intro c
  rw [add]
  by_cases hc : here = c
  · rw [if_pos hc, ← hc]; exact room
  · rw [if_neg hc]; exact h c

/-- Of the procedures of a visit, those before the `i`-th dispatch nothing and those before
the `j`-th retire nothing: the ticks lie before `now`. -/
structure Fresh (i j k now : ℕ) (c : Core) : Prop where
  dispatch : k ≤ i → ∀ m t, (c.macro_ m).dispatchTick = some t → t < now
  retire : k ≤ j → ∀ m t, (c.macro_ m).retireTick = some t → t < now

variable {i j k k' : ℕ}

theorem Fresh.same (h : Fresh i j k now c) (hs : SameTicks c c') (hk : k ≤ k') : Fresh i j k' now c' where
  dispatch hi m t ht := h.dispatch (hk.trans hi) m t (hs.dispatch m ▸ ht)
  retire hj m t ht := h.retire (hk.trans hj) m t (hs.retire m ▸ ht)

/-- Before the next tick every tick of the bookkeeping has passed. -/
theorem Core.Inv.fresh {next : ℕ} (h : Core.Inv T inOrder now c) (hlt : now < next) :
    Fresh i j k next c := by
  obtain ⟨r, a, hr⟩ := h.rob
  exact ⟨fun _ _ _ ht => (hr.dispatch_le ht).trans_lt hlt, fun _ _ _ ht => (hr.retire_le ht).trans_lt hlt⟩

theorem fresh_init : Fresh i j k now (Core.init T) where
  dispatch _ _ _ ht := by cases ht
  retire _ _ _ ht := by cases ht

/-- The cycle that starts has seen no dispatch. -/
theorem Fresh.dispatchedIn (h : Fresh i j k now c) (hk : k ≤ i) (hb : now % tpc = 0) :
    dispatchedIn T tpc c units (now / tpc) = 0 :=
  sumIn_zero fun m t ht => div_ne_of_boundary hb (h.dispatch hk m t ht)

/-- Nor a retirement. -/
theorem Fresh.retiredIn (h : Fresh i j k now c) (hk : k ≤ j) (hb : now % tpc = 0) :
    retiredIn T tpc c units (now / tpc) = 0 :=
  sumIn_zero fun m t ht => div_ne_of_boundary hb (h.retire hk m t ht)

end VectorSim
