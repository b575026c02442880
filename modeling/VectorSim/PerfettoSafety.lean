/-
# The exported trace shows the run

Of a run that has ended, `write_perfetto` draws any window without raising. The
phases of an instruction tile the time from its dispatch to its retirement; each
uop of the window has one slice, on the track of its lane, and two uops that occupy
one lane have slices that do not overlap; and the arrows are the dependencies inside
the window, each from the completion of the producer on to the issue of the consumer
(`Export.Drawn`). A uop that occupies its lane for no tick is drawn for one, so its
slice may overlap.
-/
import VectorSim.EventSafety
import VectorSim.Lib.Tiling
import VectorSim.Perfetto

namespace VectorSim

open Core Numbering

/-- Every uop has a lane, and two uops hold one lane at disjoint times. -/
structure Placed (T : BoundTrace) (s : Machine) : Prop where
  lane : ∀ x ∈ T.uops, ∃ r, (s.placement x.id).resource = some r
  apart : ∀ x ∈ T.uops, ∀ y ∈ T.uops, x ≠ y → ∀ i j r,
    (s.uop x.id).issueTick = some i → (s.uop y.id).issueTick = some j →
    (s.placement x.id).resource = some r → (s.placement y.id).resource = some r →
    (s.placement x.id).lane = (s.placement y.id).lane →
      i + x.occupancyTicks ≤ j ∨ j + y.occupancyTicks ≤ i

namespace Export

variable {T : BoundTrace} {W : Window} {s : Machine} {inOrder : Bool}

theorem mem_selectedMacros {m : MacroOp} : m ∈ selectedMacros T W ↔ m ∈ T.macros ∧ W.selects m = true :=
  List.mem_filter

theorem mem_selectedUops {x : ExecutionUop} :
    x ∈ selectedUops T W ↔ x ∈ T.uops ∧ ∃ m ∈ selectedMacros T W, m.id = x.parentId := by
  simp [selectedUops]

/-! ### The phases of an instruction -/

/-- The slices of an instruction. -/
def phaseOf (m : Id) : TraceEvent → Option (ℤ × ℕ)
  | .slice _ _ _ ts dur m' => if m' = m then some (ts, dur) else none
  | _ => none

theorem phases_slice (pid tid : ℕ) (name : SliceName) (start stop : ℕ) (m : Id) :
    (slice pid tid name start stop m).filterMap (phaseOf m) = if stop ≤ start then [] else [((start : ℤ), stop - start)] := by
  unfold slice
  split <;> simp [phaseOf]

theorem tiles_slice (pid tid : ℕ) (name : SliceName) {start stop : ℕ} (m : Id) (h : start ≤ stop) :
    Tiling.Tiles start stop ((slice pid tid name start stop m).filterMap (phaseOf m)) := by
  rw [phases_slice]
  split
  · show (start : ℤ) = stop
    omega
  · refine ⟨rfl, by omega, ?_⟩
    show (start : ℤ) + (stop - start : ℕ) = stop
    omega

theorem phases_other {m : MacroOp} {m' : Id} (h : m.id ≠ m') : (instructionEvents T W s m).filterMap (phaseOf m') = [] := by
  rw [List.filterMap_eq_nil_iff]
  intro e he
  simp only [instructionEvents, slice, List.mem_append, List.mem_singleton] at he
  rcases he with ((rfl | he) | he) | he
  · rfl
  all_goals
    split at he
    · cases he
    · rw [List.mem_singleton.mp he]
      simp [phaseOf, h]

/-- What one element of a list without repetitions gives, when the others give nothing. -/
theorem flatMap_single {α β : Type*} {f : α → List β} {a : α} : ∀ {l : List α}, l.Nodup → a ∈ l →
    (∀ b ∈ l, b ≠ a → f b = []) → l.flatMap f = f a
  | [], _, h, _ => absurd h List.not_mem_nil
  | b :: l, hn, h, hrest => by
    obtain ⟨hb, hn⟩ := List.nodup_cons.mp hn
    rw [List.flatMap_cons]
    rcases List.mem_cons.mp h with rfl | h
    · have hnil : l.flatMap f = [] := by
        rw [List.flatMap_eq_nil_iff]
        exact fun c hc => hrest c (List.mem_cons_of_mem _ hc) fun he => hb (he ▸ hc)
      rw [hnil, List.append_nil]
    · rw [hrest b List.mem_cons_self fun he => hb (he ▸ h), List.nil_append]
      exact flatMap_single hn h fun c hc => hrest c (List.mem_cons_of_mem _ hc)

/-- The first issue of a macro-op lies between its dispatch and its completion. -/
theorem firstIssue (h : Ended T inOrder s.toCore) {m : MacroOp} (hm : m ∈ selectedMacros T W) {d t : ℕ}
    (hd : (s.macro_ m.id).dispatchTick = some d) (ht : (s.macro_ m.id).completeTick = some t) :
    ∃ i, (issueTicksOf T W s m).min? = some i ∧ d ≤ i ∧ i ≤ t := by
  have hT := h.wellFormed
  have hmem := (mem_selectedMacros.mp hm).1
  have hticks : ∀ i, i ∈ issueTicksOf T W s m ↔ ∃ x ∈ T.uops, x.parentId = m.id ∧ (s.uop x.id).issueTick = some i := by
    intro i
    simp only [issueTicksOf, List.mem_filterMap, mem_selectedUops]
    constructor
    · rintro ⟨x, ⟨hx, -⟩, hi⟩
      split at hi
      · next hp => exact ⟨x, hx, hp, hi⟩
      · cases hi
    · rintro ⟨x, hx, hp, hi⟩
      exact ⟨x, ⟨hx, m, hm, hp.symm⟩, by rw [if_pos hp]; exact hi⟩
  -- the parent of a uop lists it
  have hlisted : ∀ x ∈ T.uops, x.parentId = m.id → x.id ∈ m.uopIds := by
    intro x hx hp
    obtain ⟨m', hm', -, hid, hu⟩ := hT.mem_parent hx
    have he : m' = m := Option.some.inj ((hT.macro?_eq hm').symm.trans ((hid.trans hp) ▸ hT.macro?_eq hmem))
    exact he ▸ hu
  obtain ⟨u, hu⟩ := List.exists_mem_of_ne_nil _ (hT.macroUops m hmem)
  obtain ⟨x, hx, hp⟩ := hT.owned m hmem u hu
  obtain ⟨hxmem, rfl⟩ := T.uop?_mem hx
  obtain ⟨-, -, i₀, -, -, -, hi₀, -⟩ := h.ordered.uop x hxmem
  have hne : issueTicksOf T W s m ≠ [] := List.ne_nil_of_mem ((hticks i₀).mpr ⟨x, hxmem, hp, hi₀⟩)
  obtain ⟨i, hi⟩ := Option.ne_none_iff_exists'.mp (mt List.min?_eq_none_iff.mp hne)
  obtain ⟨y, hy, hpy, hiy⟩ := (hticks i).mp (List.min?_eq_some_iff.mp hi).1
  refine ⟨i, hi, ?_, ?_⟩
  · obtain ⟨d', r', i', t', hd', -, hi', -, hdr, hri, -⟩ := h.ordered.uop y hy
    obtain rfl : i' = i := Option.some.inj (hi'.symm.trans hiy)
    obtain ⟨e, hle, he⟩ := h.recorded.entered m hmem y.id (hlisted y hy hpy) d' hd'
    obtain rfl : e = d := Option.some.inj (he.symm.trans hd)
    omega
  · obtain ⟨t', ht', hall, -⟩ := h.ordered.macroComplete m hmem
    obtain rfl : t' = t := Option.some.inj (ht'.symm.trans ht)
    obtain ⟨t₁, ht₁, hle⟩ := hall y.id (hlisted y hy hpy)
    obtain ⟨-, -, i', t₂, -, -, hi', ht₂, -, -, hlatency⟩ := h.ordered.uop y hy
    obtain rfl : i' = i := Option.some.inj (hi'.symm.trans hiy)
    obtain rfl : t₂ = t₁ := Option.some.inj (ht₂.symm.trans ht₁)
    omega

/-- **The phases of an instruction follow on one another.** -/
theorem phases_tile (h : Ended T inOrder s.toCore) {m : MacroOp} (hm : m ∈ selectedMacros T W) :
    ∃ d r : ℕ, (s.macro_ m.id).dispatchTick = some d ∧ (s.macro_ m.id).retireTick = some r ∧
      Tiling.Tiles d r ((instructionEvents T W s m).filterMap (phaseOf m.id)) := by
  have hmem := (mem_selectedMacros.mp hm).1
  obtain ⟨t, r, ht, hr, htr⟩ := h.ordered.macroRetire m hmem
  obtain ⟨u, hu⟩ := List.exists_mem_of_ne_nil _ (h.wellFormed.macroUops m hmem)
  obtain ⟨x, hx, -⟩ := h.wellFormed.owned m hmem u hu
  obtain ⟨hxmem, rfl⟩ := T.uop?_mem hx
  obtain ⟨d', -, -, -, hd', -⟩ := h.ordered.uop x hxmem
  obtain ⟨d, -, hd⟩ := h.recorded.entered m hmem _ hu d' hd'
  obtain ⟨i, hi, hdi, hit⟩ := firstIssue h hm hd ht
  refine ⟨d, r, hd, hr, ?_⟩
  have hwaiting := tiles_slice pidInstructions (m.sequence + 1) .waiting m.id hdi
  have hexecuting := tiles_slice pidInstructions (m.sequence + 1) .executing m.id hit
  have hretire := tiles_slice pidInstructions (m.sequence + 1) .retireWait m.id htr
  have htiles := (hwaiting.append hexecuting).append hretire
  simpa [instructionEvents, hd, hi, ht, hr, phaseOf, List.filterMap_cons] using htiles

/-! ### The tracks of the resources -/

/-- The slice of a uop: its track, its start, its length and the uop. -/
def uopSliceOf : TraceEvent → Option (ℕ × ℕ × ℕ × Id)
  | .uop _ tid ts dur u => some (tid, ts, dur, u)
  | _ => none

/-- The track of a uop. -/
def trackIn (s : Machine) (tids : List LaneKey) (u : Id) : ℕ := number tids ((laneOf s u).getD ("", 0))

/-- A uop that the export draws. -/
structure Traced (s : Machine) (u : Id) : Prop where
  issue : ∃ i, (s.uop u).issueTick = some i
  complete : ∃ t, (s.uop u).completeTick = some t
  lane : ∃ key, laneOf s u = some key

def slicesIn (s : Machine) (tids : List LaneKey) (l : List ExecutionUop) : List (ℕ × ℕ × ℕ × Id) :=
  l.map fun x => (trackIn s tids x.id, (s.uop x.id).issueTick.getD 0, max x.occupancyTicks 1, x.id)

/-- What the loop over the uops leaves behind. -/
structure Recording (s : Machine) (l : List ExecutionUop) (r r' : List LaneKey × List TraceEvent) : Prop where
  grows : r.1 <+: r'.1
  known : ∀ x ∈ l, ∀ key ∈ laneOf s x.id, key ∈ r'.1
  slices : r'.2.filterMap uopSliceOf = r.2.filterMap uopSliceOf ++ slicesIn s r'.1 l
  kinds : ∀ e ∈ r'.2, e ∈ r.2 ∨ (∃ pid tid name, e = .threadName pid tid name) ∨ ∃ pid tid ts dur u, e = .uop pid tid ts dur u

theorem recordUop_eq {r : List LaneKey × List TraceEvent} {x : ExecutionUop} {i : ℕ} {key : LaneKey}
    (hi : (s.uop x.id).issueTick = some i) (ht : ∃ t, (s.uop x.id).completeTick = some t) (hkey : laneOf s x.id = some key) :
    recordUop s r x = (enter r.1 key,
      r.2 ++ (if key ∈ r.1 then [] else [.threadName pidResources (number (enter r.1 key) key) (.lane key)]) ++
        [.uop pidResources (number (enter r.1 key) key) i (max x.occupancyTicks 1) x.id]) := by
  obtain ⟨t, ht⟩ := ht
  simp only [recordUop, hi, ht, hkey]

theorem recordUops {l : List ExecutionUop} (hall : ∀ x ∈ l, Traced s x.id) (r : List LaneKey × List TraceEvent) :
    Recording s l r (l.foldl (recordUop s) r) := by
  induction l generalizing r with
  | nil => exact ⟨List.prefix_refl _, by simp, by simp [slicesIn], fun e he => .inl he⟩
  | cons x l ih =>
    obtain ⟨i, hi⟩ := (hall x List.mem_cons_self).issue
    obtain ⟨key, hkey⟩ := (hall x List.mem_cons_self).lane
    have hstep := recordUop_eq (r := r) hi (hall x List.mem_cons_self).complete hkey
    have hrest := ih (fun y hy => hall y (List.mem_cons_of_mem _ hy)) (recordUop s r x)
    rw [List.foldl_cons]
    set r' := l.foldl (recordUop s) (recordUop s r x)
    have hfirst : (recordUop s r x).1 = enter r.1 key := by rw [hstep]
    have hin : key ∈ r'.1 := hrest.grows.subset (hfirst ▸ mem_enter r.1 key)
    have hnumber : number (enter r.1 key) key = trackIn s r'.1 x.id := by
      rw [trackIn, hkey, Option.getD_some]
      exact (number_grow (hfirst ▸ hrest.grows) (mem_enter r.1 key)).symm
    refine ⟨(hfirst ▸ prefix_enter r.1 key).trans hrest.grows, fun y hy k hk => ?_, ?_, fun e he => ?_⟩
    · rcases List.mem_cons.mp hy with rfl | hy
      · obtain rfl : key = k := Option.some.inj (hkey.symm.trans hk)
        exact hin
      · exact hrest.known y hy k hk
    · have hslices : (recordUop s r x).2.filterMap uopSliceOf = r.2.filterMap uopSliceOf ++
          [(trackIn s r'.1 x.id, i, max x.occupancyTicks 1, x.id)] := by
        rw [hstep, hnumber]
        split <;> simp [uopSliceOf, List.filterMap_cons]
      rw [hrest.slices, hslices, slicesIn, slicesIn, List.map_cons, hi, Option.getD_some]
      simp
    · rcases hrest.kinds e he with hin | hnew
      · rw [hstep] at hin
        simp only [List.mem_append, List.mem_singleton] at hin
        rcases hin with (hin | hin) | rfl
        · exact .inl hin
        · split at hin
          · cases hin
          · rw [List.mem_singleton.mp hin]
            exact .inr (.inl ⟨_, _, _, rfl⟩)
        · exact .inr (.inr ⟨_, _, _, _, _, rfl⟩)
      · exact .inr hnew

/-! ### The arrows -/

def isFlow : TraceEvent → Bool
  | .flowStart _ _ _ _ => true
  | .flowFinish _ _ _ _ => true
  | _ => false

/-- The dependencies of a consumer inside the window, each with its producer. -/
def producersOf (T : BoundTrace) (W : Window) (before : Id → Id → Bool) (x : ExecutionUop) : List ExecutionUop :=
  (x.dependencies.mergeSort before).filterMap fun p => (selectedUops T W).find? (·.id = p)

/-- The producers and consumers of the window, in the order of the arrows. -/
def windowPairs (T : BoundTrace) (W : Window) (before : Id → Id → Bool) : List (ExecutionUop × ExecutionUop) :=
  (selectedUops T W).flatMap fun x => (producersOf T W before x).map fun y => (y, x)

/-- An arrow with its number. -/
def arrow (s : Machine) (track : Id → ℕ) (e : (ExecutionUop × ExecutionUop) × ℕ) : List TraceEvent :=
  [.flowStart pidResources (track e.1.1.id) ((s.uop e.1.1.id).completeTick.getD 0) e.2,
    .flowFinish pidResources (track e.1.2.id) ((s.uop e.1.2.id).issueTick.getD 0) e.2]

theorem trackOf_eq {tids : List LaneKey} {u : Id} {key : LaneKey} (hkey : laneOf s u = some key) (hin : key ∈ tids) :
    trackOf s tids u = .ok (trackIn s tids u) := by
  simp only [trackOf, trackIn, hkey, if_pos hin, Option.getD_some]

theorem recordArrow_fold {tids : List LaneKey} {x : ExecutionUop} (hx : x ∈ selectedUops T W)
    (hall : ∀ y ∈ selectedUops T W, Traced s y.id) (hin : ∀ y ∈ selectedUops T W, ∀ key ∈ laneOf s y.id, key ∈ tids)
    {i : ℕ} (hi : (s.uop x.id).issueTick = some i) (ps : List Id) (r : ℕ × List TraceEvent) :
    let found := (ps.filterMap fun p => (selectedUops T W).find? (·.id = p)).map fun y => (y, x)
    ps.foldlM (recordArrow T W s tids x i) r =
      .ok (r.1 + found.length, r.2 ++ (found.zipIdx r.1).flatMap (arrow s (trackIn s tids))) := by
  induction ps generalizing r with
  | nil => simp [pure, Except.pure]
  | cons p ps ih =>
    rw [List.foldlM_cons]
    cases hp : (selectedUops T W).find? (·.id = p) with
    | none =>
      have hstep : recordArrow T W s tids x i r p = .ok r := by simp only [recordArrow, hp]
      rw [hstep]
      simpa [hp, Bind.bind, Except.bind] using ih r
    | some y =>
      have hy := List.mem_of_find?_eq_some hp
      obtain ⟨t, ht⟩ := (hall y hy).complete
      obtain ⟨key, hkey⟩ := (hall y hy).lane
      obtain ⟨key', hkey'⟩ := (hall x hx).lane
      obtain ⟨res, hres, -⟩ := Option.map_eq_some_iff.mp hkey
      have hstep : recordArrow T W s tids x i r p = .ok (r.1 + 1, r.2 ++ arrow s (trackIn s tids) ((y, x), r.1)) := by
        simp only [recordArrow, hp, ht, hres, trackOf_eq hkey (hin y hy key hkey), trackOf_eq hkey' (hin x hx key' hkey'),
          Bind.bind, Except.bind, arrow, hi, Option.getD_some]
      rw [hstep]
      have hrest := ih (r.1 + 1, r.2 ++ arrow s (trackIn s tids) ((y, x), r.1))
      simp only [Bind.bind, Except.bind]
      rw [hrest]
      simp [hp, List.zipIdx_cons, Nat.add_assoc, Nat.add_comm 1]

theorem recordArrows_fold {before : Id → Id → Bool} {tids : List LaneKey}
    (hall : ∀ y ∈ selectedUops T W, Traced s y.id) (hin : ∀ y ∈ selectedUops T W, ∀ key ∈ laneOf s y.id, key ∈ tids)
    {l : List ExecutionUop} (hl : ∀ x ∈ l, x ∈ selectedUops T W) (r : ℕ × List TraceEvent) :
    let pairs := l.flatMap fun x => (producersOf T W before x).map fun y => (y, x)
    l.foldlM (recordArrows T W s before tids) r =
      .ok (r.1 + pairs.length, r.2 ++ (pairs.zipIdx r.1).flatMap (arrow s (trackIn s tids))) := by
  induction l generalizing r with
  | nil => simp [pure, Except.pure]
  | cons x l ih =>
    have hx := hl x List.mem_cons_self
    obtain ⟨i, hi⟩ := (hall x hx).issue
    have hstep := recordArrow_fold hx hall hin hi (x.dependencies.mergeSort before) r
    have hrest := ih (fun y hy => hl y (List.mem_cons_of_mem _ hy))
    have hfirst : recordArrows T W s before tids r x =
        (x.dependencies.mergeSort before).foldlM (recordArrow T W s tids x i) r := by
      simp only [recordArrows, hi]
    rw [List.foldlM_cons, hfirst, hstep]
    simp only [Bind.bind, Except.bind]
    rw [hrest, List.flatMap_cons, List.zipIdx_append, List.flatMap_append, List.length_append, producersOf]
    simp [Nat.add_assoc]

/-- Sorting does not change how often a uop waits for another one. -/
theorem count_producersOf (hT : WellFormed T) (before : Id → Id → Bool) (x : ExecutionUop) {y : ExecutionUop}
    (hy : y ∈ selectedUops T W) : (producersOf T W before x).count y = x.dependencies.count y.id := by
  have hfind : ∀ p : Id, (selectedUops T W).find? (·.id = p) = some y ↔ p = y.id := by
    intro p
    constructor
    · intro hp
      simpa [eq_comm] using List.find?_some hp
    · rintro rfl
      obtain ⟨z, hz⟩ := Option.isSome_iff_exists.mp
        (List.find?_isSome.mpr ⟨y, hy, by simp⟩ : ((selectedUops T W).find? (·.id = y.id)).isSome)
      have hzy : z.id = y.id := by simpa using List.find?_some hz
      have hzmem := (mem_selectedUops.mp (List.mem_of_find?_eq_some hz)).1
      have hsame : some z = some y := by
        rw [← hT.uop?_eq hzmem, hzy, hT.uop?_eq (mem_selectedUops.mp hy).1]
      rw [hz, hsame]
  rw [producersOf, List.count_filterMap, ← (List.mergeSort_perm x.dependencies before).count_eq, List.count_eq_countP]
  refine List.countP_congr fun p _ => ?_
  rw [beq_iff_eq, beq_iff_eq, hfind p]

/-! ### The document -/

/-- What the exported events show of a run; `track` numbers the tracks of the uops. -/
structure Drawn (T : BoundTrace) (W : Window) (s : Machine) (before : Id → Id → Bool) (track : Id → ℕ)
    (events : List TraceEvent) : Prop where
  /-- The phases of an instruction tile the time from its dispatch to its retirement. -/
  phases : ∀ m ∈ selectedMacros T W, ∃ d r : ℕ, (s.macro_ m.id).dispatchTick = some d ∧
    (s.macro_ m.id).retireTick = some r ∧ Tiling.Tiles d r (events.filterMap (phaseOf m.id))
  /-- Each uop of the window has one slice, from its issue on. -/
  slices : events.filterMap uopSliceOf =
    (selectedUops T W).map fun x => (track x.id, (s.uop x.id).issueTick.getD 0, max x.occupancyTicks 1, x.id)
  /-- Two uops share a track just where they share a lane. -/
  tracks : ∀ x ∈ selectedUops T W, ∀ y ∈ selectedUops T W, track x.id = track y.id ↔ laneOf s x.id = laneOf s y.id
  /-- Slices of uops that occupy their lane do not overlap on a track. -/
  apart : ∀ x ∈ selectedUops T W, ∀ y ∈ selectedUops T W, x ≠ y → track x.id = track y.id →
    0 < x.occupancyTicks → 0 < y.occupancyTicks → ∀ i j, (s.uop x.id).issueTick = some i →
    (s.uop y.id).issueTick = some j → i + max x.occupancyTicks 1 ≤ j ∨ j + max y.occupancyTicks 1 ≤ i
  /-- The arrows are numbered from one, each between the tracks of its two uops. -/
  arrows : events.filter isFlow = ((windowPairs T W before).zipIdx 1).flatMap (arrow s track)
  /-- They are the dependencies inside the window, as often as a uop lists them. -/
  dependencies : ∀ x ∈ selectedUops T W, ∀ y ∈ selectedUops T W,
    (windowPairs T W before).count (y, x) = x.dependencies.count y.id
  /-- An arrow leads forward in time. -/
  forward : ∀ p ∈ windowPairs T W before, ∃ t i, (s.uop p.1.id).completeTick = some t ∧
    (s.uop p.2.id).issueTick = some i ∧ t ≤ i

theorem selected_traced (h : Ended T inOrder s.toCore) (hp : Placed T s) : ∀ x ∈ selectedUops T W, Traced s x.id := by
  intro x hx
  have hmem := (mem_selectedUops.mp hx).1
  obtain ⟨-, -, i, t, -, -, hi, ht, -⟩ := h.ordered.uop x hmem
  obtain ⟨r, hr⟩ := hp.lane x hmem
  exact ⟨⟨i, hi⟩, ⟨t, ht⟩, (r, (s.placement x.id).lane), by rw [laneOf, hr]; rfl⟩

theorem mem_windowPairs {before : Id → Id → Bool} {p : ExecutionUop × ExecutionUop} (h : p ∈ windowPairs T W before) :
    p.1 ∈ selectedUops T W ∧ p.2 ∈ selectedUops T W ∧ p.1.id ∈ p.2.dependencies := by
  obtain ⟨x, hx, hp⟩ := List.mem_flatMap.mp h
  obtain ⟨y, hy, rfl⟩ := List.mem_map.mp hp
  obtain ⟨u, hu, hfind⟩ := List.mem_filterMap.mp hy
  have hid : y.id = u := by simpa using List.find?_some hfind
  exact ⟨List.mem_of_find?_eq_some hfind, hx, hid ▸ List.mem_mergeSort.mp hu⟩

theorem count_windowPairs (hT : WellFormed T) {before : Id → Id → Bool} {x y : ExecutionUop} (hx : x ∈ selectedUops T W)
    (hy : y ∈ selectedUops T W) : (windowPairs T W before).count (y, x) = x.dependencies.count y.id := by
  have hnodup : (selectedUops T W).Nodup := (hT.uopIds.of_map _).filter _
  -- the pairs of other consumers are other pairs
  have hsingle := flatMap_single (f := fun z => ((producersOf T W before z).map fun y' => (y', z)).filter (· == (y, x)))
    hnodup hx fun z _ hz => by
      rw [List.filter_eq_nil_iff]
      intro p hp he
      obtain ⟨y', -, rfl⟩ := List.mem_map.mp hp
      exact hz (Prod.mk.inj (beq_iff_eq.mp he)).2
  rw [windowPairs, List.count_eq_length_filter, List.filter_flatMap, hsingle, ← List.count_eq_length_filter,
    ← count_producersOf hT before x hy]
  exact List.count_map_of_injective _ _ (fun a b hab => (Prod.mk.inj hab).1) y

/-- Every event of the arrows is one of an arrow. -/
theorem flows_arrow (track : Id → ℕ) (l : List ((ExecutionUop × ExecutionUop) × ℕ)) :
    ∀ e ∈ l.flatMap (arrow s track), (∃ pid tid ts id, e = .flowStart pid tid ts id) ∨
      ∃ pid tid ts id, e = .flowFinish pid tid ts id := by
  intro e he
  obtain ⟨p, -, he⟩ := List.mem_flatMap.mp he
  rcases List.mem_cons.mp he with rfl | he
  · exact .inl ⟨_, _, _, _, rfl⟩
  · rw [List.mem_singleton.mp he]
    exact .inr ⟨_, _, _, _, rfl⟩

/-- An event of the counters, or a name. -/
def isLabel : TraceEvent → Bool
  | .processName _ _ => true
  | .threadName _ _ _ => true
  | .counter _ _ _ _ _ => true
  | _ => false

theorem counterEvents_label {n : ℕ} {k : Track} : ∀ e ∈ counterEvents T s n k, isLabel e = true := by
  intro e he
  rcases List.mem_cons.mp he with rfl | he
  · rfl
  · obtain ⟨_, -, rfl⟩ := List.mem_map.mp he
    rfl

theorem instructionEvents_kind {m : MacroOp} : ∀ e ∈ instructionEvents T W s m,
    isLabel e = true ∨ ∃ pid tid name ts dur m', e = .slice pid tid name ts dur m' := by
  intro e he
  simp only [instructionEvents, slice, List.mem_append, List.mem_singleton] at he
  rcases he with ((rfl | he) | he) | he
  · exact .inl rfl
  all_goals
    split at he
    · cases he
    · rw [List.mem_singleton.mp he]
      exact .inr ⟨_, _, _, _, _, _, rfl⟩

section Document

variable {names counters instructions resources flows : List TraceEvent} (hn : ∀ e ∈ names, isLabel e = true)
  (hc : ∀ e ∈ counters, isLabel e = true)
  (hi : ∀ e ∈ instructions, isLabel e = true ∨ ∃ pid tid name ts dur m, e = .slice pid tid name ts dur m)
  (hr : ∀ e ∈ resources, isLabel e = true ∨ ∃ pid tid ts dur u, e = .uop pid tid ts dur u)
  (hf : ∀ e ∈ flows, (∃ pid tid ts id, e = .flowStart pid tid ts id) ∨ ∃ pid tid ts id, e = .flowFinish pid tid ts id)

theorem phaseOf_label {e : TraceEvent} (m : Id) (h : isLabel e = true) : phaseOf m e = none := by
  cases e <;> simp_all [isLabel, phaseOf]

theorem uopSliceOf_label {e : TraceEvent} (h : isLabel e = true) : uopSliceOf e = none := by
  cases e <;> simp_all [isLabel, uopSliceOf]

theorem isFlow_label {e : TraceEvent} (h : isLabel e = true) : isFlow e = false := by
  cases e <;> simp_all [isLabel, isFlow]

include hn hc hr hf in
/-- The slices of an instruction are those of the loop over the instructions. -/
theorem document_phases (m : Id) : (names ++ instructions ++ resources ++ flows ++ counters).filterMap (phaseOf m) =
    instructions.filterMap (phaseOf m) := by
  have h1 : names.filterMap (phaseOf m) = [] := List.filterMap_eq_nil_iff.mpr fun e he => phaseOf_label m (hn e he)
  have h2 : counters.filterMap (phaseOf m) = [] := List.filterMap_eq_nil_iff.mpr fun e he => phaseOf_label m (hc e he)
  have h3 : resources.filterMap (phaseOf m) = [] := by
    refine List.filterMap_eq_nil_iff.mpr fun e he => ?_
    rcases hr e he with hl | ⟨_, _, _, _, _, rfl⟩
    · exact phaseOf_label m hl
    · rfl
  have h4 : flows.filterMap (phaseOf m) = [] := by
    refine List.filterMap_eq_nil_iff.mpr fun e he => ?_
    rcases hf e he with ⟨_, _, _, _, rfl⟩ | ⟨_, _, _, _, rfl⟩ <;> rfl
  simp [h1, h2, h3, h4]

include hn hc hi hf in
/-- The slices of the uops are those of the loop over the uops. -/
theorem document_slices : (names ++ instructions ++ resources ++ flows ++ counters).filterMap uopSliceOf =
    resources.filterMap uopSliceOf := by
  have h1 : names.filterMap uopSliceOf = [] := List.filterMap_eq_nil_iff.mpr fun e he => uopSliceOf_label (hn e he)
  have h2 : counters.filterMap uopSliceOf = [] := List.filterMap_eq_nil_iff.mpr fun e he => uopSliceOf_label (hc e he)
  have h3 : instructions.filterMap uopSliceOf = [] := by
    refine List.filterMap_eq_nil_iff.mpr fun e he => ?_
    rcases hi e he with hl | ⟨_, _, _, _, _, _, rfl⟩
    · exact uopSliceOf_label hl
    · rfl
  have h4 : flows.filterMap uopSliceOf = [] := by
    refine List.filterMap_eq_nil_iff.mpr fun e he => ?_
    rcases hf e he with ⟨_, _, _, _, rfl⟩ | ⟨_, _, _, _, rfl⟩ <;> rfl
  simp [h1, h2, h3, h4]

include hn hc hi hr hf in
/-- The arrows are those of the loop over the consumers. -/
theorem document_flows : (names ++ instructions ++ resources ++ flows ++ counters).filter isFlow = flows := by
  have h1 : names.filter isFlow = [] := by
    rw [List.filter_eq_nil_iff]
    intro e he
    simp [isFlow_label (hn e he)]
  have h2 : counters.filter isFlow = [] := by
    rw [List.filter_eq_nil_iff]
    intro e he
    simp [isFlow_label (hc e he)]
  have h3 : instructions.filter isFlow = [] := by
    rw [List.filter_eq_nil_iff]
    intro e he
    rcases hi e he with hl | ⟨_, _, _, _, _, _, rfl⟩
    · simp [isFlow_label hl]
    · simp [isFlow]
  have h4 : resources.filter isFlow = [] := by
    rw [List.filter_eq_nil_iff]
    intro e he
    rcases hr e he with hl | ⟨_, _, _, _, _, rfl⟩
    · simp [isFlow_label hl]
    · simp [isFlow]
  have h5 : flows.filter isFlow = flows := by
    rw [List.filter_eq_self]
    intro e he
    rcases hf e he with ⟨_, _, _, _, rfl⟩ | ⟨_, _, _, _, rfl⟩ <;> rfl
  simp [h1, h2, h3, h4, h5]

end Document

/-- **The export of a run that has ended raises nothing and draws it.** -/
theorem writePerfetto_drawn (h : Ended T inOrder s.toCore) (hp : Placed T s) (W : Window) (before : Id → Id → Bool) :
    ∃ events track, writePerfetto T W s before = .ok events ∧ Drawn T W s before track events := by
  have hT := h.wellFormed
  have hall := @selected_traced T W s inOrder h hp
  have hrec := recordUops hall ([], [])
  set tids := (resourceEvents T W s).1 with htids
  have hin : ∀ y ∈ selectedUops T W, ∀ key ∈ laneOf s y.id, key ∈ tids := hrec.known
  have htracks : ∀ x ∈ selectedUops T W, ∀ y ∈ selectedUops T W,
      trackIn s tids x.id = trackIn s tids y.id ↔ laneOf s x.id = laneOf s y.id := by
    intro x hx y hy
    obtain ⟨key, hkey⟩ := (hall x hx).lane
    obtain ⟨key', hkey'⟩ := (hall y hy).lane
    rw [trackIn, trackIn, hkey, hkey', Option.getD_some, Option.getD_some, number_inj (hin x hx key hkey),
      Option.some.injEq]
  have harrows : arrowEvents T W s before tids = .ok (1 + (windowPairs T W before).length,
      [] ++ ((windowPairs T W before).zipIdx 1).flatMap (arrow s (trackIn s tids))) :=
    recordArrows_fold hall hin (fun _ hx => hx) (1, [])
  have hnames : ∀ e ∈ processNames, isLabel e = true := by simp [processNames, isLabel]
  have hcounters : ∀ e ∈ allCounterEvents T s, isLabel e = true := by
    intro e he
    simp only [allCounterEvents, List.mem_append] at he
    rcases he with ((he | he) | he) | he <;> exact counterEvents_label e he
  have hinstructions : ∀ e ∈ (selectedMacros T W).flatMap (instructionEvents T W s),
      isLabel e = true ∨ ∃ pid tid name ts dur m, e = .slice pid tid name ts dur m := by
    intro e he
    obtain ⟨m, -, he⟩ := List.mem_flatMap.mp he
    exact instructionEvents_kind e he
  have hresources : ∀ e ∈ (resourceEvents T W s).2, isLabel e = true ∨ ∃ pid tid ts dur u, e = .uop pid tid ts dur u := by
    intro e he
    rcases hrec.kinds e he with hnil | ⟨_, _, _, rfl⟩ | huop
    · cases hnil
    · exact .inl rfl
    · exact .inr huop
  have hflows := flows_arrow (s := s) (trackIn s tids) ((windowPairs T W before).zipIdx 1)
  have hdocument : writePerfetto T W s before = .ok (processNames ++
      (selectedMacros T W).flatMap (instructionEvents T W s) ++ (resourceEvents T W s).2 ++
      ((windowPairs T W before).zipIdx 1).flatMap (arrow s (trackIn s tids)) ++ allCounterEvents T s) := by
    unfold writePerfetto
    dsimp only
    rw [← htids, harrows]
    rfl
  refine ⟨_, trackIn s tids, hdocument, ?_⟩
  refine { phases := fun m hm => ?_, slices := ?_, tracks := fun x hx y hy => ?_, apart := ?_, arrows := ?_,
           dependencies := fun x hx y hy => count_windowPairs hT hx hy, forward := fun p hpair => ?_ }
  · obtain ⟨d, r, hd, hr, htiles⟩ := phases_tile h hm
    refine ⟨d, r, hd, hr, ?_⟩
    have hnodup : (selectedMacros T W).Nodup := (hT.macroIds.of_map _).filter _
    have hsingle : ((selectedMacros T W).flatMap (instructionEvents T W s)).filterMap (phaseOf m.id) =
        (instructionEvents T W s m).filterMap (phaseOf m.id) := by
      rw [List.filterMap_flatMap]
      refine flatMap_single hnodup hm fun m' hm' hne => phases_other fun hid => hne ?_
      exact Option.some.inj ((hT.macro?_eq (mem_selectedMacros.mp hm').1).symm.trans
        (hid ▸ hT.macro?_eq (mem_selectedMacros.mp hm).1))
    rw [document_phases hnames hcounters hresources hflows, hsingle]
    exact htiles
  · rw [document_slices hnames hcounters hinstructions hflows]
    exact hrec.slices
  · exact htracks x hx y hy
  · intro x hx y hy hxy htrack hox hoy i j hi hj
    have hlane := (htracks x hx y hy).mp htrack
    obtain ⟨r, hr⟩ := hp.lane x (mem_selectedUops.mp hx).1
    obtain ⟨r', hr'⟩ := hp.lane y (mem_selectedUops.mp hy).1
    simp only [laneOf, hr, hr', Option.map_some, Option.some.injEq, Prod.mk.injEq] at hlane
    obtain ⟨rfl, hl⟩ := hlane
    rw [max_eq_left hox, max_eq_left hoy]
    exact hp.apart x (mem_selectedUops.mp hx).1 y (mem_selectedUops.mp hy).1 hxy i j r hi hj hr hr' hl
  · exact document_flows hnames hcounters hinstructions hresources hflows
  · obtain ⟨hp1, hp2, hdep⟩ := mem_windowPairs hpair
    obtain ⟨t, ht⟩ := (hall p.1 hp1).complete
    obtain ⟨i, hi⟩ := (hall p.2 hp2).issue
    exact ⟨t, i, ht, hi, h.ordered.dependency p.2 (mem_selectedUops.mp hp2).1 p.1.id hdep i t hi ht⟩

end Export

theorem Zen4.HazardFree.placed {E : Setup} {s : Machine} (h : Zen4.HazardFree E s)
    (hissued : ∀ x ∈ E.trace.uops, (s.uop x.id).issueTick.isSome) : Placed E.trace s where
  lane x hx := by
    obtain ⟨r, -, hr, -⟩ := h.lane x hx (hissued x hx)
    exact ⟨r, hr⟩
  apart := h.lanes

theorem Xsai.HazardFree.placed {E : Xsai.Config} {s : Xsai.Sched} (h : Xsai.HazardFree E s)
    (hissued : ∀ x ∈ E.trace.uops, (s.uop x.id).issueTick.isSome) : Placed E.trace s.toMachine where
  lane x hx := by
    obtain ⟨r, hr, -⟩ := h.lane x hx (hissued x hx)
    exact ⟨r, hr⟩
  apart := h.lanes

theorem Ended.issued {T : BoundTrace} {inOrder : Bool} {c : Core} (h : Ended T inOrder c) :
    ∀ x ∈ T.uops, (c.uop x.id).issueTick.isSome := by
  intro x hx
  obtain ⟨-, -, i, -, -, -, hi, -⟩ := h.ordered.uop x hx
  rw [hi]
  rfl

/-- The window of the two macro-ops of sums: the load before it, which both wait for, is outside. -/
def Sample.sumsWindow : Export.Window := { start := 1, limit := 2 }

end VectorSim
