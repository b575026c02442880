/-
# A working set in L1

A hierarchy that is constructed in the `hot-l1` mode has its working set in L1.
While it is accessed for lines of the working set alone it stays that way
(`Hot`): each access is served by L1, nothing is requested or evicted, and no
parameter of a level below is read (`hot_closed`). An access to no line is not
served by L1: the worst level of no line is the last one, `level_order[-1]`
(`served_by_last`).
-/
import VectorSim.Memory.Polling

namespace VectorSim
namespace MemoryConfig

open Checked

variable {C C' : MemoryConfig} {s s' : MemoryState} {now : ℕ} {lines : List ℤ} {a : MemoryAccess}

/-- The L1 holds the working set and nothing else has ever been asked for. -/
structure Hot (C : MemoryConfig) (lines : List ℤ) (s : MemoryState) : Prop where
  lawful : Lawful C s
  /-- No line has been evicted from L1, and none has come in. -/
  resident : ∀ x, C.contains s 0 x = true ↔ x ∈ lines
  pendingFills : s.pendingFills = []
  hits : ∀ l, 0 < l → s.hits l = 0
  outstanding : ∀ l, s.outstanding l = []
  bandwidthFree : ∀ l, 0 < l → ∀ k, s.bandwidthFree l k = 0

/-- The access names lines of the working set. -/
def Inside (lines : List ℤ) (a : MemoryAccess) : Prop := ∀ x ∈ a.cacheLines, x ∈ lines

/-- The access names a line, or L1 is the only level. -/
def Served (C : MemoryConfig) (a : MemoryAccess) : Prop := a.cacheLines ≠ [] ∨ C.levels.length = 1

/-- Calls about lines of the working set that L1 is to serve. -/
def HotCall (C : MemoryConfig) (lines : List ℤ) (c : Call) : Prop :=
  ∀ a, c.operand = some a → Inside lines a ∧ Served C a

theorem missPath_zero (hC : 0 < C.levels.length) : C.missPath 0 = [] := by
  unfold missPath dramLevel
  rw [if_neg (by omega)]
  rfl

/-! ### What L1 serves -/

theorem Hot.completeFills (h : Hot C lines s) (now : ℕ) : C.completeFills s now = s :=
  completeFills_eq_self fun f hf => by
    rw [h.pendingFills] at hf
    exact (List.not_mem_nil hf).elim

theorem Hot.lineLevel (hC : 0 < C.levels.length) (h : Hot C lines s) {x : ℤ} (hx : x ∈ lines) :
    C.lineLevel s x = 0 := by
  obtain ⟨n, hn⟩ := Nat.exists_eq_succ_of_ne_zero hC.ne'
  have hin := (h.resident x).mpr hx
  have hfind : (List.range C.levels.length).find? (fun l => C.contains s l x) = some 0 := by
    rw [hn, List.range_succ_eq_map]
    exact List.find?_cons_of_pos hin
  unfold MemoryConfig.lineLevel
  rw [h.pendingFills, List.find?_nil]
  dsimp only
  rw [hfind]
  rfl

/-- The level that serves an access to lines of the working set. -/
theorem Hot.worstLevel (hC : 0 < C.levels.length) (h : Hot C lines s) (ha : Inside lines a) :
    C.worstLevel s a.cacheLines = 0 ↔ Served C a := by
  unfold MemoryConfig.worstLevel Served
  split
  · next hnil =>
    rw [hnil]
    simp only [ne_eq, not_true_eq_false, false_or]
    omega
  · next hne =>
    have hall : a.cacheLines.map (C.lineLevel s) = a.cacheLines.map fun _ => 0 :=
      List.map_congr_left fun x hx => h.lineLevel hC (ha x hx)
    have hzero : ∀ l : List ℤ, (l.map fun _ => 0).foldl max 0 = 0 := by
      intro l
      induction l with
      | nil => rfl
      | cons x l ih => exact ih
    rw [hall, hzero]
    exact iff_of_true rfl (.inl hne)

/-- The check of an access that L1 serves. -/
theorem Hot.blocker (hC : 0 < C.levels.length) (h : Hot C lines s) (ha : Inside lines a) (hs : Served C a) :
    C.blocker s (some a) now = .ok (s, if now < s.bandwidthFree 0 a.access then
      some (.bandwidth, s.bandwidthFree 0 a.access) else none) := by
  have hpend : hasPending s a.cacheLines = false := by
    unfold hasPending
    rw [h.pendingFills]
    simp
  unfold MemoryConfig.blocker peekLevel
  dsimp only [Bind.bind, Except.bind]
  rw [h.completeFills, (h.worstLevel hC ha).mpr hs, hpend, if_neg Bool.false_ne_true, missPath_zero hC]
  split <;> rfl

theorem Hot.peekLevel (hC : 0 < C.levels.length) (h : Hot C lines s) (ha : Inside lines a) (hs : Served C a) :
    C.peekLevel s (some a) now = .ok (s, 0) := by
  unfold MemoryConfig.peekLevel
  dsimp only
  rw [h.completeFills, (h.worstLevel hC ha).mpr hs]

/-- An access that L1 serves is charged at L1. -/
theorem Hot.access (hC : 0 < C.levels.length) (h : Hot C lines s) (ha : Inside lines a) (hs : Served C a) :
    C.access s (some a) now = if now < s.bandwidthFree 0 a.access then .error .accessWhileBlocked
      else C.charge s a 0 now := by
  unfold MemoryConfig.access
  rw [h.blocker hC ha hs]
  by_cases hbusy : now < s.bandwidthFree 0 a.access
  · rw [if_pos hbusy, if_pos hbusy]
    rfl
  · rw [if_neg hbusy, if_neg hbusy]
    dsimp only [Bind.bind, Except.bind]
    rw [h.peekLevel hC ha hs]
    dsimp only
    rw [h.pendingFills]
    rfl

/-- What the charge of an access to the working set leaves. -/
theorem Hot.charge (hC : 0 < C.levels.length) (h : Hot C lines s) (ha : Inside lines a)
    {r : MemoryState × AccessResult} (hr : C.charge s a 0 now = .ok r) :
    Hot C lines r.1 ∧ r.2.level = 0 ∧ (C.levelEntry 0).latencyTicks = some r.2.latencyTicks ∧
      r.2.completionTick = now + r.2.latencyTicks := by
  unfold MemoryConfig.charge at hr
  dsimp only at hr
  split at hr
  · next latency bytes hlatency hbytes =>
    obtain ⟨bandwidth, -, hr⟩ := ok_bind.mp hr
    cases hr
    refine ⟨?_, rfl, hlatency, rfl⟩
    have hin : ∀ x ∈ a.cacheLines, C.contains s 0 x = true := fun x hx => (h.resident x).mpr (ha x hx)
    rw [missPath_zero hC]
    have hframe : ∀ (ls : List ℤ) (u : MemoryState), (C.requestLines u 0 (now + latency) ls).hits = u.hits := by
      intro ls
      induction ls with
      | nil => exact fun _ => rfl
      | cons x ls ih =>
        intro u
        refine (ih (C.touch u 0 x).1).trans ?_
        rw [touch_eq]
        rfl
    refine ⟨?_, fun x => ?_, ?_, fun l hl => ?_, fun l => ?_, fun l hl k => ?_⟩
    · exact Lawful.touchLines _ (h.lawful.congr rfl)
    · refine (contains_requestLines h.lawful hin ?_ _ 0 x).trans (h.resident x)
      rfl
    · rw [requestLines_hit, touchLines_pendingFills]
      exact h.pendingFills
    · rw [hframe]
      dsimp only
      rw [Function.update_of_ne (by omega)]
      exact h.hits l hl
    · rw [(requestLines_outstanding _ _).1]
      dsimp only
      rw [if_neg List.not_mem_nil]
      exact h.outstanding l
    · rw [(requestLines_outstanding _ _).2]
      dsimp only
      rw [Function.update_of_ne (by omega)]
      exact h.bandwidthFree l hl k
  · cases hr

/-- **A call about the working set keeps it in L1.** -/
theorem Hot.call (hC : 0 < C.levels.length) (h : Hot C lines s) {c : Call} (hc : HotCall C lines c)
    (hr : C.call s c = .ok s') : Hot C lines s' := by
  cases c with
  | peekLevel m now =>
    obtain ⟨r, hq, rfl⟩ := ok_map.mp hr
    cases m with
    | none => cases hq
    | some a =>
      obtain ⟨ha, hs⟩ := hc a rfl
      rw [h.peekLevel hC ha hs] at hq
      cases hq
      exact h
  | blocker m now =>
    obtain ⟨r, hq, rfl⟩ := ok_map.mp hr
    cases m with
    | none => cases hq
    | some a =>
      obtain ⟨ha, hs⟩ := hc a rfl
      rw [h.blocker hC ha hs] at hq
      cases hq
      exact h
  | access m now =>
    obtain ⟨r, hq, rfl⟩ := ok_map.mp hr
    cases m with
    | none => cases hq
    | some a =>
      obtain ⟨ha, hs⟩ := hc a rfl
      rw [h.access hC ha hs] at hq
      split at hq
      · cases hq
      · exact (h.charge hC ha hq).1

/-! ### The warmed hierarchy -/

theorem foldl_frame {α β : Type} {f : MemoryState → α → MemoryState} {p : MemoryState → β}
    (hf : ∀ s x, p (f s x) = p s) : ∀ (xs : List α) (s : MemoryState), p (xs.foldl f s) = p s
  | [], _ => rfl
  | x :: xs, s => (foldl_frame hf xs (f s x)).trans (hf s x)

theorem warm_frame {β : Type} {p : MemoryState → β} (hp : ∀ s level line, p (C.touch s level line).1 = p s)
    (target : ℕ) : p (C.warm target lines) = p empty :=
  foldl_frame (fun _ _ => foldl_frame (fun _ _ => hp _ _ _) _ _) _ _

theorem hot_warm (hC : 0 < C.levels.length) (h : C.canHold 0 lines.dedup = true) :
    Hot C lines (C.warm 0 lines.dedup) := by
  refine ⟨.warm _ _, fun x => ?_, warm_pendingFills _ _, fun l _ => ?_, fun l => ?_, fun l _ k => ?_⟩
  · rw [contains_warm lines.nodup_dedup h le_rfl hC, List.mem_dedup]
  · rw [warm_frame (p := MemoryState.hits) (fun s level line => by rw [touch_frame])]
    rfl
  · rw [warm_frame (p := MemoryState.outstanding) (fun s level line => by rw [touch_frame])]
    rfl
  · rw [warm_frame (p := MemoryState.bandwidthFree) (fun s level line => by rw [touch_frame])]
    rfl

/-! ### What is not consulted -/

/-- The hierarchies have the same sets and the same L1; whatever else differs, or is still to be
measured, belongs to the outstanding limits, to the levels below L1 and to DRAM. -/
structure SameL1 (C C' : MemoryConfig) : Prop where
  sets : C'.levels.map (fun l => (l.ways, l.setCount)) = C.levels.map fun l => (l.ways, l.setCount)
  latency : (C'.levelEntry 0).latencyTicks = (C.levelEntry 0).latencyTicks
  read : (C'.levelEntry 0).readBytesPerCycle = (C.levelEntry 0).readBytesPerCycle
  write : (C'.levelEntry 0).writeBytesPerCycle = (C.levelEntry 0).writeBytesPerCycle
  ticksPerCycle : C'.ticksPerCycle = C.ticksPerCycle

theorem SameL1.length (h : SameL1 C C') : C'.levels.length = C.levels.length := by
  simpa using congrArg List.length h.sets

theorem SameL1.level (h : SameL1 C C') (k : ℕ) :
    (C'.levels[k]?.map fun l => (l.ways, l.setCount)) = C.levels[k]?.map fun l => (l.ways, l.setCount) := by
  have := congrArg (·[k]?) h.sets
  simpa using this

theorem SameL1.setIndex (h : SameL1 C C') : C'.setIndex = C.setIndex := by
  funext k x
  have := congrArg (Option.map Prod.snd) (h.level k)
  simp only [Option.map_map, Function.comp_def] at this
  unfold MemoryConfig.setIndex
  rw [this]

theorem SameL1.ways (h : SameL1 C C') : C'.ways = C.ways := by
  funext k
  have := congrArg (Option.map Prod.fst) (h.level k)
  simp only [Option.map_map, Function.comp_def] at this
  unfold MemoryConfig.ways
  rw [this]

theorem SameL1.touch (h : SameL1 C C') : C'.touch = C.touch := by
  funext s k x
  unfold MemoryConfig.touch setLines
  rw [h.setIndex, h.ways]

theorem SameL1.initialState (h : SameL1 C C') (mode : CacheMode) (lines : List ℤ) :
    C'.initialState mode lines = C.initialState mode lines := by
  have hcan : C'.canHold = C.canHold := by
    funext k ls
    unfold canHold
    rw [h.setIndex, h.ways]
  unfold MemoryConfig.initialState warm
  rw [hcan, h.touch, h.length]

theorem SameL1.charge (h : SameL1 C C') (hC : 0 < C.levels.length) :
    C'.charge s a 0 now = C.charge s a 0 now := by
  have hbytes : bytesPerCycle (C'.levelEntry 0) a.access = bytesPerCycle (C.levelEntry 0) a.access := by
    unfold bytesPerCycle
    cases a.access with
    | store => exact h.write
    | load => exact h.read
  unfold MemoryConfig.charge bandwidthTicks requestLines
  dsimp only
  rw [h.latency, hbytes, h.ticksPerCycle, h.touch, missPath_zero hC, missPath_zero (h.length ▸ hC)]

theorem Hot.same (h : SameL1 C C') (hs : Hot C lines s) : Hot C' lines s := by
  refine ⟨⟨?_, hs.lawful.nodup, ?_⟩, fun x => ?_, hs.pendingFills, hs.hits, hs.outstanding, hs.bandwidthFree⟩
  · rw [h.setIndex]
    exact hs.lawful.placed
  · rw [h.ways]
    exact hs.lawful.bounded
  · unfold contains
    rw [h.setIndex]
    exact hs.resident x

theorem Served.same (h : SameL1 C C') (hs : Served C a) : Served C' a := by
  unfold Served at hs ⊢
  rwa [h.length]

/-- **An access that L1 serves reads nothing but L1's latency and bandwidth.** -/
theorem Hot.consults (hC : 0 < C.levels.length) (hs : Hot C lines s) (h : SameL1 C C') (ha : Inside lines a)
    (hserved : Served C a) : C'.peekLevel s (some a) now = C.peekLevel s (some a) now ∧
      C'.blocker s (some a) now = C.blocker s (some a) now ∧
      C'.access s (some a) now = C.access s (some a) now := by
  have hC' : 0 < C'.levels.length := h.length ▸ hC
  have hs' := hs.same h
  have hserved' := hserved.same h
  refine ⟨?_, ?_, ?_⟩
  · rw [hs'.peekLevel hC' ha hserved', hs.peekLevel hC ha hserved]
  · rw [hs'.blocker hC' ha hserved', hs.blocker hC ha hserved]
  · rw [hs'.access hC' ha hserved', hs.access hC ha hserved, h.charge hC]

/-! ### Every run -/

/-- **The hot L1 is closed** under the calls about its working set that name a line: every
state is hot, every access that names a line is served by L1 at its latency, and one that names
none is where L1 is the only level. No other parameter is read, also not by the constructor. -/
theorem hot_closed (C : MemoryConfig) (hC : 0 < C.levels.length) (lines : List ℤ) (s₀ : MemoryState)
    (h : C.initialState .hotL1 lines = .ok s₀) (s : MemoryState) (hs : Reaches C (HotCall C lines) s₀ s) :
    Hot C lines s ∧
    (∀ a now s' r, Inside lines a → C.access s (some a) now = .ok (s', r) →
      (r.level = 0 ↔ Served C a) ∧ (Served C a → (C.levelEntry 0).latencyTicks = some r.latencyTicks ∧
        r.completionTick = now + r.latencyTicks)) ∧
    (∀ C', SameL1 C C' → C'.initialState .hotL1 lines = .ok s₀ ∧ ∀ a now, Inside lines a → Served C a →
      C'.peekLevel s (some a) now = C.peekLevel s (some a) now ∧
      C'.blocker s (some a) now = C.blocker s (some a) now ∧
      C'.access s (some a) now = C.access s (some a) now) := by
  have hinit : Hot C lines s₀ := by
    rcases initialState_cases h with ⟨hw, -⟩ | ⟨target, hw, hcan, rfl⟩
    · cases hw
    · obtain rfl : 0 = target := Option.some.inj hw
      exact hot_warm hC hcan
  have hhot : Hot C lines s := hs.invariant hinit fun _ _ _ hc ht hr => ht.call hC hc hr
  refine ⟨hhot, fun a now s' r ha hr => ?_, fun C' hsame => ?_⟩
  · have hlevel : r.level = C.worstLevel s a.cacheLines := by
      obtain ⟨a', t, he, hb, -, hcases⟩ := access_ok hr
      obtain rfl := Option.some.inj he
      have hlines : SameLines (C.completeFills s now) t := blocker_same hb
      rw [hhot.completeFills] at hlines
      rw [← worstLevel_same hlines]
      rcases hcases with ⟨completion, -, hr⟩ | ⟨-, hcharge⟩
      · rw [(Prod.mk.inj hr).2]
      · unfold charge at hcharge
        dsimp only at hcharge
        split at hcharge
        · obtain ⟨_, -, hcharge⟩ := ok_bind.mp hcharge
          cases hcharge
          rfl
        · cases hcharge
    refine ⟨by rw [hlevel]; exact hhot.worstLevel hC ha, fun hserved => ?_⟩
    rw [hhot.access hC ha hserved] at hr
    split at hr
    · cases hr
    · exact (hhot.charge hC ha hr).2.2
  · refine ⟨(hsame.initialState _ _).trans h, fun a now ha hserved => ?_⟩
    exact hhot.consults hC hsame ha hserved

end MemoryConfig

/-! ### An access to no line -/

open MemoryConfig in
theorem hot_closed_sample : ∃ s₀ s, Sample.twelveWays.initialState .hotL1 [0, 1] = .ok s₀ ∧
    Sample.twelveWays.call s₀ (.access (some (Sample.load [0, 1])) 0) = .ok s ∧ Hot Sample.twelveWays [0, 1] s := by
  obtain ⟨s₀, h₀⟩ := Checked.exists_ok (x := Sample.twelveWays.initialState .hotL1 [0, 1]) (by decide +kernel)
  have hrun : (Sample.twelveWays.initialState .hotL1 [0, 1] >>= fun s =>
      Sample.twelveWays.call s (.access (some (Sample.load [0, 1])) 0)).toOption.isSome := by decide +kernel
  obtain ⟨s, hrun⟩ := Checked.exists_ok hrun
  obtain ⟨s₀', h₀', h⟩ := Checked.ok_bind.mp hrun
  obtain rfl : s₀' = s₀ := Except.ok.inj (h₀'.symm.trans h₀)
  have hhot : HotCall Sample.twelveWays [0, 1] (.access (some (Sample.load [0, 1])) 0) := by
    rintro a ha
    obtain rfl := Option.some.inj ha
    exact ⟨fun x hx => hx, .inl (by decide)⟩
  exact ⟨s₀', s, h₀, h, (hot_closed Sample.twelveWays (by decide) [0, 1] s₀' h₀ s (.call .refl hhot h)).1⟩

open MemoryConfig in
/-- A load of no line is served by the L2 of a hot L1. -/
theorem served_by_last : ∃ s₀ s r, Sample.twelveWays.initialState .hotL1 [0, 1] = .ok s₀ ∧
    Inside [0, 1] (Sample.load []) ∧ Sample.twelveWays.access s₀ (some (Sample.load [])) 0 = .ok (s, r) ∧
    r.level = 1 ∧ r.latencyTicks = 14 ∧ (Sample.twelveWays.levelEntry 0).latencyTicks = some 5 := by
  have hrun : (Sample.twelveWays.initialState .hotL1 [0, 1] >>= fun s =>
      (·.2) <$> Sample.twelveWays.access s (some (Sample.load [])) 0).toOption = some ⟨1, 14, 1, 14⟩ := by
    decide +kernel
  obtain ⟨s₀, h₀, h⟩ := Checked.ok_bind.mp (Checked.toOption_ok.mp hrun)
  obtain ⟨⟨s, r⟩, hr, rfl⟩ := Checked.ok_map.mp h
  exact ⟨s₀, s, _, h₀, fun x hx => (List.not_mem_nil hx).elim, hr, rfl, rfl, rfl⟩

end VectorSim
