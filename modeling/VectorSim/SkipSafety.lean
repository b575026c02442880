/-
# Skipping idle ticks

`_next_event_tick` lets the Zen 4 engine skip ticks. Where the loads and stores find
their lines in L1 (`hot-l1`), the skipped visits would change nothing: a uop that is
blocked stays blocked until the tick that its blocker names (`Persists`), no completion
is due, and no cycle begins. So the run is that of the loop which visits every tick
(`skipping_exact`).
-/
import VectorSim.TrafficSafety
import VectorSim.Backend.Zen4Parked
import VectorSim.Backend.Zen4Progress
import VectorSim.Lib.LongestPath

namespace VectorSim

open Checked Setup MemoryConfig EventLoop

/-! ### Blockers that persist -/

/-- A check that passes at a tick passes at a later one, and one that blocks keeps blocking, for
the same reason, until the tick it names. -/
structure Persists (check : ℕ → Except SimError (Option Blocked)) (now later : ℕ) : Prop where
  passes : check now = .ok none → check later = .ok none
  blocks : ∀ b, check now = .ok (some b) → (∀ e ∈ b.2, now < e → later < e) → check later = .ok (some b)

theorem Persists.of_eq {check : ℕ → Except SimError (Option Blocked)} {now later : ℕ} (h : check later = check now) :
    Persists check now later :=
  ⟨fun hn => h.trans hn, fun _ hb _ => h.trans hb⟩

/-- One check after another. -/
theorem Persists.or {f g : ℕ → Option Blocked} {now later : ℕ} (hf : Persists (fun t => .ok (f t)) now later)
    (hg : Persists (fun t => .ok (g t)) now later) : Persists (fun t => .ok ((f t).or (g t))) now later := by
  have hnone : f now = none → f later = none := fun h => Except.ok.inj (hf.passes (congrArg Except.ok h))
  constructor
  · intro h
    obtain ⟨h1, h2⟩ := Option.or_eq_none_iff.mp (Except.ok.inj h)
    have h3 := Except.ok.inj (hg.passes (congrArg Except.ok h2))
    rw [hnone h1, h3]
    rfl
  · intro b h hb
    have h := Except.ok.inj h
    cases hfn : f now with
    | none =>
      rw [hfn, Option.none_or] at h
      have h3 := Except.ok.inj (hg.blocks b (congrArg Except.ok h) hb)
      rw [hnone hfn, h3]
      rfl
    | some c =>
      rw [hfn, Option.some_or] at h
      obtain rfl := Option.some.inj h
      have h3 := Except.ok.inj (hf.blocks c (congrArg Except.ok hfn) hb)
      rw [h3]
      rfl

variable {E : Setup} {s s' : Machine} {x : ExecutionUop} {now later : ℕ} {lines : List ℤ}

/-- A check that names the tick at which it passes. -/
theorem persists_until {reason : Stall} {tick : ℕ} (hle : now ≤ later) :
    Persists (fun t => .ok (if t < tick then some (reason, some tick) else none)) now later := by
  constructor
  · intro h
    have hpass : ¬ now < tick := by simpa using h
    rw [if_neg (by omega)]
  · intro b h hb
    by_cases hlt : now < tick
    · rw [if_pos hlt] at h
      obtain rfl := Option.some.inj (Except.ok.inj h)
      rw [if_pos (hb tick rfl hlt)]
    · rw [if_neg hlt] at h
      cases h

theorem persists_dependency (reason : List Id → Stall) (hle : now ≤ later) :
    Persists (fun t => .ok (dependencyBlocker reason s.toCore x t)) now later := by
  unfold dependencyBlocker
  by_cases h : incomplete s.toCore x ≠ []
  · simp only [if_pos h]
    exact .of_eq rfl
  · simp only [if_neg h]
    exact persists_until hle

theorem persists_part (hle : now ≤ later) : Persists (fun t => .ok (partBlocker s.toCore x t)) now later := by
  unfold partBlocker
  cases x.issueAfterUop with
  | none => exact .of_eq rfl
  | some p =>
    dsimp only
    cases (s.uop p).issueTick with
    | none => exact .of_eq rfl
    | some t => exact persists_until hle

theorem persists_interval (hle : now ≤ later) : Persists (fun t => .ok (intervalBlocker s x t)) now later := by
  unfold intervalBlocker
  cases s.lastClassIssue x.schedulingClass with
  | none => exact .of_eq rfl
  | some t => exact persists_until hle

theorem persists_early (hle : now ≤ later) : Persists (fun t => .ok (Zen4.earlyBlocker E s x t)) now later :=
  have hoverlap : Persists (fun _ => .ok (E.overlapBlocker s x)) now later := .of_eq rfl
  (persists_dependency _ hle).or ((persists_part hle).or (hoverlap.or (persists_interval hle)))

/-- A resource that is free stays free. -/
theorem anyFree_later (hle : now ≤ later) : ∀ rs : List String, anyFree s now rs = .ok true → anyFree s later rs = .ok true
  | [], h => by cases h
  | r :: rs, h => by
    obtain ⟨t, ht, h⟩ := ok_bind.mp h
    refine ok_bind.mpr ⟨t, ht, ?_⟩
    by_cases hfree : t ≤ later
    · rw [if_pos hfree]
    · rw [if_neg (by omega)] at h
      rw [if_neg hfree]
      exact anyFree_later hle rs h

/-- Resources that are all busy stay so until the first of them is free. -/
theorem anyFree_busy : ∀ rs : List String, anyFree s now rs = .ok false →
    (∀ ticks, rs.mapM (firstFree s) = .ok ticks → ∀ t ∈ ticks, now < t) ∧
    ∀ ticks, rs.mapM (firstFree s) = .ok ticks → (∀ t ∈ ticks, later < t) → anyFree s later rs = .ok false
  | [], _ => ⟨fun _ h _ ht => by cases h; exact absurd ht List.not_mem_nil, fun _ _ _ => rfl⟩
  | r :: rs, h => by
    obtain ⟨t, ht, h⟩ := ok_bind.mp h
    by_cases hfree : t ≤ now
    · rw [if_pos hfree] at h
      cases h
    · rw [if_neg hfree] at h
      obtain ⟨h1, h2⟩ := anyFree_busy rs h
      refine ⟨fun ticks hticks u hu => ?_, fun ticks hticks hlater => ?_⟩
      · rw [List.mapM_cons] at hticks
        obtain ⟨t', ht', hticks⟩ := ok_bind.mp hticks
        obtain ⟨ts, hts, hticks⟩ := ok_bind.mp hticks
        cases hticks
        obtain rfl : t = t' := Except.ok.inj (ht.symm.trans ht')
        rcases List.mem_cons.mp hu with rfl | hu
        · omega
        · exact h1 ts hts u hu
      · rw [List.mapM_cons] at hticks
        obtain ⟨t', ht', hticks⟩ := ok_bind.mp hticks
        obtain ⟨ts, hts, hticks⟩ := ok_bind.mp hticks
        cases hticks
        obtain rfl : t = t' := Except.ok.inj (ht.symm.trans ht')
        have hhead := hlater t List.mem_cons_self
        refine ok_bind.mpr ⟨t, ht, ?_⟩
        rw [if_neg (by omega)]
        exact h2 ts hts fun u hu => hlater u (List.mem_cons_of_mem _ hu)

theorem persists_resource (hle : now ≤ later) : Persists (fun t => resourceBlocker s x t) now later := by
  constructor
  · intro h
    obtain ⟨free, hfree, h⟩ := ok_bind.mp h
    cases free with
    | true => exact ok_bind.mpr ⟨true, anyFree_later hle _ hfree, rfl⟩
    | false =>
      obtain ⟨ticks, -, h⟩ := ok_bind.mp h
      split at h <;> cases h
  · intro b h hb
    obtain ⟨free, hfree, h⟩ := ok_bind.mp h
    cases free with
    | true => cases h
    | false =>
      obtain ⟨ticks, hticks, h⟩ := ok_bind.mp h
      split at h
      · next t hmin =>
        obtain rfl := Option.some.inj (Except.ok.inj h)
        obtain ⟨hbusy, hstays⟩ := @anyFree_busy s now later _ hfree
        obtain ⟨hmem, hleast⟩ := List.min?_eq_some_iff.mp hmin
        have hlater := hb t rfl (hbusy ticks hticks t hmem)
        refine ok_bind.mpr ⟨false, hstays ticks hticks fun u hu => hlater.trans_le (hleast u hu), ?_⟩
        refine ok_bind.mpr ⟨ticks, hticks, ?_⟩
        rw [hmin]
      · cases h

theorem persists_domain (hle : now ≤ later) : Persists (fun t => domainBlocker s x t) now later := by
  constructor
  · intro h
    obtain ⟨ticks, hticks, h⟩ := ok_bind.mp h
    refine ok_bind.mpr ⟨ticks, hticks, ?_⟩
    by_cases hany : ticks.any (now < ·) = true
    · rw [if_pos hany] at h
      cases h
    · have hnone : ¬ ticks.any (later < ·) = true := by
        intro hlater
        obtain ⟨t, ht, hlt⟩ := List.any_eq_true.mp hlater
        have hlt : later < t := by simpa using hlt
        exact hany (List.any_eq_true.mpr ⟨t, ht, by simpa using hle.trans_lt hlt⟩)
      rw [if_neg hnone]
  · intro b h hb
    obtain ⟨ticks, hticks, h⟩ := ok_bind.mp h
    refine ok_bind.mpr ⟨ticks, hticks, ?_⟩
    by_cases hany : ticks.any (now < ·) = true
    · rw [if_pos hany] at h
      obtain rfl := Option.some.inj (Except.ok.inj h)
      obtain ⟨t, ht, hlt⟩ := List.any_eq_true.mp hany
      have hlt : now < t := by simpa using hlt
      have hmax := (LongestPath.le_foldl_max ticks 0).2 t ht
      have hlater := hb _ rfl (hlt.trans_le hmax)
      -- the token that is free last is still held
      have hlast : ticks.foldl max 0 ∈ ticks := by
        rcases LongestPath.foldl_max_mem ticks 0 with hzero | hmem
        · omega
        · exact hmem
      rw [if_pos (List.any_eq_true.mpr ⟨_, hlast, by simpa using hlater⟩)]
    · rw [if_neg hany] at h
      cases h

/-! ### A hot hierarchy -/

/-- Every load and store names lines of the working set. -/
def Warmed (lines : List ℤ) (E : Setup) : Prop :=
  ∀ x ∈ E.trace.uops, ∀ a ∈ x.memory, MemoryConfig.Inside lines a ∧ a.cacheLines ≠ []

theorem hierarchyBlocker_hot (hC : 0 < E.memory.levels.length) {memory : MemoryState} (hs : Hot E.memory lines memory)
    {a : MemoryAccess} (hx : x.memory = some a) (ha : MemoryConfig.Inside lines a) (hne : a.cacheLines ≠ []) (t : ℕ) :
    E.hierarchyBlocker memory x t = .ok (memory, if t < memory.bandwidthFree 0 a.access then
      some (.memoryBandwidth, some (memory.bandwidthFree 0 a.access)) else none) := by
  unfold hierarchyBlocker
  rw [hx, hs.blocker hC ha (.inl hne)]
  split <;> rfl

/-- What an engine does to a hot hierarchy leaves it hot. -/
theorem keeps_hot (hC : 0 < E.memory.levels.length) (hwarm : Warmed lines E) :
    Keeps E fun _ s => Hot E.memory lines s.memory where
  traffic now s s' hs h := by
    cases h with
    | still _ memory => rwa [memory]
    | @poll x b _ mem _ asked =>
      cases hx : x.memory with
      | none =>
        obtain ⟨r, hr, -⟩ := ok_bind.mp asked
        rw [hx] at hr
        cases hr
      | some a =>
        obtain ⟨ha, hne⟩ := hwarm x mem a hx
        rw [hierarchyBlocker_hot hC hs hx ha hne] at asked
        obtain ⟨hmemory, -⟩ := Prod.mk.inj (Except.ok.inj asked)
        rwa [← hmemory]
    | @issue x mem _ _ _ _ accessed =>
      unfold Accessed at accessed
      split at accessed
      · obtain ⟨r, haccess, -⟩ := accessed
        cases hx : x.memory with
        | none => rw [hx] at haccess; cases haccess
        | some a =>
          obtain ⟨ha, hne⟩ := hwarm x mem a hx
          rw [hx, hs.access hC ha (.inl hne)] at haccess
          split at haccess
          · cases haccess
          · exact (hs.charge hC ha haccess).1
      · rwa [accessed.1]
  later _ _ _ hs _ := hs

namespace Zen4

theorem memoryBlocker_hot (hC : 0 < E.memory.levels.length) (hwarm : Warmed lines E)
    (hs : Hot E.memory lines s.memory) (hx : x ∈ E.trace.uops) {r : MemoryState × Option Blocked}
    (h : memoryBlocker E s x now = .ok r) (hle : now ≤ later) : r.1 = s.memory ∧
      ((r.2 = none ∨ ∃ b, r.2 = some b ∧ ∀ e ∈ b.2, now < e → later < e) →
        memoryBlocker E s x later = .ok r) := by
  unfold memoryBlocker at h ⊢
  split at h
  · next hkind =>
    rw [if_pos hkind]
    cases hm : x.memory with
    | none =>
      obtain ⟨q, hq, -⟩ := ok_bind.mp h
      rw [hm] at hq
      cases hq
    | some a =>
      obtain ⟨ha, hne⟩ := hwarm x hx a hm
      rw [hierarchyBlocker_hot hC hs hm ha hne] at h ⊢
      cases h
      refine ⟨rfl, fun hb => ?_⟩
      by_cases hlt : now < s.memory.bandwidthFree 0 a.access
      · rw [if_pos hlt] at hb ⊢
        rcases hb with hb | ⟨b, hb, huntil⟩
        · cases hb
        · obtain rfl := Option.some.inj hb
          rw [if_pos (huntil _ rfl hlt)]
      · rw [if_neg hlt, if_neg (by omega)]
  · next hkind =>
    cases h
    exact ⟨rfl, fun _ => if_neg hkind⟩

/-- **A blocked uop stays blocked** until the tick that its blocker names, and the check leaves a
hot hierarchy alone. -/
theorem issueBlocker_hot (hC : 0 < E.memory.levels.length) (hwarm : Warmed lines E)
    (hs : Hot E.memory lines s.memory) (hx : x ∈ E.trace.uops) {r : MemoryState × Option Blocked}
    (h : issueBlocker E s x now = .ok r) (hle : now ≤ later) : r.1 = s.memory ∧
      ∀ b, r.2 = some b → (∀ e ∈ b.2, now < e → later < e) → issueBlocker E s x later = .ok (s.memory, some b) := by
  have hearly := persists_early (E := E) (s := s) (x := x) hle
  unfold issueBlocker at h ⊢
  cases he : earlyBlocker E s x now with
  | some b =>
    rw [he] at h
    cases h
    refine ⟨rfl, fun b' hb' huntil => ?_⟩
    obtain rfl := Option.some.inj hb'
    rw [Except.ok.inj (hearly.blocks b (congrArg Except.ok he) huntil)]
  | none =>
    rw [he] at h
    rw [Except.ok.inj (hearly.passes (congrArg Except.ok he))]
    dsimp only at h ⊢
    obtain ⟨b, hb, h⟩ := ok_bind.mp h
    cases b with
    | some b =>
      cases h
      refine ⟨rfl, fun b' hb' huntil => ?_⟩
      obtain rfl := Option.some.inj hb'
      exact ok_bind.mpr ⟨_, (persists_resource hle).blocks b hb huntil, rfl⟩
    | none =>
      obtain ⟨q, hq, h⟩ := ok_bind.mp h
      obtain ⟨hmemory, hstays⟩ := memoryBlocker_hot hC hwarm hs hx hq hle
      obtain ⟨memory, c⟩ := q
      obtain rfl : memory = s.memory := hmemory
      cases c with
      | some c =>
        cases h
        refine ⟨rfl, fun b' hb' huntil => ?_⟩
        obtain rfl := Option.some.inj hb'
        refine ok_bind.mpr ⟨none, (persists_resource hle).passes hb, ok_bind.mpr ⟨_, hstays (.inr ⟨c, rfl, huntil⟩), rfl⟩⟩
      | none =>
        obtain ⟨d, hd, h⟩ := ok_bind.mp h
        cases h
        refine ⟨rfl, fun b' hb' huntil => ?_⟩
        obtain rfl : d = some b' := hb'
        refine ok_bind.mpr ⟨none, (persists_resource hle).passes hb, ok_bind.mpr ⟨_, hstays (.inl rfl), ?_⟩⟩
        exact ok_bind.mpr ⟨_, (persists_domain hle).blocks b' hd huntil, rfl⟩

/-! ### The end of a visit -/

/-- The states agree in what an issue looks at. -/
structure SameIssue (s s' : Machine) : Prop where
  uop : s'.uop = s.uop
  unissued : s'.unissued = s.unissued
  inOrderIssueIndex : s'.inOrderIssueIndex = s.inOrderIssueIndex
  completionHeap : s'.completionHeap = s.completionHeap
  resourceFree : s'.resourceFree = s.resourceFree
  lastClassIssue : s'.lastClassIssue = s.lastClassIssue
  issueDomainFree : s'.issueDomainFree = s.issueDomainFree
  pendingGroups : s'.pendingGroups = s.pendingGroups
  memory : s'.memory = s.memory

theorem SameIssue.refl (s : Machine) : SameIssue s s := ⟨rfl, rfl, rfl, rfl, rfl, rfl, rfl, rfl, rfl⟩

theorem SameIssue.trans {a b c : Machine} (h : SameIssue a b) (h' : SameIssue b c) : SameIssue a c :=
  ⟨h'.uop.trans h.uop, h'.unissued.trans h.unissued, h'.inOrderIssueIndex.trans h.inOrderIssueIndex,
    h'.completionHeap.trans h.completionHeap, h'.resourceFree.trans h.resourceFree,
    h'.lastClassIssue.trans h.lastClassIssue, h'.issueDomainFree.trans h.issueDomainFree,
    h'.pendingGroups.trans h.pendingGroups, h'.memory.trans h.memory⟩

theorem SameIssue.candidates (h : SameIssue s s') : E.issueCandidates s'.toCore = E.issueCandidates s.toCore := by
  unfold issueCandidates
  rw [h.unissued, h.inOrderIssueIndex]

theorem SameIssue.firstFree (h : SameIssue s s') (r : String) : firstFree s' r = firstFree s r := by
  unfold Setup.firstFree
  rw [h.resourceFree]

theorem SameIssue.anyFree (h : SameIssue s s') (now : ℕ) : ∀ rs : List String, anyFree s' now rs = anyFree s now rs
  | [] => rfl
  | r :: rs => by
    unfold Setup.anyFree
    rw [h.firstFree]
    simp only [h.anyFree now rs]

theorem SameIssue.issueBlocker (h : SameIssue s s') (x : ExecutionUop) (now : ℕ) :
    issueBlocker E s' x now = issueBlocker E s x now := by
  have hearly : earlyBlocker E s' x now = earlyBlocker E s x now := by
    unfold earlyBlocker dependencyBlocker partBlocker overlapBlocker overlapBlocked intervalBlocker incomplete
      Core.dependencyReadyTick
    rw [h.uop, h.pendingGroups, h.lastClassIssue]
  have hresource : resourceBlocker s' x now = resourceBlocker s x now := by
    unfold resourceBlocker
    rw [h.anyFree, funext h.firstFree]
  have hmemory : memoryBlocker E s' x now = memoryBlocker E s x now := by
    unfold memoryBlocker
    rw [h.memory]
  have hdomain : domainBlocker s' x now = domainBlocker s x now := by
    unfold domainBlocker issueDomainReadyTick
    rw [h.issueDomainFree]
  unfold Zen4.issueBlocker
  rw [hearly, hresource, hmemory, hdomain, h.memory]

theorem retireLoop_same {width : ℕ} : ∀ (fuel retired : ℕ) (s : Machine),
    SameIssue s (retireLoop E width now fuel retired s)
  | 0, _, s => .refl s
  | fuel + 1, retired, s => by
    unfold retireLoop
    split
    · exact .refl s
    · split
      · have hretire : ∀ m, SameIssue s (retireMacro s m now) := fun m => ⟨rfl, rfl, rfl, rfl, rfl, rfl, rfl, rfl, rfl⟩
        exact (hretire _).trans (retireLoop_same fuel _ _)
      · exact .refl s

/-- Nothing more can happen at the tick: no completion is due and no waiting uop may issue. -/
structure Settled (E : Setup) (now : ℕ) (s : Machine) : Prop where
  heap : ∀ e ∈ s.completionHeap.head?, now < e.tick
  blocked : ∀ x ∈ E.issueCandidates s.toCore, ∃ b, issueBlocker E s x now = .ok (s.memory, some b)

theorem Settled.same (hs : Settled E now s) (h : SameIssue s s') : Settled E now s' := by
  refine ⟨fun e he => hs.heap e (h.completionHeap ▸ he), fun x hx => ?_⟩
  rw [h.candidates] at hx
  rw [h.issueBlocker, h.memory]
  exact hs.blocked x hx

/-- An issue loop in which no uop issues leaves a hot machine as it was, with every candidate
blocked. -/
theorem issueList_blocked (hC : 0 < E.memory.levels.length) (hwarm : Warmed lines E) :
    ∀ (xs : List ExecutionUop) (s : Machine), Hot E.memory lines s.memory → (∀ x ∈ xs, x ∈ E.trace.uops) →
      (E.inOrder = true → xs.length ≤ 1) → issueList E now xs s = .ok (false, s') →
      s' = s ∧ ∀ x ∈ xs, ∃ b, issueBlocker E s x now = .ok (s.memory, some b)
  | [], s, _, _, _, h => by
    cases h
    exact ⟨rfl, by simp⟩
  | x :: xs, s, hs, hmem, hone, h => by
    obtain ⟨⟨memory, b⟩, hb, h⟩ := ok_bind.mp h
    obtain ⟨hsame, -⟩ := issueBlocker_hot hC hwarm hs (hmem x List.mem_cons_self) hb le_rfl
    obtain rfl : memory = s.memory := hsame
    cases b with
    | none =>
      obtain ⟨s₁, -, h⟩ := ok_bind.mp h
      obtain ⟨r, -, h⟩ := ok_bind.mp h
      cases h
    | some b =>
      dsimp only at h
      by_cases hin : E.inOrder = true
      · rw [if_pos hin] at h
        cases h
        have hnil : xs = [] := List.length_eq_zero_iff.mp (by have := hone hin; simpa using this)
        subst hnil
        refine ⟨rfl, fun y hy => ?_⟩
        obtain rfl := List.mem_singleton.mp hy
        exact ⟨b, hb⟩
      · rw [if_neg hin] at h
        obtain ⟨rfl, hrest⟩ := issueList_blocked hC hwarm xs s hs (fun y hy => hmem y (List.mem_cons_of_mem _ hy))
          (fun hin' => absurd hin' hin) h
        refine ⟨rfl, fun y hy => ?_⟩
        rcases List.mem_cons.mp hy with rfl | hy
        · exact ⟨b, hb⟩
        · exact hrest y hy

/-- An issue loop whose candidates are all blocked, by checks that leave the hierarchy alone. -/
theorem issueList_idle : ∀ xs : List ExecutionUop,
    (∀ x ∈ xs, ∃ b, issueBlocker E s x now = .ok (s.memory, some b)) → issueList E now xs s = .ok (false, s)
  | [], _ => rfl
  | x :: xs, h => by
    obtain ⟨b, hb⟩ := h x List.mem_cons_self
    have hrest := issueList_idle xs fun y hy => h y (List.mem_cons_of_mem _ hy)
    refine ok_bind.mpr ⟨_, hb, ?_⟩
    dsimp only
    split
    · rfl
    · exact hrest

/-- A visit ends settled. -/
theorem visit_settled (hT : WellFormed E.trace) (hC : 0 < E.memory.levels.length) (hwarm : Warmed lines E)
    (hinv : Inv E now s) (hs : Hot E.memory lines s.memory) (h : visitOf (phases E now) s = .ok s') :
    Settled E now s' := by
  have hP := keeps_hot hC hwarm
  -- the visit, up to its issue loop and from there on
  obtain ⟨s₁, h₁, h⟩ := ok_bind.mp h
  cases h₁
  obtain ⟨s₂, h₂, h⟩ := ok_bind.mp h
  obtain ⟨s₃, h₃, h⟩ := ok_bind.mp h
  obtain ⟨s₄, h₄, h⟩ := ok_bind.mp h
  cases h₄
  obtain ⟨s₅, h₅, h⟩ := ok_bind.mp h
  cases h
  have hprefix : visitOf [fun s => .ok (complete E now s).2,
      fun s => if E.boundary now then dispatch E now s else .ok s] s = .ok s₂ :=
    ok_bind.mpr ⟨_, rfl, ok_bind.mpr ⟨s₂, h₂, rfl⟩⟩
  have hsub : [fun s => .ok (complete E now s).2,
      fun s => if E.boundary now then dispatch E now s else .ok s] ⊆ phases E now := by
    intro f hf
    simp only [List.mem_cons, List.not_mem_nil, or_false] at hf
    simp only [phases, List.mem_cons]
    tauto
  obtain ⟨hinv₂, hs₂⟩ := visit_carries hT hP hsub hprefix hinv hs
  have hcomplete : ∀ s, Carries E (fun _ s => Hot E.memory lines s.memory) now s (complete E now s).2 := fun s =>
    carries_untouched hT hP (complete_steps s) (completeLoop_untouched _ s)
  obtain ⟨s₀, s₁', hcarried, hfirst, hsecond⟩ := FixedPoint.run_last h₃ (Carries.refl (E := E)
    (P := fun _ s => Hot E.memory lines s.memory)) .trans hcomplete fun s r hr =>
      issueList_carries hT hP _ s (candidates_issueCandidates hT _) hr
  have hafter : s₁' = (complete E now s₀).2 := by rw [hfirst]
  obtain ⟨-, hhot⟩ := (hcarried.trans (hafter ▸ hcomplete s₀)) hinv₂ hs₂
  have hcandidates := candidates_issueCandidates hT s₁'.toCore
  obtain ⟨rfl, hblocked⟩ := issueList_blocked hC hwarm _ s₁' hhot (fun x hx => (hcandidates.mem x hx).1)
    (fun hin => (hcandidates.order hin).1) hsecond
  have hsettled : Settled E now s₃ := ⟨fun e he => completeLoop_head _ s₀ le_rfl e (hafter ▸ he), hblocked⟩
  have hidle : complete E now s₃ = (false, s₃) := completeLoop_idle hsettled.heap _
  rw [hidle] at h₅
  dsimp only at h₅
  split at h₅
  · obtain ⟨width, -, h₅⟩ := ok_bind.mp h₅
    cases h₅
    exact hsettled.same (retireLoop_same _ _ s₃)
  · cases h₅
    exact hsettled

/-! ### The skipped ticks -/

/-- Looking for the next tick leaves a hot machine alone and takes note of every tick that a
blocker names. -/
theorem pollAll_hot : ∀ (xs : List ExecutionUop) (ticks : List ℕ) {r : MemoryState × List ℕ},
    (∀ x ∈ xs, ∃ b, issueBlocker E s x now = .ok (s.memory, some b)) →
    xs.foldlM (pollWaiting E now s) (s.memory, ticks) = .ok r →
    r.1 = s.memory ∧ (∀ t ∈ ticks, t ∈ r.2) ∧
      ∀ x ∈ xs, ∀ b, issueBlocker E s x now = .ok (s.memory, some b) → ∀ e ∈ b.2, now < e → e ∈ r.2
  | [], ticks, r, _, h => by
    cases h
    exact ⟨rfl, fun _ ht => ht, fun x hx => absurd hx List.not_mem_nil⟩
  | x :: xs, ticks, r, hblocked, h => by
    rw [List.foldlM_cons] at h
    obtain ⟨q, hq, h⟩ := ok_bind.mp h
    obtain ⟨b, hb⟩ := hblocked x List.mem_cons_self
    obtain ⟨c, hc, hq⟩ := ok_bind.mp hq
    obtain rfl : c = (s.memory, some b) := Except.ok.inj (hc.symm.trans hb)
    obtain ⟨waiting, hwaiting, hq⟩ := ok_bind.mp hq
    cases hq
    obtain ⟨hmemory, hkept, hnamed⟩ := pollAll_hot xs (ticks ++ waiting) (fun y hy => hblocked y (List.mem_cons_of_mem _ hy)) h
    refine ⟨hmemory, fun t ht => hkept t (List.mem_append_left _ ht), fun y hy b' hb' e he hlt => ?_⟩
    rcases List.mem_cons.mp hy with rfl | hy
    · obtain rfl : b = b' := by
        have hsame := Except.ok.inj (hb.symm.trans hb')
        exact Option.some.inj (Prod.mk.inj hsame).2
      obtain ⟨resources, -, hwaiting⟩ := ok_bind.mp hwaiting
      obtain ⟨domains, -, hwaiting⟩ := ok_bind.mp hwaiting
      cases hwaiting
      refine hkept e (List.mem_append_right _ (List.mem_filter.mpr ⟨?_, by simpa using hlt⟩))
      have hfirst : e ∈ ((some b).bind (·.2)).toList := by simpa using he
      simp only [List.mem_append]
      exact .inl (.inl (.inl hfirst))
    · exact hnamed y hy b' hb' e he hlt

/-- A tick before the next cycle begins none. -/
theorem boundary_between {u : ℕ} (htpc : 0 < E.ticksPerCycle) (hlt : now < u) (hle : u < E.nextCycle now) :
    E.boundary u = false := by
  rw [Bool.eq_false_iff]
  intro hb
  have hmod : u % E.ticksPerCycle = 0 := by simpa [boundary] using hb
  obtain ⟨k, rfl⟩ := Nat.dvd_of_mod_eq_zero hmod
  have hcycle : now / E.ticksPerCycle + 1 ≤ k := by
    have hdiv := Nat.div_lt_of_lt_mul hlt
    omega
  have hmul := Nat.mul_le_mul_right E.ticksPerCycle hcycle
  rw [nextCycle] at hle
  rw [Nat.mul_comm] at hle
  omega

/-- **The skipped visits change nothing.** -/
theorem skipped_idle (hT : WellFormed E.trace) (htpc : 0 < E.ticksPerCycle) (hC : 0 < E.memory.levels.length)
    (hwarm : Warmed lines E) (hs : Hot E.memory lines s.memory) (hsettled : Settled E now s)
    (hu : E.unfinished s.toCore = true) {t : ℕ} (h : nextEventTick E now s = .ok (s', t)) :
    s' = s ∧ ∀ u, now < u → u < t → visitOf (phases E u) s = .ok s := by
  have hcycle := nextEventTick_le hu h
  obtain ⟨r, hr, h⟩ := ok_bind.mp h
  obtain ⟨hmemory, -, hnamed⟩ := pollAll_hot _ [] hsettled.blocked hr
  split at h
  · cases h
  · next t' hmin =>
    cases h
    obtain ⟨-, hleast⟩ := List.min?_eq_some_iff.mp hmin
    refine ⟨by rw [hmemory], fun u hlt hut => ?_⟩
    have hheap : ∀ e ∈ s.completionHeap.head?, u < e.tick := by
      intro e he
      have hin : e.tick ∈ scheduledTicks E now s := by
        refine List.mem_append_left _ ?_
        rw [Option.mem_def.mp he]
        exact List.mem_singleton_self _
      exact hut.trans_le (hleast e.tick (List.mem_append_left _ hin))
    have hblocked : ∀ x ∈ E.issueCandidates s.toCore, ∃ b, issueBlocker E s x u = .ok (s.memory, some b) := by
      intro x hx
      obtain ⟨b, hb⟩ := hsettled.blocked x hx
      have hmem := ((candidates_issueCandidates hT s.toCore).mem x hx).1
      obtain ⟨-, hstays⟩ := issueBlocker_hot hC hwarm hs hmem hb hlt.le
      refine ⟨b, hstays b rfl fun e he hlater => ?_⟩
      exact hut.trans_le (hleast e (List.mem_append_right _ (hnamed x hx b hb e he hlater)))
    have hcomplete : complete E u s = (false, s) := completeLoop_idle hheap _
    have hissue : issueFixedPoint E u s = .ok s := by
      have hlist : issueOnce E u s = .ok (false, s) := issueList_idle _ hblocked
      unfold issueFixedPoint FixedPoint.run
      rw [hcomplete]
      exact ok_bind.mpr ⟨_, hlist, rfl⟩
    have hboundary := boundary_between htpc hlt (hut.trans_le hcycle)
    simp [visitOf, phases, hcomplete, hissue, hboundary, Bind.bind, Except.bind, pure, Except.pure]

end Zen4

theorem hot_initialState {C : MemoryConfig} {memory : MemoryState} (hC : 0 < C.levels.length)
    (h : C.initialState .hotL1 lines = .ok memory) : Hot C lines memory := by
  rcases initialState_cases h with ⟨hw, -⟩ | ⟨target, hw, hcan, rfl⟩
  · cases hw
  · obtain rfl : 0 = target := Option.some.inj hw
    exact hot_warm hC hcan

/-- **Skipping is exact**: a run of the Zen 4 engine over a hot L1 is the run of the loop that
visits every tick. -/
theorem skipping_exact (T : BoundTrace) (P : EngineProfile) (inOrder : Bool) (limit : Option Bool)
    (hlevels : 0 < P.memory.levels.length)
    (hlines : ∀ x ∈ T.uops, ∀ a ∈ x.memory, MemoryConfig.Inside T.sourceLines a ∧ a.cacheLines ≠ []) (E : Setup)
    (hE : Zen4.init T P inOrder .hotL1 limit = .ok E) (s : Machine) (t : ℕ) (h : Zen4.run E = .ok (s, t)) :
    ∃ visits, EventLoop.run (everyTick (Zen4.loop E)) visits 0 E.machineInit = .ok (s, t) := by
  obtain ⟨hT, hA⟩ := Zen4.init_ok hE
  have hC : 0 < E.memory.levels.length := by rwa [Zen4.init_memory hE]
  have hwarm : Warmed E.trace.sourceLines E := by
    rw [Warmed, hA.trace]
    exact hlines
  have hstart : Hot E.memory E.trace.sourceLines E.memoryInit := hot_initialState hC (Zen4.init_hierarchy hE)
  have hP := keeps_hot hC hwarm
  obtain ⟨n, hends⟩ := Zen4.run_ends h
  obtain ⟨visits, hevery⟩ := ends_everyTick hends fun k now s₁ s₂ s₃ t' hr hv hu hn _ => by
    obtain ⟨hinv, hhot⟩ := Zen4.AtTick.traffic hT hP hstart ⟨k, hr⟩
    obtain ⟨-, hhot₂⟩ := Zen4.visit_carries hT hP (List.Subset.refl _) hv hinv hhot
    have hsettled := Zen4.visit_settled hT hC hwarm hinv hhot hv
    exact Zen4.skipped_idle hT hA.tpc_pos hC hwarm hhot₂ hsettled hu hn
  refine ⟨visits, (run_ok_iff fun now s s' t hu hn => ?_).mpr ⟨visits, le_rfl, hevery⟩⟩
  cases hn
  exact hu

/-- A load of a line in L1 on a machine of four ticks a cycle. -/
def Sample.fourTicks : BoundTrace := { Sample.loadTrace [0] with ticksPerCycle := 4 }

theorem skipping_exact_sample : ∃ E s t visits,
    Zen4.init Sample.fourTicks (Sample.twoLevels 5 14) false .hotL1 none = .ok E ∧ Zen4.run E = .ok (s, t) ∧
      EventLoop.run (everyTick (Zen4.loop E)) visits 0 E.machineInit = .ok (s, t) := by
  obtain ⟨E, hE⟩ := Checked.exists_ok
    (x := Zen4.init Sample.fourTicks (Sample.twoLevels 5 14) false .hotL1 none) (by decide +kernel)
  have hrun : ((Zen4.init Sample.fourTicks (Sample.twoLevels 5 14) false .hotL1 none).bind
      Zen4.run).toOption.isSome := by decide +kernel
  rw [hE] at hrun
  obtain ⟨⟨s, t⟩, h⟩ := Checked.exists_ok hrun
  have hlines : ∀ x ∈ Sample.fourTicks.uops, ∀ a ∈ x.memory,
      MemoryConfig.Inside Sample.fourTicks.sourceLines a ∧ a.cacheLines ≠ [] := by
    intro x hx a ha
    rcases List.mem_cons.mp hx with rfl | hx
    · obtain rfl := Option.some.inj ha
      exact ⟨fun l hl => hl, by decide⟩
    · obtain rfl := List.mem_singleton.mp hx
      cases ha
  obtain ⟨visits, hvisits⟩ := skipping_exact Sample.fourTicks (Sample.twoLevels 5 14) false none (by decide) hlines E hE s t h
  exact ⟨E, s, t, visits, hE, h, hvisits⟩

end VectorSim
