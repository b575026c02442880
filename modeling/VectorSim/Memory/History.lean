/-
# The states of a hierarchy

The hierarchy is asked and accessed in any order and at any ticks
(`Reachable`). Every call applies the fills that are due; an access that merges
with no pending fill then touches its lines in L1 or requests a fill for each
(`call_cases`).
-/
import VectorSim.Memory.Residence

namespace VectorSim
namespace MemoryConfig

open Checked

variable {C : MemoryConfig} {s s' : MemoryState} {now : ℕ}

/-- A call of a method of `MemoryHierarchy`, at a tick. -/
inductive Call
  | peekLevel (m : Option MemoryAccess) (now : ℕ)
  | blocker (m : Option MemoryAccess) (now : ℕ)
  | access (m : Option MemoryAccess) (now : ℕ)

/-- The memory operand that a call is about. -/
def Call.operand : Call → Option MemoryAccess
  | .peekLevel m _ | .blocker m _ | .access m _ => m

/-- The state a call leaves. -/
def call (C : MemoryConfig) (s : MemoryState) : Call → Except MemoryError MemoryState
  | .peekLevel m now => (·.1) <$> C.peekLevel s m now
  | .blocker m now => (·.1) <$> C.blocker s m now
  | .access m now => (·.1) <$> C.access s m now

/-- Calls that satisfy `p` lead from one state to the other. -/
inductive Reaches (C : MemoryConfig) (p : Call → Prop) (s : MemoryState) : MemoryState → Prop
  | refl : Reaches C p s s
  | call {t u : MemoryState} {c : Call} (before : Reaches C p s t) (allowed : p c)
      (returns : C.call t c = .ok u) : Reaches C p s u

/-- The states of a hierarchy that was constructed for a working set. -/
def Reachable (C : MemoryConfig) (mode : CacheMode) (lines : List ℤ) (s : MemoryState) : Prop :=
  ∃ s₀, C.initialState mode lines = .ok s₀ ∧ Reaches C (fun _ => True) s₀ s

/-- The invariant rule. -/
theorem Reaches.invariant {p : Call → Prop} {P : MemoryState → Prop} (h : Reaches C p s s') (hs : P s)
    (step : ∀ t u c, p c → P t → C.call t c = .ok u → P u) : P s' := by
  induction h with
  | refl => exact hs
  | call _ allowed returns ih => exact step _ _ _ allowed ih returns

/-! ### What an access requests -/

/-- The fills on their way after an access has requested its lines. -/
def requestFills (level completion : ℕ) (lines : List ℤ) (fills : List (ℤ × ℕ × ℕ)) :
    List (ℤ × ℕ × ℕ) :=
  lines.foldl (fun fills line => fills.filter (·.1 ≠ line) ++ [(line, completion, level)]) fills

/-- A hit in L1 touches its lines. -/
def touchLines (C : MemoryConfig) (s : MemoryState) (lines : List ℤ) : MemoryState :=
  lines.foldl (fun s line => (C.touch s 0 line).1) s

theorem requestLines_hit {completion : ℕ} {lines : List ℤ} :
    C.requestLines s 0 completion lines = C.touchLines s lines := rfl

theorem requestLines_miss {level completion : ℕ} (h : level ≠ 0) : ∀ {lines : List ℤ} {s : MemoryState},
    C.requestLines s level completion lines =
      { s with pendingFills := requestFills level completion lines s.pendingFills }
  | [], _ => rfl
  | line :: lines, s => by
    unfold requestLines requestFills
    rw [List.foldl_cons, List.foldl_cons, if_neg h]
    exact requestLines_miss h

theorem mem_requestFills {level completion : ℕ} {f : ℤ × ℕ × ℕ} : ∀ {lines : List ℤ}
    {fills : List (ℤ × ℕ × ℕ)}, f ∈ requestFills level completion lines fills ↔
      (f.1 ∈ lines ∧ f.2 = (completion, level)) ∨ f.1 ∉ lines ∧ f ∈ fills
  | [], fills => by simp [requestFills]
  | line :: lines, fills => by
    have ih : f ∈ requestFills level completion lines
        (fills.filter (·.1 ≠ line) ++ [(line, completion, level)]) ↔ _ := mem_requestFills
    have hcons : requestFills level completion (line :: lines) fills = requestFills level completion lines
        (fills.filter (·.1 ≠ line) ++ [(line, completion, level)]) := rfl
    rw [hcons, ih]
    obtain ⟨x, v⟩ := f
    by_cases hl : x ∈ lines
    · simp [hl]
    · by_cases hx : x = line
      · subst hx
        simp [hl]
      · simp [hl, hx]

theorem nodup_requestFills {level completion : ℕ} : ∀ {lines : List ℤ} {fills : List (ℤ × ℕ × ℕ)},
    (fills.map (·.1)).Nodup → ((requestFills level completion lines fills).map (·.1)).Nodup
  | [], _, h => h
  | line :: lines, fills, h => by
    have hnext : ((fills.filter (·.1 ≠ line) ++ [(line, completion, level)]).map (·.1)).Nodup := by
      rw [List.map_append]
      refine List.nodup_append.mpr ⟨h.sublist (List.filter_sublist.map _), List.nodup_singleton _, ?_⟩
      rintro a ha b hb rfl
      obtain ⟨f, hf, rfl⟩ := List.mem_map.mp ha
      obtain rfl : f.1 = line := by simpa using hb
      simpa using (List.mem_filter.mp hf).2
    have hrest : ((requestFills level completion lines _).map (·.1)).Nodup := nodup_requestFills hnext
    exact hrest

theorem touchLines_pendingFills : ∀ (lines : List ℤ) (s : MemoryState),
    (C.touchLines s lines).pendingFills = s.pendingFills
  | [], _ => rfl
  | line :: lines, s => by
    refine (touchLines_pendingFills lines (C.touch s 0 line).1).trans ?_
    rw [touch_eq]
    rfl

/-- The lines touched depend on the sets alone. -/
theorem touchLines_sets : ∀ (lines : List ℤ) {s s' : MemoryState}, s'.sets = s.sets →
    (C.touchLines s' lines).sets = (C.touchLines s lines).sets
  | [], _, _, h => h
  | line :: lines, s, s', h => by
    refine touchLines_sets lines ?_
    funext k i
    rw [touch_sets, touch_sets, h]

theorem Lawful.touchLines : ∀ (lines : List ℤ) {s : MemoryState}, Lawful C s → Lawful C (C.touchLines s lines)
  | [], _, h => h
  | line :: lines, s, h => Lawful.touchLines lines (h.touch 0 line)

/-- A touch of a line that is there moves no line. -/
theorem contains_touch_of_mem (h : Lawful C s) {level : ℕ} {line : ℤ} (hx : C.contains s level line = true)
    (k : ℕ) (y : ℤ) : C.contains (C.touch s level line).1 k y = true ↔ C.contains s k y = true := by
  have hnone : (C.touch s level line).2 = none := by
    rw [touch_eq, Recency.touch_of_mem (contains_iff.mp hx)]
  rw [contains_touch h, hnone]
  split
  · next hk =>
    subst hk
    constructor
    · rintro ⟨rfl | hy, -⟩
      · exact hx
      · exact hy
    · exact fun hy => ⟨.inr hy, by simp⟩
  · rfl

theorem contains_touchLines : ∀ (lines : List ℤ) {s : MemoryState}, Lawful C s →
    (∀ x ∈ lines, C.contains s 0 x = true) → ∀ k y,
      (C.contains (C.touchLines s lines) k y = true ↔ C.contains s k y = true)
  | [], _, _, _, _, _ => Iff.rfl
  | line :: lines, s, h, hx, k, y => by
    have hsame := contains_touch_of_mem h (hx line List.mem_cons_self)
    refine (contains_touchLines lines (h.touch 0 line) (fun x hmem => ?_) k y).trans (hsame k y)
    exact (hsame 0 x).mpr (hx x (List.mem_cons_of_mem _ hmem))

/-! ### What a call does -/

/-- The lines and the fills of two states are the same. -/
structure SameLines (s s' : MemoryState) : Prop where
  sets : s'.sets = s.sets
  pendingFills : s'.pendingFills = s.pendingFills

theorem SameLines.refl : SameLines s s := ⟨rfl, rfl⟩

theorem SameLines.trans {t u : MemoryState} (h : SameLines s t) (h' : SameLines t u) : SameLines s u :=
  ⟨h'.sets.trans h.sets, h'.pendingFills.trans h.pendingFills⟩

/-- The state after an access that merges with no pending fill: a hit in L1 or a miss. -/
inductive Requests (C : MemoryConfig) (s : MemoryState) (a : MemoryAccess) (s' : MemoryState) : Prop
  | hit (level : C.worstLevel s a.cacheLines = 0) (sets : s'.sets = (C.touchLines s a.cacheLines).sets)
      (pendingFills : s'.pendingFills = s.pendingFills)
  | miss (completion : ℕ) (level : C.worstLevel s a.cacheLines ≠ 0) (sets : s'.sets = s.sets)
      (pendingFills : s'.pendingFills =
        requestFills (C.worstLevel s a.cacheLines) completion a.cacheLines s.pendingFills)

theorem outstandingBlocker_same : ∀ {ls : List ℕ} {s : MemoryState}
    {r : MemoryState × Option (MemoryStall × ℕ)}, C.outstandingBlocker now ls s = .ok r → SameLines s r.1
  | [], _, _, h => by cases h; exact .refl
  | l :: ls, s, r, h => by
    obtain ⟨limit, -, h⟩ := ok_bind.mp h
    split at h
    · split at h
      · cases h; exact ⟨rfl, rfl⟩
      · cases h
    · have hrest := outstandingBlocker_same h
      exact ⟨hrest.sets, hrest.pendingFills⟩

theorem blocker_same {m : Option MemoryAccess} {r : MemoryState × Option (MemoryStall × ℕ)}
    (h : C.blocker s m now = .ok r) : SameLines (C.completeFills s now) r.1 := by
  cases m with
  | none => cases h
  | some a =>
    obtain ⟨⟨t, level⟩, ht, h⟩ := ok_bind.mp h
    cases ht
    dsimp only at h
    split at h
    · cases h; exact .refl
    · split at h
      · cases h; exact .refl
      · exact outstandingBlocker_same h

/-- What `charge` returns, and what it leaves of the lines. -/
theorem charge_requests {a : MemoryAccess} {r : MemoryState × AccessResult}
    (h : C.charge s a (C.worstLevel s a.cacheLines) now = .ok r) : Requests C s a r.1 := by
  unfold charge at h
  dsimp only at h
  split at h
  · next latency _ _ _ =>
    obtain ⟨bandwidth, -, h⟩ := ok_bind.mp h
    cases h
    dsimp only
    by_cases hlevel : C.worstLevel s a.cacheLines = 0
    · refine .hit hlevel ?_ ?_
      · rw [hlevel, requestLines_hit]
        exact touchLines_sets _ rfl
      · rw [hlevel, requestLines_hit, touchLines_pendingFills]
    · refine .miss (now + latency) hlevel ?_ ?_
      · rw [requestLines_miss hlevel]
      · rw [requestLines_miss hlevel]
  · cases h

/-- The state after an access that merges with pending fills: its lines count as served. -/
def merged (s : MemoryState) (level lines : ℕ) : MemoryState :=
  { s with hits := Function.update s.hits level (s.hits level + lines) }

/-- What an access does that is let through, from the state in which the check leaves it. -/
theorem access_ok {m : Option MemoryAccess} {r : MemoryState × AccessResult}
    (h : C.access s m now = .ok r) : ∃ a t, m = some a ∧ C.blocker s m now = .ok (t, none) ∧
      C.completeFills t now = t ∧
      ((∃ completion, ((t.pendingFills.filter fun f => f.1 ∈ a.cacheLines).map (·.2.1)).max? = some completion ∧
          r = (merged t (C.worstLevel t a.cacheLines) a.cacheLines.length,
            ⟨C.worstLevel t a.cacheLines, completion - now, 0, completion⟩)) ∨
        (hasPending t a.cacheLines = false ∧ C.charge t a (C.worstLevel t a.cacheLines) now = .ok r)) := by
  obtain ⟨⟨t, reason⟩, hb, h⟩ := ok_bind.mp h
  cases reason with
  | some _ => cases h
  | none =>
    obtain ⟨⟨t', level⟩, ht, h⟩ := ok_bind.mp h
    cases m with
    | none => cases ht
    | some a =>
      have hfix : C.completeFills t now = t := by
        have hsame := blocker_same hb
        refine completeFills_eq_self fun f hf => ?_
        rw [hsame.pendingFills] at hf
        exact completeFills_pending f hf
      cases ht
      rw [hfix] at h
      dsimp only at h
      refine ⟨a, t, rfl, hb, hfix, ?_⟩
      split at h
      · next completion hmax =>
        cases h
        exact .inl ⟨completion, hmax, rfl⟩
      · next hmax =>
        refine .inr ⟨?_, h⟩
        have hnil := List.map_eq_nil_iff.mp (List.max?_eq_none_iff.mp hmax)
        rw [List.filter_eq_nil_iff] at hnil
        rw [Bool.eq_false_iff]
        intro hp
        obtain ⟨x, hx, hp⟩ := List.any_eq_true.mp hp
        obtain ⟨f, hf, he⟩ := List.any_eq_true.mp hp
        obtain rfl : f.1 = x := by simpa using he
        exact hnil f hf (by simpa using hx)

/-- **What a call does**: it applies the fills that are due, and an access that merges with
none requests its lines. -/
theorem call_cases {c : Call} (h : C.call s c = .ok s') :
    ∃ now, SameLines (C.completeFills s now) s' ∨
      ∃ a, c.operand = some a ∧ hasPending (C.completeFills s now) a.cacheLines = false ∧
        Requests C (C.completeFills s now) a s' := by
  cases c with
  | peekLevel m now =>
    obtain ⟨r, hr, rfl⟩ := ok_map.mp h
    cases m with
    | none => cases hr
    | some a => cases hr; exact ⟨now, .inl .refl⟩
  | blocker m now =>
    obtain ⟨r, hr, rfl⟩ := ok_map.mp h
    exact ⟨now, .inl (blocker_same hr)⟩
  | access m now =>
    obtain ⟨r, hr, rfl⟩ := ok_map.mp h
    obtain ⟨a, t, rfl, hb, -, hcases⟩ := access_ok hr
    have hsame := blocker_same hb
    refine ⟨now, ?_⟩
    rcases hcases with ⟨completion, -, rfl⟩ | ⟨hpend, hcharge⟩
    · exact .inl (hsame.trans ⟨rfl, rfl⟩)
    · -- the check has changed the outstanding requests alone
      have hworst : ∀ lines, C.worstLevel t lines = C.worstLevel (C.completeFills s now) lines := by
        intro lines
        unfold worstLevel lineLevel contains
        rw [hsame.sets, hsame.pendingFills]
      refine .inr ⟨a, rfl, ?_, ?_⟩
      · unfold hasPending at hpend ⊢
        rwa [hsame.pendingFills] at hpend
      · cases charge_requests hcharge with
        | hit level sets fills =>
          exact .hit (by rw [← hworst]; exact level) (sets.trans (touchLines_sets _ hsame.sets))
            (fills.trans hsame.pendingFills)
        | miss completion level sets fills =>
          refine .miss completion (by rw [← hworst]; exact level) (sets.trans hsame.sets) ?_
          rw [fills, hworst, hsame.pendingFills]

/-- A line that no fill is on its way for and that L1 serves is in L1. -/
theorem contains_of_lineLevel {line : ℤ} (hC : 0 < C.levels.length)
    (hp : ∀ f ∈ s.pendingFills, f.1 ≠ line) (h : C.lineLevel s line = 0) : C.contains s 0 line = true := by
  unfold lineLevel at h
  have hnone : s.pendingFills.find? (·.1 = line) = none :=
    List.find?_eq_none.mpr fun f hf => by simpa using hp f hf
  rw [hnone] at h
  dsimp only at h
  cases hfind : (List.range C.levels.length).find? fun l => C.contains s l line with
  | none =>
    rw [hfind] at h
    have : C.levels.length = 0 := h
    omega
  | some l =>
    rw [hfind] at h
    obtain rfl : l = 0 := h
    simpa using List.find?_some hfind

theorem le_foldl_max : ∀ (ls : List ℕ) (a : ℕ), a ≤ ls.foldl max a ∧ ∀ l ∈ ls, l ≤ ls.foldl max a
  | [], a => ⟨le_rfl, by simp⟩
  | l :: ls, a => by
    obtain ⟨h1, h2⟩ := le_foldl_max ls (max a l)
    refine ⟨(le_max_left a l).trans h1, fun k hk => ?_⟩
    rcases List.mem_cons.mp hk with rfl | hk
    · exact (le_max_right a k).trans h1
    · exact h2 k hk

theorem lineLevel_le_worst {lines : List ℤ} {line : ℤ} (h : line ∈ lines) :
    C.lineLevel s line ≤ C.worstLevel s lines := by
  unfold worstLevel
  rw [if_neg (List.ne_nil_of_mem h)]
  exact (le_foldl_max _ 0).2 _ (List.mem_map_of_mem h)

theorem hasPending_false {lines : List ℤ} (h : hasPending s lines = false) :
    ∀ x ∈ lines, ∀ f ∈ s.pendingFills, f.1 ≠ x := by
  intro x hx f hf he
  have htrue : hasPending s lines = true :=
    List.any_eq_true.mpr ⟨x, hx, List.any_eq_true.mpr ⟨f, hf, by simpa using he⟩⟩
  rw [h] at htrue
  cases htrue

/-- The lines of an access that L1 serves are in L1. -/
theorem contains_of_hit {lines : List ℤ} (hC : 0 < C.levels.length) (hp : hasPending s lines = false)
    (h : C.worstLevel s lines = 0) : ∀ x ∈ lines, C.contains s 0 x = true := by
  intro x hx
  have hle : C.lineLevel s x ≤ C.worstLevel s lines := lineLevel_le_worst hx
  exact contains_of_lineLevel hC (hasPending_false hp x hx) (by omega)

/-! ### The states a hierarchy passes through -/

theorem Lawful.call {c : Call} (h : Lawful C s) (hc : C.call s c = .ok s') : Lawful C s' := by
  obtain ⟨now, hsame | ⟨a, -, -, hreq⟩⟩ := call_cases hc
  · exact (h.completeFills now).congr hsame.sets
  · cases hreq with
    | hit _ sets _ => exact ((h.completeFills now).touchLines a.cacheLines).congr sets
    | miss _ _ sets _ => exact (h.completeFills now).congr sets

theorem Lawful.warm (target : ℕ) (lines : List ℤ) : Lawful C (C.warm target lines) := by
  have hline : ∀ (line : ℤ) (s : MemoryState), Lawful C s → Lawful C
      ((List.range' target (C.levels.length - target)).foldl (fun s l => (C.touch s l line).1) s) :=
    fun line s h => h.foldl (fun _ k hs => hs.touch k line) _
  have hall : ∀ (ls : List ℤ) (s : MemoryState), Lawful C s → Lawful C (ls.foldl (fun s line =>
      (List.range' target (C.levels.length - target)).foldl (fun s l => (C.touch s l line).1) s) s) := by
    intro ls
    induction ls with
    | nil => exact fun _ h => h
    | cons line ls ih => exact fun s h => ih _ (hline line s h)
  exact hall _ _ lawful_empty

theorem Lawful.initialState {mode : CacheMode} {lines : List ℤ} (h : C.initialState mode lines = .ok s) :
    Lawful C s := by
  unfold MemoryConfig.initialState at h
  dsimp only at h
  split at h
  · cases h; exact lawful_empty
  · split at h
    · cases h; exact .warm _ _
    · cases h
  · split at h
    · cases h; exact .warm _ _
    · cases h

/-- The sets of every state of a hierarchy are lawful. -/
theorem Reachable.lawful {mode : CacheMode} {lines : List ℤ} (h : Reachable C mode lines s) : Lawful C s := by
  obtain ⟨s₀, hs₀, h⟩ := h
  exact h.invariant (.initialState hs₀) fun _ _ _ _ ht hc => ht.call hc

/-- No line has two fills on their way. -/
def DistinctFills (s : MemoryState) : Prop := (s.pendingFills.map (·.1)).Nodup

theorem DistinctFills.completeFills (h : DistinctFills s) (now : ℕ) :
    DistinctFills (C.completeFills s now) := h.sublist (List.filter_sublist.map _)

theorem DistinctFills.call {c : Call} (h : DistinctFills s) (hc : C.call s c = .ok s') : DistinctFills s' := by
  obtain ⟨now, hsame | ⟨a, -, -, hreq⟩⟩ := call_cases hc
  · unfold DistinctFills
    rw [hsame.pendingFills]
    exact h.completeFills now
  · unfold DistinctFills
    cases hreq with
    | hit _ _ fills => rw [fills]; exact h.completeFills now
    | miss _ _ _ fills => rw [fills]; exact nodup_requestFills (h.completeFills now)

theorem touch_pendingFills (level : ℕ) (line : ℤ) : (C.touch s level line).1.pendingFills = s.pendingFills := by
  rw [touch_eq]
  rfl

theorem foldl_pendingFills {α : Type} {f : MemoryState → α → MemoryState}
    (hf : ∀ s x, (f s x).pendingFills = s.pendingFills) : ∀ (xs : List α) (s : MemoryState),
      (xs.foldl f s).pendingFills = s.pendingFills
  | [], _ => rfl
  | x :: xs, s => (foldl_pendingFills hf xs (f s x)).trans (hf s x)

theorem warm_pendingFills (target : ℕ) (lines : List ℤ) : (C.warm target lines).pendingFills = [] :=
  foldl_pendingFills (fun _ _ => foldl_pendingFills (fun _ _ => touch_pendingFills _ _) _ _) _ _

theorem initialState_pendingFills {mode : CacheMode} {lines : List ℤ}
    (h : C.initialState mode lines = .ok s) : s.pendingFills = [] := by
  unfold MemoryConfig.initialState at h
  dsimp only at h
  split at h
  · cases h; rfl
  · split at h
    · cases h; exact warm_pendingFills _ _
    · cases h
  · split at h
    · cases h; exact warm_pendingFills _ _
    · cases h

end MemoryConfig
end VectorSim
