/-
# What the hierarchy counts

`MemoryHierarchy.hits` counts lines, at the level that serves their access. A check
counts nothing (`blocker_hits`) and an access counts its lines once (`access_hits`),
also where it merges with a fill. The level is one of the hierarchy's, since no fill
comes from beyond DRAM (`Leveled`).
-/
import VectorSim.Memory.Limits
import VectorSim.Memory.Floor

namespace VectorSim
namespace MemoryConfig

open Checked

variable {C : MemoryConfig} {s s' t : MemoryState} {now : ℕ} {a : MemoryAccess}

/-! ### Hits -/

theorem completeFills_hits (s : MemoryState) (now : ℕ) : (C.completeFills s now).hits = s.hits := by
  rw [completeFills_eq]

theorem outstandingBlocker_hits : ∀ {ls : List ℕ} {s : MemoryState} {r : MemoryState × Option (MemoryStall × ℕ)},
    C.outstandingBlocker now ls s = .ok r → r.1.hits = s.hits
  | [], _, _, h => by cases h; rfl
  | l :: ls, s, r, h => by
    obtain ⟨limit, -, h⟩ := ok_bind.mp h
    split at h
    · split at h
      · cases h; rfl
      · cases h
    · have hrest := outstandingBlocker_hits h
      exact hrest

/-- A check counts nothing. -/
theorem blocker_hits {m : Option MemoryAccess} {r : MemoryState × Option (MemoryStall × ℕ)}
    (h : C.blocker s m now = .ok r) : r.1.hits = s.hits := by
  cases m with
  | none => cases h
  | some a =>
    obtain ⟨⟨t, level⟩, ht, h⟩ := ok_bind.mp h
    cases ht
    rw [← completeFills_hits (C := C) s now]
    dsimp only at h
    split at h
    · cases h; rfl
    · split at h
      · cases h; rfl
      · exact outstandingBlocker_hits h

theorem requestLines_hits {level completion : ℕ} (lines : List ℤ) (s : MemoryState) :
    (C.requestLines s level completion lines).hits = s.hits := by
  refine foldl_frame (p := MemoryState.hits) (fun s line => ?_) lines s
  split
  · rw [touch_frame]
  · rfl

/-- An access counts its lines at the level that serves it. -/
theorem access_hits {r : AccessResult} (h : C.access s (some a) now = .ok (s', r)) :
    s'.hits = Function.update s.hits r.level (s.hits r.level + a.cacheLines.length) := by
  obtain ⟨a', t, he, hb, -, hcases⟩ := access_ok h
  obtain rfl := Option.some.inj he
  have ht : t.hits = s.hits := blocker_hits hb
  rcases hcases with ⟨completion, -, hr⟩ | ⟨-, hcharge⟩
  · obtain ⟨rfl, rfl⟩ := Prod.mk.inj hr
    rw [← ht]
    rfl
  · unfold charge at hcharge
    dsimp only at hcharge
    split at hcharge
    · obtain ⟨bandwidth, -, hcharge⟩ := ok_bind.mp hcharge
      cases hcharge
      rw [requestLines_hits, ← ht]
    · cases hcharge

theorem initialState_hits {mode : CacheMode} {lines : List ℤ} (h : C.initialState mode lines = .ok s) :
    s.hits = empty.hits := by
  rcases initialState_cases h with ⟨-, rfl⟩ | ⟨target, -, -, rfl⟩
  · rfl
  · exact warm_frame (p := MemoryState.hits) (fun s level line => by rw [touch_frame]) target

/-! ### Levels -/

/-- No fill comes from beyond DRAM. -/
def Leveled (C : MemoryConfig) (s : MemoryState) : Prop := ∀ f ∈ s.pendingFills, f.2.2 ≤ C.dramLevel

theorem Leveled.completeFills (h : Leveled C s) (now : ℕ) : Leveled C (C.completeFills s now) :=
  fun f hf => h f (List.mem_of_mem_filter hf)

theorem Leveled.blocker {m : Option MemoryAccess} {r : MemoryState × Option (MemoryStall × ℕ)} (hs : Leveled C s)
    (h : C.blocker s m now = .ok r) : Leveled C r.1 := by
  intro f hf
  rw [(blocker_same h).pendingFills] at hf
  exact hs.completeFills now f hf

theorem Leveled.lineLevel (hs : Leveled C s) (line : ℤ) : C.lineLevel s line ≤ C.dramLevel := by
  by_cases hp : Pending s line
  · unfold MemoryConfig.lineLevel
    cases hfind : s.pendingFills.find? (·.1 = line) with
    | none =>
      obtain ⟨f, hf, he⟩ := hp
      have hnone := List.find?_eq_none.mp hfind f hf
      simp [he] at hnone
    | some f => exact hs f (List.mem_of_find?_eq_some hfind)
  · exact lineLevel_le_dram hp

theorem Leveled.worstLevel (hs : Leveled C s) (lines : List ℤ) : C.worstLevel s lines ≤ C.dramLevel := by
  unfold MemoryConfig.worstLevel
  split
  · unfold dramLevel
    omega
  · have hfold : ∀ (ls : List ℕ) (n : ℕ), n ≤ C.dramLevel → (∀ l ∈ ls, l ≤ C.dramLevel) →
        ls.foldl max n ≤ C.dramLevel := by
      intro ls
      induction ls with
      | nil => exact fun n hn _ => hn
      | cons l ls ih =>
        exact fun n hn hl => ih _ (max_le hn (hl l List.mem_cons_self)) fun k hk => hl k (List.mem_cons_of_mem _ hk)
    refine hfold _ 0 (Nat.zero_le _) fun l hl => ?_
    obtain ⟨line, -, rfl⟩ := List.mem_map.mp hl
    exact hs.lineLevel line

theorem Leveled.access {r : AccessResult} (hs : Leveled C s) (h : C.access s (some a) now = .ok (s', r)) :
    Leveled C s' ∧ r.level ≤ C.dramLevel := by
  obtain ⟨a', t, he, hb, -, hcases⟩ := access_ok h
  obtain rfl := Option.some.inj he
  have ht : Leveled C t := hs.blocker hb
  have hlevel := ht.worstLevel a.cacheLines
  rcases hcases with ⟨completion, -, hr⟩ | ⟨-, hcharge⟩
  · obtain ⟨rfl, rfl⟩ := Prod.mk.inj hr
    exact ⟨ht, hlevel⟩
  · have hr : r.level = C.worstLevel t a.cacheLines := by
      unfold charge at hcharge
      dsimp only at hcharge
      split at hcharge
      · obtain ⟨bandwidth, -, hcharge⟩ := ok_bind.mp hcharge
        cases hcharge
        rfl
      · cases hcharge
    refine ⟨fun f hf => ?_, hr ▸ hlevel⟩
    cases charge_requests hcharge with
    | hit _ _ fills =>
      rw [fills] at hf
      exact ht f hf
    | miss completion _ _ fills =>
      rw [fills] at hf
      rcases mem_requestFills.mp hf with ⟨-, he⟩ | ⟨-, hf⟩
      · rw [he]
        exact hlevel
      · exact ht f hf

/-! ### Transfers -/

/-- An access is over when the hierarchy has its lines. -/
theorem access_completion {r : AccessResult} (h : C.access s (some a) now = .ok (s', r)) :
    r.completionTick = now + r.latencyTicks := by
  rcases access_latency h with ⟨completion, hlast, hr, hlatency⟩ | ⟨-, -, hr⟩
  · have hlater := lastFill_later hlast
    omega
  · exact hr

/-- The transfer is that of an access, with the times its level charges. -/
structure Charges (C : MemoryConfig) (a : MemoryAccess) (x : Transfer) : Prop where
  access : x.access = a.access
  bandwidth : ∃ bpc, bytesPerCycle (C.levelEntry x.level) a.access = some bpc ∧
    C.bandwidthTicks a.bytes bpc = .ok x.bandwidth
  latency : ∃ latency, (C.levelEntry x.level).latencyTicks = some latency ∧ x.completion = x.start + latency

/-- An access either waits for a fill that is on its way, or is charged and asks for its lines. -/
inductive Settles (C : MemoryConfig) (s : MemoryState) (a : MemoryAccess) (now : ℕ) (s' : MemoryState) (r : AccessResult) :
    Prop
  | merged {f : ℤ × ℕ × ℕ} (fill : f ∈ s.pendingFills) (line : f.1 ∈ a.cacheLines) (later : now < f.2.1)
      (waits : f.2.1 ≤ r.completionTick) (transfers : transferOf C s a now r = [])
      (fills : s'.pendingFills ⊆ s.pendingFills)
  | charged {x : Transfer} (transfers : transferOf C s a now r = [x]) (start : x.start = now) (level : x.level = r.level)
      (completion : x.completion = r.completionTick) (charges : Charges C a x)
      (fills : ∀ f ∈ s'.pendingFills, f ∈ s.pendingFills ∨ f.1 ∈ a.cacheLines ∧ f.2.1 = x.completion)

/-- What is left of the fills once those that are due are applied. -/
theorem blocker_fills {m : Option MemoryAccess} {r : MemoryState × Option (MemoryStall × ℕ)}
    (h : C.blocker s m now = .ok r) : r.1.pendingFills ⊆ s.pendingFills := by
  rw [(blocker_same h).pendingFills]
  exact fun f hf => List.mem_of_mem_filter hf

theorem charge_charges {t : MemoryState} {level : ℕ} {r : AccessResult} (h : C.charge t a level now = .ok (s', r)) :
    r.level = level ∧ Charges C a ⟨r.level, a.access, now, r.bandwidthTicks, r.completionTick⟩ ∧
      ∀ f ∈ s'.pendingFills, f ∈ t.pendingFills ∨ f.1 ∈ a.cacheLines ∧ f.2.1 = r.completionTick := by
  unfold charge at h
  dsimp only at h
  split at h
  · next latency bpc hlatency hbpc =>
    obtain ⟨bandwidth, hbandwidth, h⟩ := ok_bind.mp h
    cases h
    refine ⟨rfl, ⟨rfl, ⟨bpc, hbpc, hbandwidth⟩, latency, hlatency, rfl⟩, fun f hf => ?_⟩
    by_cases hl : level = 0
    · subst hl
      rw [requestLines_hit, touchLines_pendingFills] at hf
      exact .inl hf
    · rw [requestLines_miss hl] at hf
      rcases mem_requestFills.mp hf with ⟨hin, he⟩ | ⟨-, hf⟩
      · exact .inr ⟨hin, congrArg Prod.fst he⟩
      · exact .inl hf
  · cases h

/-- **What an access that is let through does.** -/
theorem access_settles {r : AccessResult} (h : C.access s (some a) now = .ok (s', r)) : Settles C s a now s' r := by
  obtain ⟨a', t, he, hb, -, hcases⟩ := access_ok h
  obtain rfl := Option.some.inj he
  have hsub : t.pendingFills ⊆ s.pendingFills := blocker_fills hb
  have hsame : hasPending (C.completeFills s now) a.cacheLines = hasPending t a.cacheLines := by
    unfold hasPending
    rw [(blocker_same hb).pendingFills]
  rcases hcases with ⟨completion, hmax, hr⟩ | ⟨hpend, hcharge⟩
  · obtain ⟨rfl, rfl⟩ := Prod.mk.inj hr
    obtain ⟨f, hf, hlast⟩ := List.mem_map.mp (List.max?_eq_some_iff.mp hmax).1
    obtain ⟨hf, hin⟩ := List.mem_filter.mp hf
    have hpend : hasPending t a.cacheLines = true := hasPending_iff.mpr ⟨f.1, by simpa using hin, f, hf, rfl⟩
    have hlater : now < f.2.1 := by
      have hf' := hf
      rw [(blocker_same hb).pendingFills] at hf'
      exact completeFills_pending f hf'
    refine .merged (hsub hf) (by simpa using hin) hlater hlast.le ?_ hsub
    rw [transferOf, hsame, hpend, if_pos rfl]
  · obtain ⟨hlevel, hcharges, hfills⟩ := charge_charges hcharge
    refine .charged ?_ rfl rfl rfl hcharges fun f hf => (hfills f hf).imp_left fun hf => hsub hf
    rw [transferOf, hsame, hpend, if_neg (by simp)]

/-- A transfer starts at the tick of its access. -/
theorem Serves.started {s₀ : MemoryState} {xs : List Transfer} (h : Serves C s₀ xs now s) : ∀ x ∈ xs, x.start ≤ now := by
  induction h with
  | start => simp
  | poll _ forward _ ih => exact fun x hx => (ih x hx).trans forward
  | access _ forward returns ih =>
    intro x hx
    rcases List.mem_append.mp hx with hx | hx
    · exact (ih x hx).trans forward
    · unfold transferOf at hx
      split at hx
      · cases hx
      · rw [List.mem_singleton.mp hx]

end MemoryConfig
end VectorSim
