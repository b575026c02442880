/-
# When the hierarchy answers, and when it lets through

A hierarchy whose service parameters are all measured (`Measured`) answers every access:
neither the check nor the access that follows it raises. And the check stands in nobody's
way once the bandwidth is free and the outstanding requests have finished: what it keeps
about the past (`blocker_past`) it only ever forgets (`blocker_settled`).
-/
import VectorSim.Memory.Coverage
import VectorSim.Memory.Polling

namespace VectorSim

open Checked

/-- The parameters of a level are known, and they let it transfer a whole byte per cycle and
serve a miss at least. -/
structure LevelEntry.Measured (e : LevelEntry) : Prop where
  latency : e.latencyTicks.isSome
  read : ∃ b ∈ e.readBytesPerCycle, 0 < b.floor
  write : ∃ b ∈ e.writeBytesPerCycle, 0 < b.floor
  outstanding : ∃ n ∈ e.maxOutstanding, 1 ≤ n

namespace MemoryConfig

variable {C : MemoryConfig} {s t : MemoryState} {now : ℕ} {a : MemoryAccess}

def Measured (C : MemoryConfig) : Prop := C.dram.Measured ∧ ∀ l ∈ C.levels, l.toLevelEntry.Measured

theorem Measured.entry (hC : C.Measured) (level : ℕ) : (C.levelEntry level).Measured := by
  unfold levelEntry
  cases hl : C.levels[level]? with
  | none => exact hC.1
  | some l => exact hC.2 l (List.mem_of_getElem? hl)

theorem Measured.limit (hC : C.Measured) (level : ℕ) : ∃ n, C.outstandingLimit level = .ok n ∧ 1 ≤ n := by
  obtain ⟨n, hn, hpos⟩ := (hC.entry level).outstanding
  refine ⟨n, ?_, hpos⟩
  rw [outstandingLimit, Option.mem_def.mp hn]

theorem Measured.bytes (hC : C.Measured) (level : ℕ) (k : AccessKind) :
    ∃ b, bytesPerCycle (C.levelEntry level) k = some b ∧ 0 < b.floor := by
  cases k with
  | load => exact (hC.entry level).read
  | store => exact (hC.entry level).write

/-! ### The check -/

/-- The check of an access, at the level that serves it. -/
theorem blocker_eq (s : MemoryState) (a : MemoryAccess) (now : ℕ) : C.blocker s (some a) now =
    if hasPending (C.completeFills s now) a.cacheLines then .ok (C.completeFills s now, none)
    else if now < (C.completeFills s now).bandwidthFree (C.worstLevel (C.completeFills s now) a.cacheLines) a.access then
      .ok (C.completeFills s now, some (.bandwidth, (C.completeFills s now).bandwidthFree
        (C.worstLevel (C.completeFills s now) a.cacheLines) a.access))
    else C.outstandingBlocker now (C.missPath (C.worstLevel (C.completeFills s now) a.cacheLines))
      (C.completeFills s now) := rfl

theorem completeFills_bandwidth (s : MemoryState) (now : ℕ) :
    (C.completeFills s now).bandwidthFree = s.bandwidthFree := by rw [completeFills_eq]

theorem completeFills_outstanding (s : MemoryState) (now : ℕ) :
    (C.completeFills s now).outstanding = s.outstanding := by rw [completeFills_eq]

theorem outstandingBlocker_settled : ∀ {ls : List ℕ} {s : MemoryState} {r : MemoryState × Option (MemoryStall × ℕ)},
    C.outstandingBlocker now ls s = .ok r →
      r.1.bandwidthFree = s.bandwidthFree ∧ ∀ l, r.1.outstanding l ⊆ s.outstanding l
  | [], _, _, h => by cases h; exact ⟨rfl, fun _ => List.Subset.refl _⟩
  | l :: ls, s, r, h => by
    have hsub : ∀ k, (Function.update s.outstanding l ((s.outstanding l).filter (now < ·))) k ⊆ s.outstanding k := by
      intro k
      by_cases hk : k = l
      · subst hk
        simp
      · simp [hk]
    obtain ⟨limit, -, h⟩ := ok_bind.mp h
    split at h
    · split at h
      · cases h; exact ⟨rfl, hsub⟩
      · cases h
    · obtain ⟨hfree, hout⟩ := outstandingBlocker_settled h
      exact ⟨hfree, fun k => List.Subset.trans (hout k) (hsub k)⟩

/-- The check reserves nothing and adds no request. -/
theorem blocker_settled {m : Option MemoryAccess} {r : MemoryState × Option (MemoryStall × ℕ)}
    (h : C.blocker s m now = .ok r) :
    r.1.bandwidthFree = s.bandwidthFree ∧ ∀ l, r.1.outstanding l ⊆ s.outstanding l := by
  rcases m with _ | a
  · cases h
  rw [blocker_eq] at h
  have hfree := completeFills_bandwidth (C := C) s now
  have hout := completeFills_outstanding (C := C) s now
  split at h
  · cases h; exact ⟨hfree, fun l => by rw [hout]; exact List.Subset.refl _⟩
  · split at h
    · cases h; exact ⟨hfree, fun l => by rw [hout]; exact List.Subset.refl _⟩
    · obtain ⟨h1, h2⟩ := outstandingBlocker_settled h
      exact ⟨h1.trans hfree, fun l => by rw [← hout]; exact h2 l⟩

theorem outstandingBlocker_answers (hC : C.Measured) : ∀ (ls : List ℕ) (s : MemoryState),
    ∃ r, C.outstandingBlocker now ls s = .ok r
  | [], s => ⟨_, rfl⟩
  | l :: ls, s => by
    obtain ⟨n, hn, hpos⟩ := hC.limit l
    simp only [outstandingBlocker, hn, Bind.bind, Except.bind]
    split
    · next hfull =>
      -- a level that is full has a request to wait for
      cases hmin : ((s.outstanding l).filter (now < ·)).min? with
      | none =>
        have : (s.outstanding l).filter (now < ·) = [] := List.min?_eq_none_iff.mp hmin
        simp only [this, List.length_nil] at hfull
        omega
      | some t => exact ⟨_, rfl⟩
    · exact outstandingBlocker_answers hC ls _

/-- **A measured hierarchy answers.** -/
theorem blocker_answers (hC : C.Measured) (s : MemoryState) (a : MemoryAccess) (now : ℕ) :
    ∃ r, C.blocker s (some a) now = .ok r := by
  rw [blocker_eq]
  split
  · exact ⟨_, rfl⟩
  · split
    · exact ⟨_, rfl⟩
    · exact outstandingBlocker_answers hC _ _

theorem missPath_le {level l : ℕ} (hle : level ≤ C.dramLevel) (h : l ∈ C.missPath level) : l ≤ C.dramLevel := by
  unfold missPath at h
  split at h
  · have := List.mem_range.mp h
    unfold dramLevel
    omega
  · have := List.mem_range.mp h
    omega

/-- What the hierarchy has on its hands is past at `now`. -/
structure Past (C : MemoryConfig) (s : MemoryState) (now : ℕ) : Prop where
  bandwidth : ∀ l ≤ C.dramLevel, ∀ k, s.bandwidthFree l k ≤ now
  outstanding : ∀ l ≤ C.dramLevel, ∀ t ∈ s.outstanding l, t ≤ now

/-- **A hierarchy that has nothing on its hands lets every access through.** -/
theorem blocker_past (hC : C.Measured) (hs : Past C s now) (a : MemoryAccess) :
    ∃ t, C.blocker s (some a) now = .ok (t, none) := by
  rw [blocker_eq]
  split
  · exact ⟨_, rfl⟩
  · next hpend =>
    have hnone : ∀ line ∈ a.cacheLines, ¬ Pending (C.completeFills s now) line := by
      rintro line hline ⟨f, hf, rfl⟩
      exact hpend (List.any_eq_true.mpr ⟨_, hline, List.any_eq_true.mpr ⟨f, hf, by simp⟩⟩)
    have hlevel := worstLevel_le_dram (C := C) hnone
    rw [if_neg]
    · refine ⟨_, outstandingBlocker_none.mpr ⟨rfl, fun l hl => ?_⟩⟩
      obtain ⟨n, hn, hpos⟩ := hC.limit l
      refine ⟨n, hn, ?_⟩
      have hempty : ((C.completeFills s now).outstanding l).filter (now < ·) = [] := by
        rw [completeFills_outstanding, List.filter_eq_nil_iff]
        intro t ht
        have := hs.outstanding l (missPath_le hlevel hl) t ht
        simp
        omega
      simp only [hempty, List.length_nil]
      omega
    · rw [completeFills_bandwidth]
      exact not_lt.mpr (hs.bandwidth _ hlevel _)

/-! ### The access -/

theorem charge_answers (hC : C.Measured) (s : MemoryState) (a : MemoryAccess) (level now : ℕ) :
    ∃ r, C.charge s a level now = .ok r := by
  obtain ⟨latency, hlatency⟩ := Option.isSome_iff_exists.mp (hC.entry level).latency
  obtain ⟨b, hb, hpos⟩ := hC.bytes level a.access
  have hfloor : ¬ b.floor = 0 := by omega
  simp only [charge, hlatency, hb, bandwidthTicks, if_neg hfloor]
  exact ⟨_, rfl⟩

/-- **An access that the check has let through is served.** -/
theorem access_answers (hC : C.Measured) (h : C.blocker s (some a) now = .ok (t, none)) :
    ∃ r, C.access s (some a) now = .ok r := by
  simp only [access, h, peekLevel, Bind.bind, Except.bind]
  split
  · exact ⟨_, rfl⟩
  · exact charge_answers hC _ _ _ _

end MemoryConfig
end VectorSim
