/-
# Internal errors are unreachable

Between a check and the action that follows it an engine asserts that the action
is still possible. In no state of a run does such an assertion fail
(`run_noInternalError`), where no uop lists an issue domain twice and no
macro-op lists a uop twice. The validation of a trace rejects neither: a uop that
lists a domain of one token twice finds the token free and then cannot take it
again (`reserved_twice`).
-/
import VectorSim.StructuralSafety
import VectorSim.RunSafety
import VectorSim.Backend.Zen4Errors
import VectorSim.Backend.XsaiErrors

namespace VectorSim

open Checked Setup

/-- No uop lists an issue domain twice and no macro-op lists a uop twice. -/
structure ListsOnce (T : BoundTrace) : Prop where
  domains : ∀ x ∈ T.uops, x.issueDomains.Nodup
  uops : ∀ m ∈ T.macros, m.uopIds.Nodup

/-- **No state of a run raises an internal error**, neither in the visit of its tick nor in
the choice of the next. -/
theorem run_noInternalError (T : BoundTrace) (hL : ListsOnce T) (P : EngineProfile) (inOrder : Bool)
    (mode : CacheMode) (limit : Option Bool) :
    (∀ E, Zen4.init T P inOrder mode limit = .ok E → Clean (Zen4.run E) ∧
      ∀ now s, Zen4.AtTick E now s → Clean (visitOf (Zen4.phases E now) s) ∧
        ∀ s', visitOf (Zen4.phases E now) s = .ok s' → Clean (Zen4.nextEventTick E now s')) ∧
    (∀ expand E, Xsai.init T P inOrder mode limit expand = .ok E → Clean (Xsai.run E) ∧
      ∀ now s, Xsai.AtTick E now s → Clean (visitOf (Xsai.phases E now) s) ∧
        ∀ s', visitOf (Xsai.phases E now) s = .ok s' → Clean (Xsai.nextEventTick E now s')) := by
  constructor
  · intro E hE
    obtain ⟨hT, hA⟩ := Zen4.init_ok hE
    have hd : ∀ x ∈ E.trace.uops, x.issueDomains.Nodup := hA.trace ▸ hL.domains
    exact ⟨Zen4.run_clean hT hd, fun now s _ => ⟨Zen4.visit_clean hT hd s,
      fun s' _ => Zen4.nextEventTick_clean s'⟩⟩
  · intro expand E hE
    have hA := Xsai.init_ok hE
    have hT := hA.wellFormed
    have hn := Xsai.schedulerTrace_distinct hL.uops hA.scheduled
    have hd : ∀ x ∈ E.trace.uops, x.issueDomains.Nodup := by
      intro x hx
      obtain ⟨y, hy, he⟩ := Xsai.schedulerTrace_issueDomains hA.scheduled x hx
      exact he ▸ hL.domains y hy
    refine ⟨Xsai.run_clean hT hd hn, fun now s h => ?_⟩
    have hs := h.sound hT hn
    refine ⟨Xsai.visit_clean hT hd hn hs, fun s' hv => ?_⟩
    exact Xsai.nextEventTick_clean
      ((Xsai.visit_steps hT (List.Subset.refl _) hv).invariant hs fun _ _ => Xsai.Sound.step hT hn).flows

theorem run_noInternalError_sample : ∃ E,
    Xsai.init (Xsai.Sample.trace 1) Xsai.Sample.profile false .cold none false = .ok E ∧ Clean (Xsai.run E) := by
  obtain ⟨E, hE⟩ := exists_ok
    (x := Xsai.init (Xsai.Sample.trace 1) Xsai.Sample.profile false .cold none false) (by decide +kernel)
  have hL : ListsOnce (Xsai.Sample.trace 1) := ⟨by decide, by decide⟩
  exact ⟨E, hE, ((run_noInternalError _ hL Xsai.Sample.profile false .cold none).2 false E hE).1⟩

namespace Sample

/-- A uop that lists the domain `port` twice. -/
def portTwice : BoundTrace := { trace [0] with uops := [{ uop with issueDomains := ["port", "port"] }] }

end Sample

/-- Both engines find the token of `port` free and then fail to take it a second time. -/
theorem reserved_twice : ∃ E E',
    Zen4.init Sample.portTwice Xsai.Sample.profile false .cold none = .ok E ∧
    Zen4.run E = .error (.reservedUnavailableDomain 0) ∧
    Xsai.init Sample.portTwice Xsai.Sample.profile false .cold none false = .ok E' ∧
    Xsai.run E' = .error (.reservedUnavailableDomain 0) ∧
    ¬ Clean (Zen4.run E) ∧ ¬ Clean (Xsai.run E') := by
  obtain ⟨E, hE⟩ := exists_ok
    (x := Zen4.init Sample.portTwice Xsai.Sample.profile false .cold none) (by decide +kernel)
  obtain ⟨E', hE'⟩ := exists_ok
    (x := Xsai.init Sample.portTwice Xsai.Sample.profile false .cold none false) (by decide +kernel)
  have hrun : errorOf ((Zen4.init Sample.portTwice Xsai.Sample.profile false .cold none).bind Zen4.run) =
      some (.reservedUnavailableDomain 0) := by decide +kernel
  have hrun' : errorOf ((Xsai.init Sample.portTwice Xsai.Sample.profile false .cold none false).bind Xsai.run) =
      some (.reservedUnavailableDomain 0) := by decide +kernel
  rw [hE] at hrun
  rw [hE'] at hrun'
  have h := errorOf_eq.mp hrun
  have h' := errorOf_eq.mp hrun'
  have hnot : ∀ {α : Type} {x : Except SimError α}, x = .error (.reservedUnavailableDomain 0) → ¬ Clean x := by
    intro α x hx hc
    exact absurd (hc _ hx) (by decide)
  exact ⟨E, E', hE, h, hE', h', hnot h, hnot h'⟩

end VectorSim
