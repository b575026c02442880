/-
# Longest paths

The nodes of a graph in topological order take their finishes one by one: a node
finishes its weight after the last of its dependencies (`finishes`). The last
finish of all is the greatest weight of a chain of nodes, each depending on the one
before (`Settled.isGreatest`). Any start times in which a node does not start
before its dependencies have ended bound the weight of every chain
(`Chain.weight_le`).
-/
import VectorSim.Lib.Kahn
import VectorSim.Lib.Checked
import Mathlib.Order.Bounds.Basic
import Mathlib.Data.List.Chain
import Mathlib.Algebra.BigOperators.Group.List.Basic

namespace LongestPath

open Kahn Checked

variable {α : Type} [DecidableEq α] {G : Graph α} {w : α → ℕ}

/-- Nodes each of which depends on the one before. -/
structure Chain (G : Graph α) (l : List α) : Prop where
  inside : ∀ a ∈ l, a ∈ G.nodes
  depends : l.IsChain fun d a => d ∈ G.deps a

def weight (w : α → ℕ) (l : List α) : ℕ := (l.map w).sum

omit [DecidableEq α] in
theorem weight_snoc (l : List α) (a : α) : weight w (l ++ [a]) = weight w l + w a := by
  simp [weight]

/-! ### Maxima -/

theorem le_foldl_max : ∀ (ns : List ℕ) (n : ℕ), n ≤ ns.foldl max n ∧ ∀ k ∈ ns, k ≤ ns.foldl max n
  | [], n => ⟨le_rfl, by simp⟩
  | m :: ns, n => by
    obtain ⟨hfirst, hrest⟩ := le_foldl_max ns (max n m)
    refine ⟨(le_max_left n m).trans hfirst, fun k hk => ?_⟩
    rcases List.mem_cons.mp hk with rfl | hk
    · exact (le_max_right n k).trans hfirst
    · exact hrest k hk

theorem foldl_max_mem : ∀ (ns : List ℕ) (n : ℕ), ns.foldl max n = n ∨ ns.foldl max n ∈ ns
  | [], _ => .inl rfl
  | m :: ns, n => by
    rw [List.foldl_cons]
    rcases foldl_max_mem ns (max n m) with h | h
    · rw [h]
      rcases max_choice n m with hm | hm
      · exact .inl hm
      · right
        rw [hm]
        exact List.mem_cons_self
    · exact .inr (List.mem_cons_of_mem _ h)

/-! ### The finishes -/

/-- Each node finishes its weight after the last of its dependencies. -/
def Settled (G : Graph α) (w : α → ℕ) (f : α → ℕ) : Prop :=
  ∀ a ∈ G.nodes, f a = ((G.deps a).map f).foldl max 0 + w a

/-- The finish of a node from those of its dependencies; it raises where one has none. -/
def finish (G : Graph α) (w : α → ℕ) (f : α → Option ℕ) (a : α) : Except α (α → Option ℕ) := do
  let ts ← (G.deps a).mapM fun d => match f d with
    | some t => Except.ok t
    | none => .error d
  return Function.update f a (some (ts.foldl max 0 + w a))

/-- The value of an entry, where there is one. -/
def time (f : α → Option ℕ) (a : α) : ℕ := (f a).getD 0

omit [DecidableEq α] in
theorem mapM_times {f : α → Option ℕ} : ∀ {ds : List α}, (∀ d ∈ ds, (f d).isSome) →
    (ds.mapM fun d => match f d with
      | some t => Except.ok t
      | none => .error d) = (.ok (ds.map (time f)) : Except α (List ℕ))
  | [], _ => rfl
  | d :: ds, h => by
    obtain ⟨t, ht⟩ := Option.isSome_iff_exists.mp (h d List.mem_cons_self)
    rw [List.mapM_cons, mapM_times fun e he => h e (List.mem_cons_of_mem _ he), ht]
    simp [time, ht, Bind.bind, Except.bind, pure, Except.pure]

/-- The nodes of a list have finished, each after its dependencies, and no other has. -/
structure Finished (G : Graph α) (w : α → ℕ) (done : List α) (f : α → Option ℕ) : Prop where
  some_iff : ∀ a, (f a).isSome ↔ a ∈ done
  settled : ∀ a ∈ done, time f a = ((G.deps a).map (time f)).foldl max 0 + w a

/-- One more node. -/
theorem Finished.step {done : List α} {f : α → Option ℕ} {a : α} (h : Finished G w done f) (hnew : a ∉ done)
    (htop : G.Topological (done ++ [a])) : ∃ g, finish G w f a = .ok g ∧ Finished G w (done ++ [a]) g := by
  -- the dependencies of each node come before it
  have hbefore : ∀ b ∈ done ++ [a], ∀ d ∈ G.deps b, d ∈ done := by
    intro b hb d hd
    have hlt := htop b hb d hd
    have hle : (done ++ [a]).idxOf b ≤ done.length := by
      have := List.idxOf_lt_length_iff.mpr hb
      rw [List.length_append, List.length_singleton] at this
      omega
    by_contra hd'
    rw [List.idxOf_append_of_notMem hd'] at hlt
    omega
  have hdeps := hbefore a (by simp)
  have htimes := mapM_times (f := f) fun d hd => (h.some_iff d).mpr (hdeps d hd)
  refine ⟨Function.update f a (some (((G.deps a).map (time f)).foldl max 0 + w a)), ok_bind.mpr ⟨_, htimes, rfl⟩, ?_⟩
  have hsame : ∀ d ∈ done,
      time (Function.update f a (some (((G.deps a).map (time f)).foldl max 0 + w a))) d = time f d := by
    intro d hd
    unfold time
    rw [Function.update_of_ne (ne_of_mem_of_not_mem hd hnew)]
  constructor
  · intro b
    by_cases hb : b = a
    · subst hb
      simp
    · rw [Function.update_of_ne hb, h.some_iff]
      simp [hb]
  · intro b hb
    rw [List.map_congr_left fun d hd => hsame d (hbefore b hb d hd)]
    rcases List.mem_append.mp hb with hb | hb
    · rw [hsame b hb]
      exact h.settled b hb
    · obtain rfl := List.mem_singleton.mp hb
      simp [time]

/-- **Nodes in topological order finish one after the other.** -/
theorem finishes : ∀ (order done : List α) {f : α → Option ℕ}, Finished G w done f → (done ++ order).Nodup →
    G.Topological (done ++ order) → ∃ g, order.foldlM (finish G w) f = .ok g ∧ Finished G w (done ++ order) g
  | [], done, f, h, _, _ => ⟨f, rfl, by rwa [List.append_nil]⟩
  | a :: order, done, f, h, hn, htop => by
    have hassoc : done ++ a :: order = (done ++ [a]) ++ order := by simp
    rw [hassoc] at hn htop ⊢
    have hnew : a ∉ done := fun hin => (List.nodup_append'.mp (List.nodup_append'.mp hn).1).2.2 hin List.mem_cons_self
    obtain ⟨g, hg, hstep⟩ := h.step hnew htop.of_append
    obtain ⟨g', hg', hrest⟩ := finishes order (done ++ [a]) hstep hn htop
    exact ⟨g', by rw [List.foldlM_cons, hg]; exact hg', hrest⟩

/-! ### Chains -/

/-- Start times that respect the dependencies bound the weight of a chain by the end of its last
node. -/
theorem weight_le_of_starts {f : α → ℕ} (hf : ∀ a ∈ G.nodes, ∀ d ∈ G.deps a, f d + w a ≤ f a)
    (hw : ∀ a ∈ G.nodes, w a ≤ f a) : ∀ {l : List α} {a : α}, Chain G (l ++ [a]) → weight w (l ++ [a]) ≤ f a := by
  intro l
  induction l using List.reverseRecOn with
  | nil =>
    intro a h
    simpa [weight] using hw a (h.inside a (by simp))
  | append_singleton l d ih =>
    intro a h
    obtain ⟨hinit, -, hlast⟩ := List.isChain_append.mp h.depends
    have hdep : d ∈ G.deps a := hlast d (by simp) a (by simp)
    have hd := ih ⟨fun b hb => h.inside b (List.mem_append_left _ hb), hinit⟩
    have hstep := hf a (h.inside a (by simp)) d hdep
    rw [weight_snoc]
    omega

theorem Settled.weight_le {f : α → ℕ} (h : Settled G w f) {l : List α} {a : α} (hl : Chain G (l ++ [a])) :
    weight w (l ++ [a]) ≤ f a := by
  refine weight_le_of_starts (fun b hb d hd => ?_) (fun b hb => ?_) hl
  · rw [h b hb]
    exact Nat.add_le_add_right ((le_foldl_max _ 0).2 _ (List.mem_map_of_mem hd)) _
  · rw [h b hb]
    exact Nat.le_add_left _ _

/-- A chain that ends at a node takes as long as the node to finish. -/
theorem Settled.exists_chain {f : α → ℕ} (h : Settled G w f) {order : List α} (hperm : order.Perm G.nodes)
    (htop : G.Topological order) : ∀ (n : ℕ) (a : α), a ∈ G.nodes → order.idxOf a = n →
      ∃ l, Chain G (l ++ [a]) ∧ weight w (l ++ [a]) = f a := by
  intro n
  induction n using Nat.strong_induction_on with
  | _ n ih =>
    rintro a ha rfl
    have hself : Chain G ([] ++ [a]) := ⟨by simpa using ha, by simp⟩
    rcases foldl_max_mem ((G.deps a).map f) 0 with hzero | hmem
    · refine ⟨[], hself, ?_⟩
      rw [h a ha, hzero]
      simp [weight]
    · obtain ⟨d, hd, he⟩ := List.mem_map.mp hmem
      obtain ⟨l, hl, hweight⟩ := ih _ (htop a (hperm.mem_iff.mpr ha) d hd) d (G.closed a ha d hd) rfl
      refine ⟨l ++ [d], ⟨?_, ?_⟩, ?_⟩
      · intro b hb
        rcases List.mem_append.mp hb with hb | hb
        · exact hl.inside b hb
        · exact List.mem_singleton.mp hb ▸ ha
      · refine List.isChain_append.mpr ⟨hl.depends, by simp, fun b hb c hc => ?_⟩
        obtain rfl : d = b := by simpa using hb
        obtain rfl : a = c := by simpa using hc
        exact hd
      · rw [weight_snoc, hweight, h a ha, he]

/-- **The last finish is the greatest weight of a chain.** -/
theorem Settled.isGreatest {f : α → ℕ} (h : Settled G w f) {order : List α} (hperm : order.Perm G.nodes)
    (htop : G.Topological order) : IsGreatest {n | ∃ l, Chain G l ∧ weight w l = n} ((G.nodes.map f).foldl max 0) := by
  constructor
  · rcases foldl_max_mem (G.nodes.map f) 0 with hzero | hmem
    · rw [hzero]
      exact ⟨[], ⟨by simp, by simp⟩, rfl⟩
    · obtain ⟨a, ha, he⟩ := List.mem_map.mp hmem
      obtain ⟨l, hl, hweight⟩ := h.exists_chain hperm htop _ a ha rfl
      exact ⟨l ++ [a], hl, hweight.trans he⟩
  · rintro n ⟨l, hl, rfl⟩
    rcases List.eq_nil_or_concat' l with rfl | ⟨l, a, rfl⟩
    · exact Nat.zero_le _
    · exact (h.weight_le hl).trans
        ((le_foldl_max _ 0).2 _ (List.mem_map_of_mem (hl.inside a (by simp))))

end LongestPath
