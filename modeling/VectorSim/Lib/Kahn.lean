/-
# Topological sorting

Kahn's loop keeps for each node the number of its dependencies that are not yet
visited, edge by edge, and a worklist of the nodes at zero. Whatever node it takes
off the worklist next (`Policy`), it visits a node once and after its dependencies,
and stops only where each node left waits for another that is left (`order_spec`).
So it visits all nodes just when they have a topological order
(`sorted_complete_iff`), which they have just when none depends on itself
(`sorted_complete_of_acyclic`).
-/
import Mathlib.Data.List.Basic
import Mathlib.Data.List.Nodup
import Mathlib.Data.List.Count
import Mathlib.Data.List.Perm.Subperm
import Mathlib.Data.Set.Finite.List
import Mathlib.Data.Fintype.Order
import Mathlib.Logic.Relation
import Mathlib.Order.Nat
import Mathlib.Algebra.Order.Ring.Nat

namespace Kahn

/-- Nodes with their dependencies, which may repeat. -/
structure Graph (α : Type) where
  nodes : List α
  deps : α → List α
  nodup : nodes.Nodup
  closed : ∀ a ∈ nodes, ∀ d ∈ deps a, d ∈ nodes

variable {α : Type} [DecidableEq α] (G : Graph α)

namespace Graph

/-- The nodes that depend on `p`, once for each edge. -/
def consumers (p : α) : List α := G.nodes.flatMap fun x => ((G.deps x).filter (· = p)).map fun _ => x

/-- Each dependency of a node comes before it. -/
def Topological (l : List α) : Prop := ∀ a ∈ l, ∀ d ∈ G.deps a, l.idxOf d < l.idxOf a

variable {G}

theorem count_consumers (p a : α) : (G.consumers p).count a = if a ∈ G.nodes then (G.deps a).count p else 0 := by
  have key : ∀ nodes : List α, nodes.Nodup →
      (nodes.flatMap fun x => ((G.deps x).filter (· = p)).map fun _ => x).count a =
        if a ∈ nodes then (G.deps a).count p else 0 := by
    intro nodes
    induction nodes with
    | nil => intro _; rfl
    | cons x xs ih =>
      intro hn
      obtain ⟨hx, hxs⟩ := List.nodup_cons.mp hn
      rw [List.flatMap_cons, List.count_append, ih hxs, List.map_const', List.count_replicate,
        ← List.countP_eq_length_filter]
      by_cases hax : a = x
      · subst hax
        rw [if_neg hx]
        simp only [List.count, beq_eq_decide, List.mem_cons, true_or, if_true, Nat.add_zero, decide_true]
      · simp [hax, Ne.symm hax]
  exact key G.nodes G.nodup

/-- A node of a list in topological order depends neither on itself nor, along a path, on a node
that comes later. -/
theorem Topological.lt {l : List α} (h : G.Topological l) {a d : α} (ha : a ∈ l)
    (hd : Relation.TransGen (fun a d => d ∈ G.deps a) a d) : d ∈ l ∧ l.idxOf d < l.idxOf a := by
  have hstep : ∀ {a d : α}, a ∈ l → d ∈ G.deps a → d ∈ l ∧ l.idxOf d < l.idxOf a := fun ha hd =>
    ⟨List.idxOf_lt_length_iff.mp ((h _ ha _ hd).trans (List.idxOf_lt_length_iff.mpr ha)), h _ ha _ hd⟩
  induction hd with
  | single hd => exact hstep ha hd
  | tail _ hd ih =>
    obtain ⟨hin, hlt⟩ := hstep ih.1 hd
    exact ⟨hin, hlt.trans ih.2⟩

theorem Topological.acyclic {l : List α} (h : G.Topological l) {a : α} (ha : a ∈ l) :
    ¬ Relation.TransGen (fun a d => d ∈ G.deps a) a a := fun hcycle => lt_irrefl _ (h.lt ha hcycle).2

/-- A node whose dependencies are all there may be added at the end. -/
theorem Topological.snoc {l : List α} (h : G.Topological l) {p : α} (hp : p ∉ l) (hdeps : ∀ d ∈ G.deps p, d ∈ l) :
    G.Topological (l ++ [p]) := by
  intro a ha d hd
  rcases List.mem_append.mp ha with ha | ha
  · have hlt := h a ha d hd
    have hin : d ∈ l := List.idxOf_lt_length_iff.mp (hlt.trans (List.idxOf_lt_length_iff.mpr ha))
    rw [List.idxOf_append_of_mem ha, List.idxOf_append_of_mem hin]
    exact hlt
  · obtain rfl := List.mem_singleton.mp ha
    have hin := hdeps d hd
    rw [List.idxOf_append_of_mem hin, List.idxOf_append_of_notMem hp, List.idxOf_cons_self, Nat.add_zero]
    exact List.idxOf_lt_length_iff.mpr hin

/-- The first nodes of a list in topological order are in topological order. -/
theorem Topological.of_append {l l' : List α} (h : G.Topological (l ++ l')) : G.Topological l := by
  intro a ha d hd
  have hlt := h a (List.mem_append_left _ ha) d hd
  rw [List.idxOf_append_of_mem ha] at hlt
  by_cases hin : d ∈ l
  · rwa [List.idxOf_append_of_mem hin] at hlt
  · rw [List.idxOf_append_of_notMem hin] at hlt
    have := List.idxOf_lt_length_iff.mpr ha
    omega

/-- Nodes each of which waits for another of them have no topological order. -/
theorem not_topological_of_stuck {l : List α} (hl : l.Perm G.nodes) {p : α → Prop} (hp : ∃ a ∈ G.nodes, p a)
    (hstuck : ∀ a ∈ G.nodes, p a → ∃ d ∈ G.deps a, p d) : ¬ G.Topological l := by
  intro h
  obtain ⟨a, ha, hpa⟩ := hp
  have key : ∀ n a, a ∈ G.nodes → p a → l.idxOf a = n → False := by
    intro n
    induction n using Nat.strong_induction_on with
    | _ n ih =>
      rintro a ha hpa rfl
      obtain ⟨d, hd, hpd⟩ := hstuck a ha hpa
      exact ih _ (h a (hl.mem_iff.mpr ha) d hd) d (G.closed a ha d hd) hpd rfl
  exact key _ a ha hpa rfl

omit [DecidableEq α] in
/-- Where each of some nodes waits for another of them, a node depends on itself. -/
theorem exists_cycle {p : α → Prop} (hp : ∃ a ∈ G.nodes, p a) (hstuck : ∀ a ∈ G.nodes, p a → ∃ d ∈ G.deps a, p d) :
    ∃ a, Relation.TransGen (fun a d => d ∈ G.deps a) a a := by
  by_contra hnone
  -- the nodes are finitely many, so the paths among them end
  let below (d a : {a // a ∈ G.nodes}) : Prop := Relation.TransGen (fun a d => d ∈ G.deps a) a.1 d.1
  have : Finite {a // a ∈ G.nodes} := (List.finite_toSet G.nodes).to_subtype
  have : IsTrans _ below := ⟨fun _ _ _ h h' => h'.trans h⟩
  have : Std.Irrefl below := ⟨fun a ha => hnone ⟨a.1, ha⟩⟩
  have hwf : WellFounded below := Finite.wellFounded_of_trans_of_irrefl below
  obtain ⟨a, ha, hpa⟩ := hp
  obtain ⟨m, hpm, hmin⟩ := hwf.has_min {a | p a.1} ⟨⟨a, ha⟩, hpa⟩
  obtain ⟨d, hd, hpd⟩ := hstuck m.1 m.2 hpm
  exact hmin ⟨d, G.closed m.1 m.2 d hd⟩ hpd (.single hd)

end Graph

/-- A cycle of steps that never raise a rank stays on one rank. -/
theorem cycle_level {α : Type} {r : α → α → Prop} (rank : α → ℕ) (hle : ∀ a b, r a b → rank b ≤ rank a) {u : α}
    (h : Relation.TransGen r u u) : Relation.TransGen (fun a b => r a b ∧ rank a = rank u ∧ rank b = rank u) u u := by
  have key : ∀ {b}, Relation.TransGen r u b → rank b ≤ rank u ∧ (rank b = rank u →
      Relation.TransGen (fun a b => r a b ∧ rank a = rank u ∧ rank b = rank u) u b) := by
    intro b hb
    induction hb with
    | single hb => exact ⟨hle _ _ hb, fun he => .single ⟨hb, rfl, he⟩⟩
    | @tail b c _ hc ih =>
      have hcb := hle b c hc
      refine ⟨hcb.trans ih.1, fun he => ?_⟩
      have hbu : rank b = rank u := le_antisymm ih.1 (he ▸ hcb)
      exact (ih.2 hbu).tail ⟨hc, hbu, he⟩
  exact (key h).2 rfl

/-! ### One node -/

/-- How a worklist is kept: as a queue, or as a heap. -/
structure Policy (α : Type) where
  push : α → List α → List α
  pop : List α → Option (α × List α)
  push_perm : ∀ a ready, (push a ready).Perm (a :: ready)
  pop_none : ∀ ready, pop ready = none → ready = []
  pop_some : ∀ ready a rest, pop ready = some (a, rest) → ready.Perm (a :: rest)

/-- The first entry of a worklist, and the others. -/
def first : List α → Option (α × List α)
  | [] => none
  | a :: ready => some (a, ready)

omit [DecidableEq α] in
theorem first_none (ready : List α) (h : first ready = none) : ready = [] := by
  cases ready with
  | nil => rfl
  | cons a ready => cases h

omit [DecidableEq α] in
theorem first_some (ready : List α) (a : α) (rest : List α) (h : first ready = some (a, rest)) :
    ready.Perm (a :: rest) := by
  cases ready with
  | nil => cases h
  | cons b ready =>
    cases h
    exact List.Perm.refl _

variable (P : Policy α)

/-- One `for consumer in consumers[producer]`: the in-degrees, and the worklist with the consumers
that became ready. -/
def relax : List α → (α → ℕ) → List α → (α → ℕ) × List α
  | [], indegree, ready => (indegree, ready)
  | c :: cs, indegree, ready =>
    let indegree' := Function.update indegree c (indegree c - 1)
    relax cs indegree' (if indegree' c = 0 then P.push c ready else ready)

/-- The loop takes an edge off each count, and adds once each node whose last edge it was. -/
theorem relax_spec : ∀ (cs : List α) (indegree : α → ℕ) (ready : List α), (∀ a, cs.count a ≤ indegree a) →
    (relax P cs indegree ready).1 = (fun a => indegree a - cs.count a) ∧
      ∃ pushed : List α, (relax P cs indegree ready).2.Perm (ready ++ pushed) ∧ pushed.Nodup ∧
        ∀ a, a ∈ pushed ↔ a ∈ cs ∧ indegree a = cs.count a
  | [], indegree, ready, _ => ⟨by simp [relax], [], by simp [relax], List.nodup_nil, by simp⟩
  | c :: cs, indegree, ready, h => by
    have hself : cs.count c + 1 ≤ indegree c := by
      have := h c
      rwa [List.count_cons_self] at this
    have hother : ∀ a, a ≠ c → (c :: cs).count a = cs.count a := fun a ha => List.count_cons_of_ne (Ne.symm ha)
    have hle : ∀ a, cs.count a ≤ Function.update indegree c (indegree c - 1) a := by
      intro a
      by_cases ha : a = c
      · subst ha
        rw [Function.update_self]
        omega
      · rw [Function.update_of_ne ha, ← hother a ha]
        exact h a
    obtain ⟨hcounts, pushed, hperm, hnodup, hmem⟩ := relax_spec cs (Function.update indegree c (indegree c - 1))
      (if indegree c - 1 = 0 then P.push c ready else ready) hle
    have hpushed : ∀ a, a ≠ c → (a ∈ pushed ↔ a ∈ c :: cs ∧ indegree a = (c :: cs).count a) := by
      intro a ha
      rw [hmem, Function.update_of_ne ha, hother a ha, List.mem_cons, or_iff_right ha]
    unfold relax
    dsimp only
    rw [Function.update_self]
    constructor
    · rw [hcounts]
      funext a
      by_cases ha : a = c
      · subst ha
        rw [Function.update_self, List.count_cons_self]
        omega
      · rw [Function.update_of_ne ha, hother a ha]
    · by_cases hlast : indegree c - 1 = 0
      · have hnone : c ∉ cs := List.count_eq_zero.mp (by omega)
        have hnew : c ∉ pushed := fun hc => hnone ((hmem c).mp hc).1
        refine ⟨c :: pushed, ?_, List.nodup_cons.mpr ⟨hnew, hnodup⟩, fun a => ?_⟩
        · rw [if_pos hlast] at hperm ⊢
          exact (hperm.trans ((P.push_perm c ready).append_right pushed)).trans List.perm_middle.symm
        · by_cases ha : a = c
          · subst ha
            rw [List.count_cons_self]
            exact iff_of_true List.mem_cons_self ⟨List.mem_cons_self, by omega⟩
          · rw [List.mem_cons, or_iff_right ha]
            exact hpushed a ha
      · refine ⟨pushed, by rw [if_neg hlast] at hperm ⊢; exact hperm, hnodup, fun a => ?_⟩
        by_cases ha : a = c
        · subst ha
          rw [hmem, Function.update_self, List.count_cons_self]
          constructor
          · rintro ⟨hin, he⟩
            exact ⟨List.mem_cons_self, by omega⟩
          · rintro ⟨-, he⟩
            exact ⟨List.count_pos_iff.mp (by omega), by omega⟩
        · exact hpushed a ha

/-! ### The loop -/

/-- The nodes in the order in which the loop visits them. -/
def order : ℕ → List α → (α → ℕ) → List α
  | 0, _, _ => []
  | fuel + 1, ready, indegree =>
    match P.pop ready with
    | none => []
    | some (p, rest) =>
      let r := relax P (G.consumers p) indegree rest
      p :: order fuel r.2 r.1

/-- What the loop keeps: the nodes visited are in topological order, the counts are those of the
dependencies not visited, and the worklist has the nodes at zero. -/
structure Inv (done ready : List α) (indegree : α → ℕ) : Prop where
  nodup : (done ++ ready).Nodup
  inside : ∀ a ∈ done, a ∈ G.nodes
  counts : ∀ a ∈ G.nodes, indegree a = (G.deps a).countP (· ∉ done)
  waiting : ∀ a, a ∈ ready ↔ a ∈ G.nodes ∧ a ∉ done ∧ indegree a = 0
  topological : G.Topological done

variable {G} {P} {done ready rest : List α} {indegree : α → ℕ} {p : α}

/-- The dependencies of a node on the worklist are visited. -/
theorem Inv.deps_done (h : Inv G done ready indegree) {a : α} (ha : a ∈ ready) : ∀ d ∈ G.deps a, d ∈ done := by
  obtain ⟨hin, -, hzero⟩ := (h.waiting a).mp ha
  rw [h.counts a hin, List.countP_eq_zero] at hzero
  intro d hd
  simpa using hzero d hd

theorem Inv.start (hready : ready.Perm (G.nodes.filter fun a => (G.deps a).length = 0)) :
    Inv G [] ready fun a => (G.deps a).length where
  nodup := hready.nodup_iff.mpr (G.nodup.filter _)
  inside := by simp
  counts a _ := by simp
  waiting a := by rw [hready.mem_iff]; simp
  topological := by simp [Graph.Topological]

/-- **A step of the loop.** -/
theorem Inv.step (h : Inv G done ready indegree) (hp : ready.Perm (p :: rest)) :
    Inv G (done ++ [p]) (relax P (G.consumers p) indegree rest).2 (relax P (G.consumers p) indegree rest).1 := by
  have hready : p ∈ ready := hp.mem_iff.mpr List.mem_cons_self
  obtain ⟨hpin, hpnew, -⟩ := (h.waiting p).mp hready
  have hall : (done ++ p :: rest).Nodup := (hp.append_left done).nodup_iff.mp h.nodup
  have hless : ∀ a, (G.consumers p).count a ≤ indegree a ∨ a ∉ G.nodes := by
    intro a
    by_cases ha : a ∈ G.nodes
    · left
      rw [Graph.count_consumers, if_pos ha, h.counts a ha, List.count]
      refine List.countP_mono_left fun d _ hd => ?_
      rw [beq_iff_eq] at hd
      subst hd
      simpa using hpnew
    · exact .inr ha
  have hle : ∀ a, (G.consumers p).count a ≤ indegree a := fun a => (hless a).elim id fun ha => by
    rw [Graph.count_consumers, if_neg ha]
    exact Nat.zero_le _
  obtain ⟨hcounts, pushed, hperm, hnodup, hmem⟩ := relax_spec P (G.consumers p) indegree rest hle
  have hcount : ∀ a ∈ G.nodes, indegree a - (G.consumers p).count a = (G.deps a).countP (· ∉ done ++ [p]) := by
    intro a ha
    have hsplit : (G.deps a).countP (· ∉ done) = (G.deps a).countP (· ∉ done ++ [p]) + (G.deps a).count p := by
      generalize G.deps a = ds
      induction ds with
      | nil => rfl
      | cons d ds ih =>
        rw [List.countP_cons, List.countP_cons, List.count_cons, ih]
        by_cases hdp : d = p
        · subst hdp
          simp [hpnew]
          omega
        · simp [hdp]
          omega
    rw [h.counts a ha, Graph.count_consumers, if_pos ha, hsplit]
    omega
  have hpushed : ∀ a, a ∈ pushed ↔ a ∈ G.nodes ∧ 0 < (G.deps a).count p ∧ indegree a = (G.deps a).count p := by
    intro a
    rw [hmem, ← List.count_pos_iff, Graph.count_consumers]
    by_cases ha : a ∈ G.nodes
    · simp [ha]
    · simp [ha]
  rw [hcounts]
  have hself : (G.deps p).count p = 0 := List.count_eq_zero.mpr fun hd => hpnew (h.deps_done hready p hd)
  -- a node that is pushed was neither visited nor on the worklist
  have hfresh : ∀ a ∈ pushed, a ∉ done ∧ a ∉ p :: rest := by
    intro a ha
    obtain ⟨hin, hpos, he⟩ := (hpushed a).mp ha
    refine ⟨fun hd => ?_, fun hr => ?_⟩
    · have hdeps := h.topological a hd p (List.count_pos_iff.mp hpos)
      exact hpnew (List.idxOf_lt_length_iff.mp (hdeps.trans (List.idxOf_lt_length_iff.mpr hd)))
    · have hzero := ((h.waiting a).mp (hp.mem_iff.mpr hr)).2.2
      omega
  refine ⟨?_, ?_, hcount, fun a => ?_, h.topological.snoc hpnew (h.deps_done hready)⟩
  · have hassoc : done ++ [p] ++ (rest ++ pushed) = (done ++ p :: rest) ++ pushed := by simp
    rw [(hperm.append_left (done ++ [p])).nodup_iff, hassoc]
    refine List.nodup_append'.mpr ⟨hall, hnodup, fun a ha hb => ?_⟩
    rcases List.mem_append.mp ha with ha | ha
    · exact (hfresh a hb).1 ha
    · exact (hfresh a hb).2 ha
  · intro a ha
    rcases List.mem_append.mp ha with ha | ha
    · exact h.inside a ha
    · exact List.mem_singleton.mp ha ▸ hpin
  · rw [hperm.mem_iff, List.mem_append]
    by_cases hap : a = p
    · subst hap
      have hout : a ∉ rest := (List.nodup_cons.mp (List.nodup_append'.mp hall).2.1).1
      refine iff_of_false ?_ fun hx => hx.2.1 (by simp)
      rintro (hr | hr)
      · exact hout hr
      · exact (hfresh a hr).2 List.mem_cons_self
    · have hrest : a ∈ rest ↔ a ∈ G.nodes ∧ a ∉ done ∧ indegree a = 0 := by
        rw [← h.waiting a, hp.mem_iff, List.mem_cons, or_iff_right hap]
      have hdone : a ∉ done ++ [p] ↔ a ∉ done := by simp [hap]
      rw [hrest, hpushed, hdone]
      by_cases ha : a ∈ G.nodes
      · have hcle := hle a
        rw [Graph.count_consumers, if_pos ha] at hcle
        rw [Graph.count_consumers, if_pos ha]
        constructor
        · rintro (⟨-, hd, hz⟩ | ⟨-, hpos, he⟩)
          · exact ⟨ha, hd, by omega⟩
          · exact ⟨ha, (hfresh a ((hpushed a).mpr ⟨ha, hpos, he⟩)).1, by omega⟩
        · rintro ⟨-, hd, hz⟩
          rcases Nat.eq_zero_or_pos (indegree a) with hzero | hpos
          · exact .inl ⟨ha, hd, hzero⟩
          · exact .inr ⟨ha, by omega, by omega⟩
      · simp [ha]

/-- **What the loop has visited at its end**: nodes in topological order, each of the others
waiting for one that is not visited. -/
theorem order_spec : ∀ (fuel : ℕ) {done ready : List α} {indegree : α → ℕ}, Inv G done ready indegree →
    G.nodes.length ≤ done.length + fuel →
    (done ++ order G P fuel ready indegree).Nodup ∧ (∀ a ∈ done ++ order G P fuel ready indegree, a ∈ G.nodes) ∧
      G.Topological (done ++ order G P fuel ready indegree) ∧
      ∀ a ∈ G.nodes, a ∉ done ++ order G P fuel ready indegree →
        ∃ d ∈ G.deps a, d ∉ done ++ order G P fuel ready indegree
  | fuel, done, ready, indegree, h, hfuel => by
    have hend : ready = [] → done.Nodup ∧ (∀ a ∈ done, a ∈ G.nodes) ∧ G.Topological done ∧
        ∀ a ∈ G.nodes, a ∉ done → ∃ d ∈ G.deps a, d ∉ done := by
      intro hnil
      refine ⟨(List.nodup_append'.mp h.nodup).1, h.inside, h.topological, fun a ha hnew => ?_⟩
      have hpos : indegree a ≠ 0 := fun hz => by
        have := (h.waiting a).mpr ⟨ha, hnew, hz⟩
        rw [hnil] at this
        exact List.not_mem_nil this
      rw [h.counts a ha] at hpos
      obtain ⟨d, hd, hnot⟩ := List.countP_pos_iff.mp (Nat.pos_of_ne_zero hpos)
      exact ⟨d, hd, by simpa using hnot⟩
    cases fuel with
    | zero =>
      -- as many are visited as there are nodes
      unfold order
      rw [List.append_nil]
      refine hend (List.eq_nil_iff_forall_not_mem.mpr fun a ha => ?_)
      have hsub : done ++ ready ⊆ G.nodes := fun b hb =>
        (List.mem_append.mp hb).elim (h.inside b) fun hb => ((h.waiting b).mp hb).1
      have hlength := (h.nodup.subperm hsub).length_le
      rw [List.length_append] at hlength
      have hpos := List.length_pos_of_mem ha
      omega
    | succ fuel =>
      unfold order
      cases hnext : P.pop ready with
      | none =>
        dsimp only
        rw [List.append_nil]
        exact hend (P.pop_none ready hnext)
      | some r =>
        obtain ⟨p, rest⟩ := r
        have ih := order_spec fuel (h.step (P := P) (P.pop_some ready p rest hnext)) (by
          rw [List.length_append, List.length_singleton]
          omega)
        rw [List.append_assoc, List.singleton_append] at ih
        exact ih

/-- The nodes in the order in which the loop visits them from its start. -/
def sorted (G : Graph α) (P : Policy α) (start : List α) : List α :=
  order G P G.nodes.length start fun a => (G.deps a).length

/-- The loop visits all nodes only in topological order. -/
theorem sorted_complete {start : List α} (hstart : start.Perm (G.nodes.filter fun a => (G.deps a).length = 0))
    (hlength : (sorted G P start).length = G.nodes.length) :
    (sorted G P start).Perm G.nodes ∧ G.Topological (sorted G P start) := by
  have hspec := order_spec G.nodes.length (P := P) (Inv.start hstart) (Nat.le_add_left _ _)
  simp only [List.nil_append] at hspec
  obtain ⟨hnodup, hinside, htop, -⟩ := hspec
  exact ⟨(hnodup.subperm hinside).perm_of_length_le hlength.ge, htop⟩

/-- The loop visits all nodes, or some of them wait for each other. -/
theorem sorted_complete_or_stuck {start : List α} (hstart : start.Perm (G.nodes.filter fun a => (G.deps a).length = 0)) :
    (sorted G P start).length = G.nodes.length ∨
      ∃ p : α → Prop, (∃ a ∈ G.nodes, p a) ∧ ∀ a ∈ G.nodes, p a → ∃ d ∈ G.deps a, p d := by
  have hspec := order_spec G.nodes.length (P := P) (Inv.start hstart) (Nat.le_add_left _ _)
  simp only [List.nil_append] at hspec
  obtain ⟨hnodup, hinside, -, hstuck⟩ := hspec
  by_cases hall : ∀ a ∈ G.nodes, a ∈ sorted G P start
  · exact .inl ((hnodup.subperm hinside).antisymm (G.nodup.subperm hall)).length_eq
  · obtain ⟨a, ha, hnot⟩ : ∃ a ∈ G.nodes, a ∉ sorted G P start := by simpa using hall
    exact .inr ⟨_, ⟨a, ha, hnot⟩, hstuck⟩

/-- **The loop visits all nodes just when they have a topological order.** -/
theorem sorted_complete_iff {start : List α} (hstart : start.Perm (G.nodes.filter fun a => (G.deps a).length = 0)) :
    (sorted G P start).length = G.nodes.length ↔ ∃ l, l.Perm G.nodes ∧ G.Topological l := by
  constructor
  · exact fun hlength => ⟨_, sorted_complete hstart hlength⟩
  · rintro ⟨l, hl, hsorted⟩
    refine (sorted_complete_or_stuck hstart).resolve_right fun hstuck => ?_
    obtain ⟨p, hp, hwaits⟩ := hstuck
    exact Graph.not_topological_of_stuck hl hp hwaits hsorted

/-- The loop visits all nodes where none depends on itself. -/
theorem sorted_complete_of_acyclic {start : List α} (hstart : start.Perm (G.nodes.filter fun a => (G.deps a).length = 0))
    (h : ∀ a, ¬ Relation.TransGen (fun a d => d ∈ G.deps a) a a) : (sorted G P start).length = G.nodes.length := by
  refine (sorted_complete_or_stuck hstart).resolve_right fun hstuck => ?_
  obtain ⟨p, hp, hwaits⟩ := hstuck
  obtain ⟨a, ha⟩ := Graph.exists_cycle hp hwaits
  exact h a ha

end Kahn
