/-
# Worklist searches

A search pops a node off its worklist and, where the node is inside a set and not
yet visited, visits it and pushes its successors (`visit`). It comes to an end, after
no more steps than the nodes it starts from and the successors of all nodes inside
(`searches_visit`), and has then visited what can be reached from its start by nodes
inside alone (`Searches.visited_iff`).
-/
import Mathlib.Logic.Relation
import Mathlib.Data.List.Basic
import Mathlib.Algebra.Order.BigOperators.Group.List
import Mathlib.Algebra.Order.Ring.Nat

namespace Worklist

variable {α : Type} {next : α → List α} {inside : α → Prop}

/-- A step to a successor that is inside. -/
def Step (next : α → List α) (inside : α → Prop) (a b : α) : Prop := b ∈ next a ∧ inside b

/-- The nodes that can be reached from the start by nodes inside alone. -/
def Reached (next : α → List α) (inside : α → Prop) (start : List α) (u : α) : Prop :=
  ∃ a ∈ start, inside a ∧ Relation.ReflTransGen (Step next inside) a u

/-- The search to its end: from a worklist and the nodes visited so far to the nodes visited. -/
inductive Searches (next : α → List α) (inside : α → Prop) : List α → List α → List α → Prop
  | done (visited : List α) : Searches next inside [] visited visited
  | skip {d : α} {pending visited result : List α} (old : d ∈ visited ∨ ¬ inside d)
      (rest : Searches next inside pending visited result) : Searches next inside (d :: pending) visited result
  | visit {d : α} {pending visited result : List α} (new : d ∉ visited) (isInside : inside d)
      (rest : Searches next inside (next d ++ pending) (d :: visited) result) :
      Searches next inside (d :: pending) visited result

/-! ### What is visited -/

variable {pending visited result : List α}

theorem Searches.subset (h : Searches next inside pending visited result) : visited ⊆ result := by
  induction h with
  | done => exact List.Subset.refl _
  | skip _ _ ih => exact ih
  | visit _ _ _ ih => exact fun u hu => ih (List.mem_cons_of_mem _ hu)

theorem Searches.nodup (h : Searches next inside pending visited result) (hn : visited.Nodup) : result.Nodup := by
  induction h with
  | done => exact hn
  | skip _ _ ih => exact ih hn
  | visit new _ _ ih => exact ih (List.nodup_cons.mpr ⟨new, hn⟩)

/-- What is visited was visited before, or is reached from the worklist. -/
theorem Searches.reached (h : Searches next inside pending visited result) :
    ∀ u ∈ result, u ∈ visited ∨ Reached next inside pending u := by
  induction h with
  | done => exact fun u hu => .inl hu
  | skip _ _ ih =>
    intro u hu
    rcases ih u hu with hu | ⟨a, ha, hin, hr⟩
    · exact .inl hu
    · exact .inr ⟨a, List.mem_cons_of_mem _ ha, hin, hr⟩
  | @visit d _ _ _ _ isInside _ ih =>
    intro u hu
    rcases ih u hu with hu | ⟨a, ha, hin, hr⟩
    · rcases List.mem_cons.mp hu with rfl | hu
      · exact .inr ⟨u, List.mem_cons_self, isInside, .refl⟩
      · exact .inl hu
    · rcases List.mem_append.mp ha with ha | ha
      · exact .inr ⟨d, List.mem_cons_self, isInside, .head ⟨ha, hin⟩ hr⟩
      · exact .inr ⟨a, List.mem_cons_of_mem _ ha, hin, hr⟩

/-- Where the successors of what is visited are visited or on the worklist, those of the result are
in the result, with all of the worklist that is inside. -/
theorem Searches.closed (h : Searches next inside pending visited result)
    (hc : ∀ a ∈ visited, ∀ b, Step next inside a b → b ∈ visited ∨ b ∈ pending) :
    (∀ a ∈ pending, inside a → a ∈ result) ∧ ∀ a ∈ result, ∀ b, Step next inside a b → b ∈ result := by
  induction h with
  | done => exact ⟨by simp, fun a ha b hb => (hc a ha b hb).resolve_right List.not_mem_nil⟩
  | @skip d pending visited result old rest ih =>
    obtain ⟨hpending, hresult⟩ := ih fun a ha b hb => by
      rcases hc a ha b hb with h | h
      · exact .inl h
      · rcases List.mem_cons.mp h with rfl | h
        · exact .inl (old.resolve_right (not_not_intro hb.2))
        · exact .inr h
    refine ⟨fun a ha hin => ?_, hresult⟩
    rcases List.mem_cons.mp ha with rfl | ha
    · exact rest.subset (old.resolve_right (not_not_intro hin))
    · exact hpending a ha hin
  | @visit d pending visited result new isInside rest ih =>
    obtain ⟨hpending, hresult⟩ := ih fun a ha b hb => by
      rcases List.mem_cons.mp ha with rfl | ha
      · exact .inr (List.mem_append_left _ hb.1)
      · rcases hc a ha b hb with h | h
        · exact .inl (List.mem_cons_of_mem _ h)
        · rcases List.mem_cons.mp h with rfl | h
          · exact .inl List.mem_cons_self
          · exact .inr (List.mem_append_right _ h)
    refine ⟨fun a ha hin => ?_, hresult⟩
    rcases List.mem_cons.mp ha with rfl | ha
    · exact rest.subset List.mem_cons_self
    · exact hpending a (List.mem_append_right _ ha) hin

/-- **A search visits exactly what is reached from its start.** -/
theorem Searches.visited_iff (h : Searches next inside pending [] result) {u : α} :
    u ∈ result ↔ Reached next inside pending u := by
  constructor
  · intro hu
    exact (h.reached u hu).resolve_left List.not_mem_nil
  · rintro ⟨a, ha, hin, hr⟩
    obtain ⟨hpending, hclosed⟩ := h.closed (by simp)
    induction hr with
    | refl => exact hpending a ha hin
    | tail _ hstep ih => exact hclosed _ ih _ hstep

/-! ### It comes to an end -/

variable [DecidableEq α] [DecidablePred inside]

/-- The search with a bound on its steps. -/
def visit (next : α → List α) (inside : α → Prop) [DecidablePred inside] : ℕ → List α → List α → List α
  | 0, _, visited => visited
  | _ + 1, [], visited => visited
  | fuel + 1, d :: pending, visited =>
    if d ∈ visited ∨ ¬ inside d then visit next inside fuel pending visited
    else visit next inside fuel (next d ++ pending) (d :: visited)

/-- The successors of the nodes that are not visited yet. -/
def unseen (next : α → List α) (nodes visited : List α) : ℕ :=
  ((nodes.filter (· ∉ visited)).map fun a => (next a).length).sum

theorem unseen_visit {d : α} {visited : List α} : ∀ {nodes : List α}, d ∈ nodes → d ∉ visited →
    (next d).length + unseen next nodes (d :: visited) ≤ unseen next nodes visited
  | a :: nodes, hd, hnew => by
    have hless : ∀ nodes : List α, unseen next nodes (d :: visited) ≤ unseen next nodes visited := by
      intro nodes
      refine List.Sublist.sum_le_sum ((List.monotone_filter_right nodes fun b hb => ?_).map _) fun _ _ => Nat.zero_le _
      simp only [List.mem_cons, not_or, decide_eq_true_eq] at hb ⊢
      exact hb.2
    unfold unseen at *
    by_cases ha : a = d
    · subst ha
      rw [List.filter_cons, List.filter_cons, if_neg (by simp), if_pos (by simpa using hnew), List.map_cons,
        List.sum_cons]
      exact Nat.add_le_add_left (hless nodes) _
    · have hd : d ∈ nodes := (List.mem_cons.mp hd).resolve_left (Ne.symm ha)
      have ih := unseen_visit hd hnew
      unfold unseen at ih
      by_cases hv : a ∈ visited
      · rw [List.filter_cons, List.filter_cons, if_neg (by simp [hv]), if_neg (by simpa using hv)]
        exact ih
      · rw [List.filter_cons, List.filter_cons, if_pos (by simp [ha, hv]), if_pos (by simpa using hv), List.map_cons,
          List.map_cons, List.sum_cons, List.sum_cons]
        omega

/-- **The search comes to an end** after a step for each node it starts from and for each successor
of a node inside. -/
theorem searches_visit {nodes : List α} (hnodes : ∀ a, inside a → a ∈ nodes) : ∀ (fuel : ℕ) (pending visited : List α),
    pending.length + unseen next nodes visited < fuel →
    Searches next inside pending visited (visit next inside fuel pending visited)
  | fuel + 1, [], visited, _ => .done visited
  | fuel + 1, d :: pending, visited, h => by
    rw [List.length_cons] at h
    unfold visit
    by_cases hold : d ∈ visited ∨ ¬ inside d
    · rw [if_pos hold]
      exact .skip hold (searches_visit hnodes fuel pending visited (by omega))
    · rw [if_neg hold]
      obtain ⟨hnew, hin⟩ := not_or.mp hold
      have hin := not_not.mp hin
      have hless : (next d).length + unseen next nodes (d :: visited) ≤ unseen next nodes visited :=
        unseen_visit (hnodes d hin) hnew
      refine .visit hnew hin (searches_visit hnodes fuel _ _ ?_)
      rw [List.length_append]
      omega

end Worklist
