/-
# Sets kept in the order of use

A set of bounded size that keeps its members from the least to the most recently
used. A member that is used moves to the end; a new one is appended, and where
that makes the set too large the first member is evicted. A set that only uses
change holds what was used most recently (`Recent.touch`), in the order of the last
uses (`pairwise_touch`).
-/
import Mathlib.Data.List.Nodup
import Mathlib.Data.List.Dedup
import Mathlib.Data.Finset.Card

namespace Recency

variable {α : Type} [DecidableEq α] {ways : ℕ} {x y : α} {l : List α}

/-- The set after `x` is used, and the member that is evicted for it. -/
def touch (ways : ℕ) (x : α) (l : List α) : List α × Option α :=
  if x ∈ l then (l.filter (· ≠ x) ++ [x], none)
  else if ways < (l ++ [x]).length then ((l ++ [x]).tail, (l ++ [x]).head?)
  else (l ++ [x], none)

/-- A member that is used evicts none. -/
theorem touch_of_mem (h : x ∈ l) : touch ways x l = (l.filter (· ≠ x) ++ [x], none) := if_pos h

theorem mem_touch (hl : l.Nodup) :
    y ∈ (touch ways x l).1 ↔ (y = x ∨ y ∈ l) ∧ (touch ways x l).2 ≠ some y := by
  unfold touch
  split
  · next h =>
    by_cases hy : y = x
    · simp [hy]
    · simp [hy]
  · next h =>
    split
    · -- the first member leaves, and is nowhere else in the list
      have hn : (l ++ [x]).Nodup := List.nodup_append.mpr ⟨hl, List.nodup_singleton _, by
        rintro a ha b hb rfl
        exact h (List.mem_singleton.mp hb ▸ ha)⟩
      have hmem : ∀ z, z ∈ l ++ [x] ↔ z = x ∨ z ∈ l := by
        intro z
        simp [or_comm]
      rw [← hmem]
      cases hc : l ++ [x] with
      | nil => simp at hc
      | cons z zs =>
        rw [hc] at hn
        obtain ⟨hz, -⟩ := List.nodup_cons.mp hn
        simp only [List.tail_cons, List.head?_cons, List.mem_cons, ne_eq, Option.some.injEq]
        constructor
        · intro hy
          exact ⟨.inr hy, by rintro rfl; exact hz hy⟩
        · rintro ⟨rfl | hy, hne⟩
          · exact absurd rfl hne
          · exact hy
    · simp [or_comm]

theorem nodup_touch (hl : l.Nodup) : (touch ways x l).1.Nodup := by
  unfold touch
  split
  · exact List.nodup_append.mpr ⟨hl.filter _, List.nodup_singleton _, by
      rintro a ha b hb rfl
      simp [List.mem_singleton.mp hb] at ha⟩
  · next h =>
    have hn : (l ++ [x]).Nodup := List.nodup_append.mpr ⟨hl, List.nodup_singleton _, by
      rintro a ha b hb rfl
      exact h (List.mem_singleton.mp hb ▸ ha)⟩
    split
    · exact hn.sublist (List.tail_sublist _)
    · exact hn

/-- A set within its size stays within it. -/
theorem length_touch (hl : l.length ≤ ways) (hn : l.Nodup) : (touch ways x l).1.length ≤ ways := by
  unfold touch
  split
  · next h =>
    have := List.length_erase_of_mem h
    have hlt := List.length_pos_of_mem h
    rw [List.Nodup.erase_eq_filter hn] at this
    have hsame : l.filter (· ≠ x) = l.filter (· != x) := List.filter_congr fun a _ => by simp [bne, Bool.beq_eq_decide_eq]
    rw [List.length_append, List.length_singleton, hsame]
    omega
  · split
    · rw [List.length_tail, List.length_append, List.length_singleton]
      omega
    · dsimp only
      omega

/-- What is evicted was a member, or is what was used. -/
theorem evicted_mem (h : (touch ways x l).2 = some y) : y = x ∨ y ∈ l := by
  unfold touch at h
  split at h
  · cases h
  · split at h
    · have : y ∈ l ++ [x] := List.mem_of_head? h
      simpa [or_comm] using this
    · cases h

/-- Where there is room, what is new is appended. -/
theorem touch_room (h : x ∉ l) (hroom : l.length < ways) : touch ways x l = (l ++ [x], none) := by
  unfold touch
  rw [if_neg h, if_neg]
  rw [List.length_append, List.length_singleton]
  omega

/-! ### The order of the last uses -/

/-- The last use of `x` is before that of `y`: after some point `y` is used and `x` is not. -/
def Older (uses : List α) (x y : α) : Prop := ∃ before after, uses = before ++ after ∧ x ∉ after ∧ y ∈ after

omit [DecidableEq α] in
theorem Older.use {uses : List α} (h : Older uses x y) {z : α} (hz : x ≠ z) : Older (uses ++ [z]) x y := by
  obtain ⟨before, after, rfl, hx, hy⟩ := h
  exact ⟨before, after ++ [z], by simp, by simp [hx, hz], by simp [hy]⟩

omit [DecidableEq α] in
theorem older_last {uses : List α} (h : x ≠ y) : Older (uses ++ [y]) x y :=
  ⟨uses, [y], rfl, by simp [h], List.mem_singleton_self y⟩

theorem pairwise_append {uses : List α} (hx : x ∉ l) (h : l.Pairwise (Older uses)) :
    (l ++ [x]).Pairwise (Older (uses ++ [x])) := by
  have hne : ∀ y ∈ l, y ≠ x := fun y hy he => hx (he ▸ hy)
  refine List.pairwise_append.mpr ⟨?_, List.pairwise_singleton _ _, fun y hy z hz => ?_⟩
  · exact h.imp_of_mem fun hy _ ho => ho.use (hne _ hy)
  · rw [List.mem_singleton.mp hz]
    exact older_last (hne y hy)

/-- The members stay in the order of their last uses. -/
theorem pairwise_touch {uses : List α} (h : l.Pairwise (Older uses)) :
    (touch ways x l).1.Pairwise (Older (uses ++ [x])) := by
  unfold touch
  split
  · exact pairwise_append (by simp) (h.filter _)
  · next hx =>
    split
    · exact (pairwise_append hx h).sublist (List.tail_sublist _)
    · exact pairwise_append hx h

/-- A set that holds what was used most recently, as far as its size goes. -/
structure Recent (ways : ℕ) (uses l : List α) : Prop where
  nodup : l.Nodup
  used : l ⊆ uses
  order : l.Pairwise (Older uses)
  /-- What it does not hold was used before all that it holds. -/
  others : ∀ x ∈ uses, x ∉ l → ∀ y ∈ l, Older uses x y
  count : l.length = min ways uses.toFinset.card

theorem recent_nil : Recent ways ([] : List α) [] :=
  ⟨List.nodup_nil, List.Subset.refl _, .nil, fun _ h => (List.not_mem_nil h).elim, by simp⟩

theorem mem_of_room {uses : List α} (h : Recent ways uses l) (hroom : l.length < ways) (hx : x ∈ uses) : x ∈ l := by
  have hcard : l.toFinset.card = l.length := List.toFinset_card_of_nodup h.nodup
  have hsub : l.toFinset ⊆ uses.toFinset := fun y hy => List.mem_toFinset.mpr (h.used (List.mem_toFinset.mp hy))
  have hcount := h.count
  have heq : l.toFinset = uses.toFinset := Finset.eq_of_subset_of_card_le hsub (by omega)
  exact List.mem_toFinset.mp (heq ▸ List.mem_toFinset.mpr hx)

theorem card_use (uses : List α) (x : α) :
    (uses ++ [x]).toFinset.card = if x ∈ uses then uses.toFinset.card else uses.toFinset.card + 1 := by
  have hins : (uses ++ [x]).toFinset = insert x uses.toFinset := by
    ext y
    simp
  rw [hins]
  split
  · next h => rw [Finset.insert_eq_of_mem (List.mem_toFinset.mpr h)]
  · next h => rw [Finset.card_insert_of_notMem fun hx => h (List.mem_toFinset.mp hx)]

/-- **After a use the set holds what was used most recently.** -/
theorem Recent.touch {uses : List α} (h : Recent ways uses l) (x : α) :
    Recent ways (uses ++ [x]) (Recency.touch ways x l).1 := by
  have hmem : ∀ y, y ∈ (Recency.touch ways x l).1 ↔ (y = x ∨ y ∈ l) ∧ (Recency.touch ways x l).2 ≠ some y :=
    fun y => mem_touch h.nodup
  have hcard := card_use uses x
  have hcount := h.count
  refine ⟨nodup_touch h.nodup, fun y hy => ?_, pairwise_touch h.order, ?_, ?_⟩
  · rcases ((hmem y).mp hy).1 with rfl | hy
    · simp
    · exact List.mem_append_left _ (h.used hy)
  · intro y hy hout z hz
    have hout' := fun hc => hout ((hmem y).mpr hc)
    unfold Recency.touch at hz hout'
    split at hz
    · -- nothing is evicted
      next hx =>
      rw [if_pos hx] at hout'
      have hyx : y ≠ x := fun he => hout' ⟨.inl he, by simp⟩
      have hyl : y ∉ l := fun hl => hout' ⟨.inr hl, by simp⟩
      have hyu : y ∈ uses := by simpa [hyx] using hy
      rcases List.mem_append.mp hz with hz | hz
      · exact (h.others y hyu hyl z (List.mem_of_mem_filter hz)).use hyx
      · rw [List.mem_singleton.mp hz]
        exact older_last hyx
    · next hx =>
      rw [if_neg hx] at hout'
      split at hz
      · next hfull =>
        rw [if_pos hfull] at hout'
        have hpair := pairwise_append hx h.order
        obtain ⟨e, rest, hrest⟩ : ∃ e rest, l ++ [x] = e :: rest := List.exists_cons_of_ne_nil (by simp)
        rw [hrest] at hz hpair hout'
        have hz' : z ∈ rest := hz
        by_cases hye : y = e
        · -- the member that is evicted is the oldest of them
          rw [hye]
          exact (List.pairwise_cons.mp hpair).1 z hz'
        · have hyl : y ∉ l ++ [x] := by
            intro hl
            refine hout' ⟨?_, by simpa using Ne.symm hye⟩
            simpa [or_comm] using hl
          have hyx : y ≠ x := fun he => hyl (by simp [he])
          have hyu : y ∈ uses := by simpa [hyx] using hy
          have hzl : z ∈ l ++ [x] := hrest ▸ List.mem_cons_of_mem _ hz'
          rcases List.mem_append.mp hzl with hzl | hzl
          · exact (h.others y hyu (fun hl => hyl (List.mem_append_left _ hl)) z hzl).use hyx
          · rw [List.mem_singleton.mp hzl]
            exact older_last hyx
      · next hroom =>
        rw [if_neg hroom] at hout'
        rw [List.length_append, List.length_singleton] at hroom
        have hyx : y ≠ x := fun he => hout' ⟨.inl he, by simp⟩
        have hyu : y ∈ uses := by simpa [hyx] using hy
        exact absurd (mem_of_room h (by omega) hyu) fun hl => hout' ⟨.inr hl, by simp⟩
  · rw [hcard]
    unfold Recency.touch
    split
    · next hx =>
      have hlen := List.length_erase_of_mem hx
      have hpos := List.length_pos_of_mem hx
      rw [List.Nodup.erase_eq_filter h.nodup] at hlen
      have hsame : l.filter (· ≠ x) = l.filter (· != x) := List.filter_congr fun a _ => by simp [bne, Bool.beq_eq_decide_eq]
      rw [if_pos (h.used hx), List.length_append, List.length_singleton, hsame]
      omega
    · next hx =>
      split
      · next hfull =>
        rw [List.length_tail, List.length_append, List.length_singleton]
        rw [List.length_append, List.length_singleton] at hfull
        by_cases hxu : x ∈ uses
        · rw [if_pos hxu]
          omega
        · rw [if_neg hxu]
          omega
      · next hroom =>
        rw [List.length_append, List.length_singleton] at hroom ⊢
        have hxu : x ∉ uses := fun hu => hx (mem_of_room h (by omega) hu)
        rw [if_neg hxu]
        omega

end Recency
