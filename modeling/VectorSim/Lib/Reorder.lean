/-
# Steps that may change places

A step is local to a region of the state if it changes nothing outside the region
and what it does inside depends on the region alone (`Local`); steps local to
disjoint regions commute (`Local.comm`). Batches of steps that are each run in
order of their keys may be run as one batch, in order of all the keys, if the
steps that change places commute (`foldl_sort_append`).
-/
import Mathlib.Data.List.Sort
import Mathlib.Data.Set.Lattice
import Mathlib.Order.CompletePartialOrder

namespace Reorder

/-! ### Regions -/

variable {σ ι β : Type}

/-- The step `f` is local to the region `D` of the view of a state. -/
structure Local (view : σ → ι → β) (I : σ → Prop) (f : σ → σ) (D : Set ι) : Prop where
  keeps : ∀ s, I s → I (f s)
  outside : ∀ s, I s → ∀ i, i ∉ D → view (f s) i = view s i
  inside : ∀ s t, I s → I t → (∀ i ∈ D, view s i = view t i) → ∀ i ∈ D, view (f s) i = view (f t) i

variable {view : σ → ι → β} {I : σ → Prop} {f g : σ → σ} {D E : Set ι}

theorem Local.id : Local view I (fun s => s) D := ⟨fun _ h => h, fun _ _ _ _ => rfl, fun _ _ _ _ h => h⟩

/-- Steps of one region one after the other. -/
theorem Local.comp (hf : Local view I f D) (hg : Local view I g D) : Local view I (fun s => g (f s)) D where
  keeps s h := hg.keeps _ (hf.keeps s h)
  outside s h i hi := (hg.outside _ (hf.keeps s h) i hi).trans (hf.outside s h i hi)
  inside s t hs ht h := hg.inside _ _ (hf.keeps s hs) (hf.keeps t ht) (hf.inside s t hs ht h)

theorem Local.foldl {α : Type} {f : σ → α → σ} : ∀ {xs : List α}, (∀ x ∈ xs, Local view I (fun s => f s x) D) →
    Local view I (fun s => xs.foldl f s) D
  | [], _ => .id
  | x :: _, h => (h x List.mem_cons_self).comp (Local.foldl fun y hy => h y (List.mem_cons_of_mem _ hy))

/-- **Steps of disjoint regions commute.** -/
theorem Local.comm (hf : Local view I f D) (hg : Local view I g E) (hd : Disjoint D E) {s : σ} (hs : I s) :
    view (f (g s)) = view (g (f s)) := by
  funext i
  by_cases hi : i ∈ D
  · have hin : ∀ j ∈ D, view (g s) j = view s j := fun j hj => hg.outside s hs j (hd.notMem_of_mem_left hj)
    rw [hf.inside _ _ (hg.keeps s hs) hs hin i hi,
      hg.outside _ (hf.keeps s hs) i (hd.notMem_of_mem_left hi)]
  · rw [hf.outside _ (hg.keeps s hs) i hi]
    by_cases hj : i ∈ E
    · have hin : ∀ j ∈ E, view (f s) j = view s j := fun j hj => hf.outside s hs j (hd.notMem_of_mem_right hj)
      exact (hg.inside _ _ (hf.keeps s hs) hs hin i hj).symm
    · rw [hg.outside s hs i hj, hg.outside _ (hf.keeps s hs) i hj, hf.outside s hs i hi]

/-! ### Batches -/

variable {α : Type} {step : σ → α → σ}

/-- The steps `x` and `y` may change places. -/
def Commute (I : σ → Prop) (step : σ → α → σ) (x y : α) : Prop := ∀ s, I s → step (step s x) y = step (step s y) x

/-- A step that commutes with a batch may be made after it. -/
theorem foldl_commute (keeps : ∀ s x, I s → I (step s x)) {x : α} : ∀ {ys : List α} {s : σ},
    (∀ y ∈ ys, Commute I step y x) → I s → ys.foldl step (step s x) = step (ys.foldl step s) x
  | [], _, _, _ => rfl
  | y :: ys, s, h, hs => by
    rw [List.foldl_cons, List.foldl_cons, ← h y List.mem_cons_self s hs]
    exact foldl_commute keeps (fun z hz => h z (List.mem_cons_of_mem _ hz)) (keeps s y hs)

variable [LinearOrder α]

/-- A step put in its place in a batch may be made last. -/
theorem foldl_orderedInsert (keeps : ∀ s x, I s → I (step s x)) {x : α} : ∀ {ys : List α} {s : σ},
    ys.Pairwise (· ≤ ·) → (∀ y ∈ ys, x < y → Commute I step y x) → I s →
    (ys.orderedInsert (· ≤ ·) x).foldl step s = step (ys.foldl step s) x
  | [], _, _, _, _ => rfl
  | y :: ys, s, hsorted, h, hs => by
    obtain ⟨hle, hsorted⟩ := List.pairwise_cons.mp hsorted
    rw [List.orderedInsert_cons]
    by_cases hxy : x ≤ y
    · rw [if_pos hxy, List.foldl_cons]
      refine foldl_commute keeps (fun z hz => ?_) hs
      have hxz : x ≤ z := by
        rcases List.mem_cons.mp hz with rfl | hz
        · exact hxy
        · exact hxy.trans (hle z hz)
      rcases hxz.eq_or_lt with rfl | hlt
      · exact fun _ _ => rfl
      · exact h z hz hlt
    · rw [if_neg hxy, List.foldl_cons, List.foldl_cons]
      exact foldl_orderedInsert keeps hsorted (fun z hz => h z (List.mem_cons_of_mem _ hz)) (keeps s y hs)

theorem sort_congr {xs ys : List α} (h : xs.Perm ys) :
    xs.insertionSort (· ≤ ·) = ys.insertionSort (· ≤ ·) :=
  List.Perm.eq_of_pairwise (fun _ _ _ _ => le_antisymm) (List.pairwise_insertionSort _ _)
    (List.pairwise_insertionSort _ _)
    (((List.perm_insertionSort _ _).trans h).trans (List.perm_insertionSort _ _).symm)

theorem foldl_sorted_append (keeps : ∀ s x, I s → I (step s x)) {s : σ} (hs : I s) : ∀ {ys xs : List α},
    xs.Pairwise (· ≤ ·) → ys.Pairwise (· ≤ ·) → (∀ x ∈ xs, ∀ y ∈ ys, y < x → Commute I step x y) →
    ((xs ++ ys).insertionSort (· ≤ ·)).foldl step s = ys.foldl step (xs.foldl step s)
  | [], xs, hxs, _, _ => by
    rw [List.append_nil, hxs.insertionSort_eq]
    rfl
  | y :: ys, xs, hxs, hys, h => by
    obtain ⟨hle, hys⟩ := List.pairwise_cons.mp hys
    have hperm : (xs ++ y :: ys).Perm (xs.orderedInsert (· ≤ ·) y ++ ys) :=
      List.perm_middle.trans ((List.perm_orderedInsert (· ≤ ·) y xs).symm.append_right ys)
    rw [sort_congr hperm, foldl_sorted_append keeps hs (hxs.orderedInsert y xs) hys, List.foldl_cons,
      foldl_orderedInsert keeps hxs (fun x hx => h x hx y List.mem_cons_self) hs]
    intro x hx z hz hlt
    rcases (List.mem_orderedInsert (· ≤ ·)).mp hx with rfl | hx
    · exact absurd (hle z hz) (not_le.mpr hlt)
    · exact h x hx z (List.mem_cons_of_mem _ hz) hlt

/-- **Two batches are one** if the steps that change places commute. -/
theorem foldl_sort_append (keeps : ∀ s x, I s → I (step s x)) {s : σ} (hs : I s) {xs ys : List α}
    (h : ∀ x ∈ xs, ∀ y ∈ ys, y < x → Commute I step x y) :
    ((xs ++ ys).insertionSort (· ≤ ·)).foldl step s =
      (ys.insertionSort (· ≤ ·)).foldl step ((xs.insertionSort (· ≤ ·)).foldl step s) := by
  have hperm := (List.perm_insertionSort (· ≤ ·) xs).append (List.perm_insertionSort (· ≤ ·) ys)
  rw [← sort_congr hperm]
  refine foldl_sorted_append keeps hs (List.pairwise_insertionSort _ _) (List.pairwise_insertionSort _ _) ?_
  intro x hx y hy
  exact h x ((List.mem_insertionSort _).mp hx) y ((List.mem_insertionSort _).mp hy)

end Reorder
