/-
# Pools of interchangeable slots

A pool is the list of ticks at which its slots are next free. A reservation
takes the slots that are free first and holds them until a later tick. What
bounds the use of a pool at a tick is the number of slots still held then
(`held`): a reservation of `n` slots raises it by `n`, and it never exceeds the
number of slots.
-/
import Mathlib.Data.List.Sort
import Mathlib.Data.List.Perm.Basic
import Mathlib.Data.List.Range

namespace Slots

/-- The slots in the order in which they are free, ties by position. -/
def order (free : List ℕ) : List ℕ :=
  (List.range free.length).insertionSort fun a b => free.getD a 0 ≤ free.getD b 0

/-- The `n` slots that are free first. -/
def pick (free : List ℕ) (n : ℕ) : List ℕ := (order free).take n

/-- Holds slots until a tick. -/
def occupy (free : List ℕ) (slots : List ℕ) (until_ : ℕ) : List ℕ :=
  slots.foldl (fun l i => l.set i until_) free

/-- The first tick at which `n` slots are free. -/
def readyTick (free : List ℕ) (n : ℕ) : ℕ := (free.insertionSort (· ≤ ·)).getD (n - 1) 0

/-- The slots still held at a tick. -/
def held (free : List ℕ) (now : ℕ) : ℕ := (free.filter (now < ·)).length

/-- The least element of a list, by a test that compares two. -/
def minBy? {α : Type*} (le : α → α → Bool) : List α → Option α
  | [] => none
  | x :: xs => some (xs.foldl (fun a b => if le a b then a else b) x)

theorem minBy?_mem {α : Type*} {le : α → α → Bool} {l : List α} {a : α} (h : minBy? le l = some a) :
    a ∈ l := by
  have key : ∀ (l : List α) (x : α), l.foldl (fun a b => if le a b then a else b) x ∈ x :: l := by
    intro l
    induction l with
    | nil => exact fun x => List.mem_singleton.mpr rfl
    | cons y l ih =>
      intro x
      rw [List.foldl_cons]
      rcases List.mem_cons.mp (ih (if le x y then x else y)) with h | h
      · rw [h]
        split
        · exact List.mem_cons_self
        · exact List.mem_cons_of_mem _ List.mem_cons_self
      · exact List.mem_cons_of_mem _ (List.mem_cons_of_mem _ h)
  cases l with
  | nil => cases h
  | cons x l => cases h; exact key l x

theorem minBy?_eq_none {α : Type*} {le : α → α → Bool} {l : List α} : minBy? le l = none ↔ l = [] := by
  cases l <;> simp [minBy?]

/-- Where the test compares a key first, the least element has the least key. -/
theorem minBy?_key_le {α κ : Type*} [Preorder κ] {le : α → α → Bool} {key : α → κ} {l : List α} {a : α}
    (h : minBy? le l = some a) (hle : ∀ a b, le a b = true → key a ≤ key b)
    (hgt : ∀ a b, le a b = false → key b ≤ key a) : ∀ b ∈ l, key a ≤ key b := by
  have key : ∀ (l : List α) (x : α), ∀ b ∈ x :: l, key (l.foldl (fun a b => if le a b then a else b) x) ≤ key b := by
    intro l
    induction l with
    | nil =>
      intro x b hb
      rw [List.mem_singleton.mp hb]
      exact le_rfl
    | cons y l ih =>
      intro x b hb
      rw [List.foldl_cons]
      have hfirst : key (if le x y then x else y) ≤ key x ∧ key (if le x y then x else y) ≤ key y := by
        cases hxy : le x y with
        | true => exact ⟨le_rfl, hle x y hxy⟩
        | false => exact ⟨hgt x y hxy, le_rfl⟩
      have hih := ih (if le x y then x else y)
      rcases List.mem_cons.mp hb with rfl | hb
      · exact (hih _ List.mem_cons_self).trans hfirst.1
      · rcases List.mem_cons.mp hb with rfl | hb
        · exact (hih _ List.mem_cons_self).trans hfirst.2
        · exact hih b (List.mem_cons_of_mem _ hb)
  cases l with
  | nil => cases h
  | cons x l => cases h; exact key l x

/-- An element that the test puts before every other one, and no other before it, is the least. -/
theorem minBy?_eq {α : Type*} {le : α → α → Bool} {l : List α} {a : α} (hmem : a ∈ l)
    (hle : ∀ b ∈ l, le a b = true) (hanti : ∀ b ∈ l, le b a = true → b = a) : minBy? le l = some a := by
  have key : ∀ (l : List α) (x : α), a ∈ x :: l → (∀ b ∈ x :: l, le a b = true) →
      (∀ b ∈ x :: l, le b a = true → b = a) → l.foldl (fun a b => if le a b then a else b) x = a := by
    intro l
    induction l with
    | nil => exact fun x hmem _ _ => (List.mem_singleton.mp hmem).symm
    | cons y l ih =>
      intro x hmem hle hanti
      have hfirst : (if le x y then x else y) = x ∨ (if le x y then x else y) = y := by
        split
        · exact .inl rfl
        · exact .inr rfl
      have hsub : ∀ b ∈ (if le x y then x else y) :: l, b ∈ x :: y :: l := by
        intro b hb
        rcases List.mem_cons.mp hb with rfl | hb
        · rcases hfirst with h | h <;> simp [h]
        · simp [hb]
      refine ih _ ?_ (fun b hb => hle b (hsub b hb)) fun b hb => hanti b (hsub b hb)
      -- the element stays, whichever of the first two is kept
      show a ∈ (if le x y then x else y) :: l
      rcases List.mem_cons.mp hmem with rfl | hmem
      · rw [if_pos (hle y (by simp))]
        exact List.mem_cons_self
      · rcases List.mem_cons.mp hmem with rfl | hmem
        · by_cases hxa : le x a = true
          · rw [if_pos hxa, hanti x List.mem_cons_self hxa]
            exact List.mem_cons_self
          · rw [if_neg hxa]
            exact List.mem_cons_self
        · exact List.mem_cons_of_mem _ hmem
  cases l with
  | nil => cases hmem
  | cons x l => exact congrArg some (key l x hmem hle hanti)

/-! ### The slots that are picked -/

variable {free : List ℕ} {n now : ℕ}

theorem order_perm (free : List ℕ) : (order free).Perm (List.range free.length) :=
  List.perm_insertionSort _ _

theorem pick_lt {i : ℕ} (h : i ∈ pick free n) : i < free.length :=
  List.mem_range.mp ((order_perm free).mem_iff.mp (List.mem_of_mem_take h))

theorem pick_nodup (free : List ℕ) (n : ℕ) : (pick free n).Nodup :=
  ((order_perm free).nodup_iff.mpr List.nodup_range).sublist (List.take_sublist _ _)

theorem pick_length (h : n ≤ free.length) : (pick free n).length = n := by
  rw [pick, List.length_take, (order_perm free).length_eq, List.length_range, min_eq_left h]

theorem map_getD_range (free : List ℕ) : (List.range free.length).map (free.getD · 0) = free := by
  refine List.ext_getElem (by simp) fun i _ h => ?_
  simp [List.getD_eq_getElem?_getD, List.getElem?_eq_getElem h]

/-- The slots in order are free at the ticks in order. -/
theorem order_map (free : List ℕ) :
    (order free).map (free.getD · 0) = free.insertionSort (· ≤ ·) := by
  have hsorted : ((order free).map (free.getD · 0)).Pairwise (· ≤ ·) := by
    refine List.pairwise_map.mpr ?_
    have := List.pairwise_insertionSort (fun a b => free.getD a 0 ≤ free.getD b 0)
      (List.range free.length)
    exact this
  have hperm : ((order free).map (free.getD · 0)).Perm (free.insertionSort (· ≤ ·)) := by
    refine ((order_perm free).map _).trans ?_
    rw [map_getD_range]
    exact (List.perm_insertionSort _ _).symm
  exact hperm.eq_of_pairwise (fun a b _ _ h1 h2 => le_antisymm h1 h2) hsorted
    (List.pairwise_insertionSort _ _)

/-- **The check and the pick agree**: `n` slots are free at a tick just when the `n` picked
ones are. -/
theorem readyTick_le_iff (hn : 0 < n) (h : n ≤ free.length) :
    readyTick free n ≤ now ↔ ∀ i ∈ pick free n, free.getD i 0 ≤ now := by
  have hlen : (order free).length = free.length := by
    rw [(order_perm free).length_eq, List.length_range]
  have hlast : readyTick free n = free.getD ((order free).getD (n - 1) 0) 0 := by
    rw [readyTick, ← order_map, List.getD_eq_getElem?_getD, List.getElem?_map,
      List.getD_eq_getElem?_getD (l := order free),
      List.getElem?_eq_getElem (show n - 1 < (order free).length by omega)]
    rfl
  rw [hlast]
  constructor
  · intro hle i hi
    obtain ⟨k, hk, rfl⟩ := List.getElem_of_mem hi
    rw [pick, List.length_take] at hk
    have hsorted : (order free).Pairwise fun a b => free.getD a 0 ≤ free.getD b 0 :=
      List.pairwise_insertionSort _ _
    have hlt : k < (order free).length := by omega
    have hlt' : k < (pick free n).length := by rw [pick, List.length_take]; exact hk
    have hge : (pick free n)[k] = (order free)[k] := List.getElem_take
    rw [hge]
    refine le_trans ?_ hle
    rw [List.getD_eq_getElem?_getD (l := order free),
      List.getElem?_eq_getElem (show n - 1 < (order free).length by omega), Option.getD_some]
    rcases Nat.lt_or_ge k (n - 1) with hlt | hge
    · exact List.pairwise_iff_getElem.mp hsorted k (n - 1) (by omega) (by omega) hlt
    · have : k = n - 1 := by omega
      subst this
      exact le_rfl
  · intro hall
    refine hall _ ?_
    rw [List.getD_eq_getElem?_getD,
      List.getElem?_eq_getElem (show n - 1 < (order free).length by omega), Option.getD_some]
    exact List.mem_take_iff_getElem.mpr ⟨n - 1, by omega, rfl⟩

/-! ### The slots that are held -/

@[simp] theorem occupy_length (free slots : List ℕ) (t : ℕ) :
    (occupy free slots t).length = free.length := by
  unfold occupy
  induction slots generalizing free with
  | nil => rfl
  | cons i slots ih => rw [List.foldl_cons, ih, List.length_set]

theorem occupy_getD {t i : ℕ} (hi : i < free.length) (slots : List ℕ) :
    (occupy free slots t).getD i 0 = if i ∈ slots then t else free.getD i 0 := by
  unfold occupy
  induction slots generalizing free with
  | nil => simp
  | cons j slots ih =>
    rw [List.foldl_cons, ih (by simpa using hi)]
    by_cases hs : i ∈ slots
    · simp [hs]
    · by_cases hij : i = j
      · subst hij
        simp [hs, List.getD_eq_getElem?_getD, hi]
      · simp [hs, hij, List.getD_eq_getElem?_getD, Ne.symm hij]

theorem held_eq (free : List ℕ) (t : ℕ) :
    held free t = (List.range free.length).countP fun i => t < free.getD i 0 := by
  unfold held
  rw [← List.countP_eq_length_filter]
  conv_lhs => rw [← map_getD_range free]
  rw [List.countP_map]
  rfl

theorem held_le (free : List ℕ) (t : ℕ) : held free t ≤ free.length :=
  List.length_filter_le _ _

/-- A reservation of free slots holds as many more until it ends. -/
theorem held_occupy {t until_ : ℕ} (hn : n ≤ free.length)
    (hfree : ∀ i ∈ pick free n, free.getD i 0 ≤ now) (ht : now ≤ t) :
    held (occupy free (pick free n) until_) t = held free t + if t < until_ then n else 0 := by
  have hcount : (List.range free.length).countP (· ∈ pick free n) = n := by
    have hperm : ((List.range free.length).filter (· ∈ pick free n)).Perm (pick free n) := by
      refine (List.perm_ext_iff_of_nodup (List.nodup_range.filter _) (pick_nodup free n)).mpr ?_
      intro i
      simp only [List.mem_filter, List.mem_range, decide_eq_true_eq, and_iff_right_iff_imp]
      exact pick_lt
    rw [List.countP_eq_length_filter, hperm.length_eq, pick_length hn]
  rw [held_eq, held_eq, occupy_length]
  have hsplit : ∀ l : List ℕ, (∀ i ∈ l, i < free.length) →
      l.countP (fun i => t < (occupy free (pick free n) until_).getD i 0) =
        l.countP (fun i => t < free.getD i 0) +
          if t < until_ then l.countP (· ∈ pick free n) else 0 := by
    intro l
    induction l with
    | nil => simp
    | cons i l ih =>
      intro hl
      have ih := ih fun j hj => hl j (List.mem_cons_of_mem _ hj)
      have hi := hl i List.mem_cons_self
      rw [List.countP_cons, List.countP_cons, List.countP_cons, ih, occupy_getD hi]
      have hold := hfree i
      generalize free.getD i 0 = v at hold ⊢
      by_cases hp : i ∈ pick free n
      · have hv : ¬ t < v := by have := hold hp; omega
        by_cases hu : t < until_
        · simp [hp, hu, hv]; omega
        · simp [hp, hu, hv]
      · by_cases hu : t < until_ <;> simp [hp, hu]; omega
  rw [hsplit _ fun i hi => List.mem_range.mp hi, hcount]

end Slots
