/-
# Backtracking with undo

Items are placed one after the other, each by one of the choices that the state
offers it; where the rest cannot be placed, the last placement is undone and the
next choice is tried. Where `undo` takes back what `place` has done, the search
ends in a state in which every item is placed, or in the state it began in, and
then there is no way to place them (`search_spec`). It does what the search that
keeps the earlier states does (`search_eq_find`).
-/
import VectorSim.Lib.Checked

namespace Backtrack

open Checked

/-- The moves of a search: the choices of an item, and the step that takes one and its undo. -/
structure Moves (α β σ ε : Type) where
  choices : σ → α → List β
  place : σ → α → β → σ
  undo : σ → α → β → Except ε σ

namespace Moves

variable {α β σ ε : Type} (M : Moves α β σ ε)

/-- The loop over the choices of an item; `rest` is the search of the items after it. -/
def tries (rest : σ → Except ε (Bool × σ)) (x : α) : List β → σ → Except ε (Bool × σ)
  | [], s => .ok (false, s)
  | b :: bs, s => do
    let r ← rest (M.place s x b)
    if r.1 then .ok (true, r.2)
    else do
      let s ← M.undo r.2 x b
      tries rest x bs s

/-- The search, and whether every item is placed. -/
def search : List α → σ → Except ε (Bool × σ)
  | [], s => .ok (true, s)
  | x :: xs, s => M.tries (search xs) x (M.choices s x) s

/-- The search that keeps the earlier states. -/
def find : List α → σ → Option σ
  | [], s => some s
  | x :: xs, s => (M.choices s x).findSome? fun b => find xs (M.place s x b)

/-- The items are placed one after the other, each by one of its choices. -/
inductive Places : List α → σ → σ → Prop
  | nil (s : σ) : Places [] s s
  | cons {x : α} {xs : List α} {s t : σ} (b : β) (choice : b ∈ M.choices s x)
      (rest : Places xs (M.place s x b) t) : Places (x :: xs) s t

variable {M}

theorem places_nil {s t : σ} : M.Places [] s t ↔ t = s := by
  constructor
  · intro h
    cases h
    rfl
  · rintro rfl
    exact .nil t

theorem places_cons {x : α} {xs : List α} {s t : σ} :
    M.Places (x :: xs) s t ↔ ∃ b ∈ M.choices s x, M.Places xs (M.place s x b) t := by
  constructor
  · intro h
    cases h with
    | cons b choice rest => exact ⟨b, choice, rest⟩
  · rintro ⟨b, choice, rest⟩
    exact .cons b choice rest

/-- What the search finds is placed. -/
theorem places_of_find : ∀ {xs : List α} {s t : σ}, M.find xs s = some t → M.Places xs s t
  | [], s, t, h => places_nil.mpr (Option.some.inj h).symm
  | x :: xs, s, t, h => by
    obtain ⟨b, hb, h⟩ := List.exists_of_findSome?_eq_some h
    exact .cons b hb (places_of_find h)

/-- Where it finds nothing, nothing is to be found. -/
theorem not_places_of_find : ∀ {xs : List α} {s : σ}, M.find xs s = none → ∀ t, ¬ M.Places xs s t
  | [], _, h, _ => by cases h
  | x :: xs, s, h, t => by
    rw [places_cons]
    rintro ⟨b, hb, hrest⟩
    exact not_places_of_find (List.findSome?_eq_none_iff.mp h b hb) t hrest

/-- `undo` takes back the placement of an item that was free, and placing an item leaves the
items after it free. -/
structure Reversible (M : Moves α β σ ε) (Free : σ → α → Prop) (apart : α → α → Prop) : Prop where
  undo : ∀ s x b, Free s x → M.undo (M.place s x b) x b = .ok s
  free : ∀ s x b y, apart x y → Free s y → Free (M.place s x b) y

/-- What the search returns for what the other search finds. -/
def outcome (s : σ) : Option σ → Bool × σ
  | some t => (true, t)
  | none => (false, s)

variable {Free : σ → α → Prop} {apart : α → α → Prop}

theorem Reversible.tries_eq (hM : Reversible M Free apart) {rest : σ → Except ε (Bool × σ)} {first : σ → Option σ} {x : α}
    {s : σ} (hx : Free s x) : ∀ bs : List β,
      (∀ b ∈ bs, rest (M.place s x b) = .ok (outcome (M.place s x b) (first (M.place s x b)))) →
      M.tries rest x bs s = .ok (outcome s (bs.findSome? fun b => first (M.place s x b)))
  | [], _ => rfl
  | b :: bs, h => by
    unfold tries
    rw [h b List.mem_cons_self, List.findSome?_cons]
    cases first (M.place s x b) with
    | some t => rfl
    | none =>
      show (M.undo (M.place s x b) x b >>= fun s => M.tries rest x bs s) = _
      rw [hM.undo s x b hx]
      exact hM.tries_eq hx bs fun c hc => h c (List.mem_cons_of_mem _ hc)

/-- **Undoing is as good as keeping the earlier states.** -/
theorem Reversible.search_eq_find (hM : Reversible M Free apart) : ∀ {xs : List α} {s : σ}, xs.Pairwise apart →
    (∀ x ∈ xs, Free s x) → M.search xs s = .ok (outcome s (M.find xs s))
  | [], _, _, _ => rfl
  | x :: xs, s, hapart, hfree => by
    obtain ⟨hx, hxs⟩ := List.pairwise_cons.mp hapart
    exact hM.tries_eq (hfree x List.mem_cons_self) _ fun b _ => hM.search_eq_find hxs fun y hy =>
      hM.free s x b y (hx y hy) (hfree y (List.mem_cons_of_mem _ hy))

/-- **The search places every item, or nothing can and it ends where it began.** -/
theorem Reversible.search_spec (hM : Reversible M Free apart) {xs : List α} {s : σ} (hapart : xs.Pairwise apart)
    (hfree : ∀ x ∈ xs, Free s x) :
    (∃ t, M.search xs s = .ok (true, t) ∧ M.Places xs s t) ∨
      M.search xs s = .ok (false, s) ∧ ∀ t, ¬ M.Places xs s t := by
  rw [hM.search_eq_find hapart hfree]
  cases h : M.find xs s with
  | some t => exact .inl ⟨t, rfl, places_of_find h⟩
  | none => exact .inr ⟨rfl, not_places_of_find h⟩

end Moves
end Backtrack
