/-
# Checked computations

Rules for programs in `Except`: what a successful bind, loop or check says
about its parts. An invariant of a step that may raise is proved about the
value it returns, by `ok_bind` at each bind and `forM_ok`, `foldlM_ok` at
each loop.
-/
import Mathlib.Data.List.Basic

namespace Checked

universe u v

variable {ε : Type v} {α β σ : Type u}

/-- A bind succeeds when both its parts do. -/
theorem ok_bind {x : Except ε α} {f : α → Except ε β} {b : β} :
    x >>= f = .ok b ↔ ∃ a, x = .ok a ∧ f a = .ok b := by
  cases x with
  | error e => simp [Bind.bind, Except.bind]
  | ok a => simp [Bind.bind, Except.bind]

/-- A bind fails when its first part does, or its second at the first's value. -/
theorem error_bind {x : Except ε α} {f : α → Except ε β} {e : ε} :
    x >>= f = .error e ↔ x = .error e ∨ ∃ a, x = .ok a ∧ f a = .error e := by
  cases x with
  | error e => simp [Bind.bind, Except.bind]
  | ok a => simp [Bind.bind, Except.bind]

theorem ok_map {x : Except ε α} {f : α → β} {b : β} :
    f <$> x = .ok b ↔ ∃ a, x = .ok a ∧ f a = b := by
  cases x <;> simp [Functor.map, Except.map]

/-- A computation that has a value returns it. -/
theorem exists_ok {x : Except ε α} (h : x.toOption.isSome) : ∃ a, x = .ok a := by
  cases x with
  | error e => simp [Except.toOption] at h
  | ok a => exact ⟨a, rfl⟩

theorem toOption_ok {x : Except ε α} {a : α} : x.toOption = some a ↔ x = .ok a := by
  cases x <;> simp [Except.toOption]

/-- The error of a computation that fails. -/
def errorOf : Except ε α → Option ε
  | .error e => some e
  | .ok _ => none

theorem errorOf_eq {x : Except ε α} {e : ε} : errorOf x = some e ↔ x = .error e := by
  cases x <;> simp [errorOf]

/-- `if not c: raise e`. -/
def check (c : Prop) [Decidable c] (e : ε) : Except ε Unit := if c then .ok () else .error e

@[simp] theorem check_ok {c : Prop} [Decidable c] {e : ε} {u : Unit} :
    check c e = .ok u ↔ c := by
  unfold check; split <;> simp_all

/-- A loop of checks succeeds when each of them does. -/
theorem forM_ok {α : Type} {f : α → Except ε Unit} : ∀ {l : List α} {u : Unit},
    l.forM f = .ok u ↔ ∀ x ∈ l, f x = .ok ()
  | [], u => by simp [List.forM, pure, Except.pure]
  | x :: l, u => by
    rw [List.forM, ok_bind]
    simp only [List.mem_cons, forall_eq_or_imp]
    constructor
    · rintro ⟨⟨⟩, h1, h2⟩; exact ⟨h1, forM_ok.mp h2⟩
    · rintro ⟨h1, h2⟩; exact ⟨(), h1, forM_ok.mpr h2⟩

/-- A map succeeds when it does at each element. -/
theorem mapM_ok {α β : Type} {f : α → Except ε β} : ∀ {l : List α} {ys : List β},
    l.mapM f = .ok ys ↔ List.Forall₂ (fun x y => f x = .ok y) l ys
  | [], ys => by
    rw [List.mapM_nil]
    constructor
    · intro h; cases h; exact .nil
    · intro h; cases h; rfl
  | x :: l, ys => by
    rw [List.mapM_cons, ok_bind]
    constructor
    · rintro ⟨y, hy, h⟩
      obtain ⟨zs, hzs, h⟩ := ok_bind.mp h
      cases h
      exact .cons hy (mapM_ok.mp hzs)
    · intro h
      cases h with
      | cons hy hl => exact ⟨_, hy, ok_bind.mpr ⟨_, mapM_ok.mpr hl, rfl⟩⟩

/-- Where each element gives a result as it should be, the map does. -/
theorem exists_mapM {α β : Type} {f : α → Except ε β} {R : α → β → Prop} : ∀ {l : List α},
    (∀ x ∈ l, ∃ y, f x = .ok y ∧ R x y) → ∃ ys, l.mapM f = .ok ys ∧ List.Forall₂ R l ys
  | [], _ => ⟨[], rfl, .nil⟩
  | x :: l, h => by
    obtain ⟨y, hy, hr⟩ := h x List.mem_cons_self
    obtain ⟨ys, hys, hrs⟩ := exists_mapM fun z hz => h z (List.mem_cons_of_mem _ hz)
    have hmap : (x :: l).mapM f = .ok (y :: ys) := mapM_ok.mpr (.cons hy (mapM_ok.mp hys))
    exact ⟨y :: ys, hmap, .cons hr hrs⟩

/-- A map fails when it does at some element. -/
theorem mapM_error {α β : Type} {f : α → Except ε β} {e : ε} : ∀ {l : List α},
    l.mapM f = .error e → ∃ x ∈ l, f x = .error e
  | [], h => by cases h
  | x :: l, h => by
    rw [List.mapM_cons] at h
    rcases error_bind.mp h with h | ⟨y, -, h⟩
    · exact ⟨x, List.mem_cons_self, h⟩
    · rcases error_bind.mp h with h | ⟨_, -, h⟩
      · obtain ⟨z, hz, h⟩ := mapM_error h
        exact ⟨z, List.mem_cons_of_mem _ hz, h⟩
      · cases h

theorem forall₂_left {α β : Type} {R : α → β → Prop} {l : List α} {ys : List β}
    (h : List.Forall₂ R l ys) {x : α} (hx : x ∈ l) : ∃ y ∈ ys, R x y := by
  induction h with
  | nil => cases hx
  | cons hxy _ ih =>
    rcases List.mem_cons.mp hx with rfl | hx
    · exact ⟨_, List.mem_cons_self, hxy⟩
    · obtain ⟨y, hy, hr⟩ := ih hx
      exact ⟨y, List.mem_cons_of_mem _ hy, hr⟩

theorem forall₂_right {α β : Type} {R : α → β → Prop} {l : List α} {ys : List β}
    (h : List.Forall₂ R l ys) {y : β} (hy : y ∈ ys) : ∃ x ∈ l, R x y := by
  induction h with
  | nil => cases hy
  | cons hxy _ ih =>
    rcases List.mem_cons.mp hy with rfl | hy
    · exact ⟨_, List.mem_cons_self, hxy⟩
    · obtain ⟨x, hx, hr⟩ := ih hy
      exact ⟨x, List.mem_cons_of_mem _ hx, hr⟩

/-- Lists related element by element are ordered alike. -/
theorem forall₂_pairwise {α β : Type} {R : α → β → Prop} {Q : α → α → Prop} {Q' : β → β → Prop} {l : List α} {ys : List β}
    (h : List.Forall₂ R l ys) (hQ : l.Pairwise Q) (himp : ∀ {a b c d}, R a c → R b d → Q a b → Q' c d) : ys.Pairwise Q' := by
  induction h with
  | nil => exact .nil
  | cons hxy hl ih =>
    obtain ⟨hfirst, hrest⟩ := List.pairwise_cons.mp hQ
    refine List.pairwise_cons.mpr ⟨fun d hd => ?_, ih hrest⟩
    obtain ⟨b, hb, hr⟩ := forall₂_right hl hd
    exact himp hxy hr (hfirst b hb)

/-- The loop rule: what one step keeps, the loop keeps. -/
theorem foldlM_ok {P : σ → Prop} {f : σ → α → Except ε σ} : ∀ {l : List α} {s s' : σ},
    l.foldlM f s = .ok s' → P s → (∀ x ∈ l, ∀ s s', P s → f s x = .ok s' → P s') → P s'
  | [], s, s', h, hs, _ => by
    simp only [List.foldlM_nil, pure, Except.pure, Except.ok.injEq] at h
    exact h ▸ hs
  | x :: l, s, s', h, hs, step => by
    rw [List.foldlM_cons, ok_bind] at h
    obtain ⟨s1, h1, h2⟩ := h
    exact foldlM_ok h2 (step x List.mem_cons_self s s1 hs h1)
      fun y hy => step y (List.mem_cons_of_mem _ hy)

/-- The loop rule for procedures run one after the other, with an assertion before each. -/
theorem foldlM_take {P : ℕ → σ → Prop} {f : σ → α → Except ε σ} {l : List α} :
    ∀ {k : ℕ} {s s' : σ}, k ≤ l.length → (l.take k).foldlM f s = .ok s' → P 0 s →
      (∀ j x s s', l[j]? = some x → P j s → f s x = .ok s' → P (j + 1) s') → P k s'
  | 0, s, s', _, h, hs, _ => by
    simp only [List.take_zero, List.foldlM_nil, pure, Except.pure, Except.ok.injEq] at h
    exact h ▸ hs
  | k + 1, s, s', hk, h, hs, step => by
    rw [List.take_succ_eq_append_getElem (show k < l.length from hk), List.foldlM_append, ok_bind] at h
    obtain ⟨t, ht, h⟩ := h
    rw [List.foldlM_cons, ok_bind] at h
    obtain ⟨t', ht', h⟩ := h
    cases h
    exact step k _ t _ (List.getElem?_eq_getElem hk) (foldlM_take (by omega) ht hs step) ht'

theorem foldlM_append {f : σ → α → Except ε σ} {l l' : List α} {s s' : σ} :
    (l ++ l').foldlM f s = .ok s' ↔ ∃ t, l.foldlM f s = .ok t ∧ l'.foldlM f t = .ok s' := by
  rw [List.foldlM_append, ok_bind]

/-! ### What a computation may raise -/

/-- The computation raises no errors but those of `P`. -/
def Raises (P : ε → Prop) (x : Except ε α) : Prop := ∀ e, x = .error e → P e

variable {P : ε → Prop}

theorem raises_ok {a : α} : Raises P (.ok a : Except ε α) := by intro e h; cases h

theorem raises_error {e : ε} (h : P e) : Raises P (.error e : Except ε α) := by
  intro e' h'; cases h'; exact h

theorem Raises.bind {x : Except ε α} {f : α → Except ε β} (hx : Raises P x)
    (hf : ∀ a, x = .ok a → Raises P (f a)) : Raises P (x >>= f) := by
  intro e h
  rcases error_bind.mp h with h | ⟨a, ha, h⟩
  · exact hx e h
  · exact hf a ha e h

theorem raises_mapM {α β : Type} {f : α → Except ε β} {l : List α} (h : ∀ x ∈ l, Raises P (f x)) :
    Raises P (l.mapM f) := by
  intro e he
  obtain ⟨x, hx, he⟩ := mapM_error he
  exact h x hx e he

/-- A loop raises what a turn raises in a state of the invariant. -/
theorem raises_foldlM {I : σ → Prop} {f : σ → α → Except ε σ} : ∀ {l : List α} {s : σ}, I s →
    (∀ x ∈ l, ∀ s, I s → Raises P (f s x)) → (∀ x ∈ l, ∀ s s', I s → f s x = .ok s' → I s') →
    Raises P (l.foldlM f s)
  | [], s, _, _, _ => raises_ok
  | x :: l, s, hs, hf, step => by
    rw [List.foldlM_cons]
    exact (hf x List.mem_cons_self s hs).bind fun s' hs' =>
      raises_foldlM (step x List.mem_cons_self s s' hs hs') (fun y hy => hf y (List.mem_cons_of_mem _ hy))
        fun y hy => step y (List.mem_cons_of_mem _ hy)

/-! ### Two computations in step -/

/-- Both return, values that `R` relates, or both raise the same error. -/
inductive Both (R : α → β → Prop) : Except ε α → Except ε β → Prop
  | ok {a b} (h : R a b) : Both R (.ok a) (.ok b)
  | error (e) : Both R (.error e) (.error e)

variable {γ δ : Type u} {R : α → β → Prop} {S : γ → δ → Prop}

theorem Both.bind {x : Except ε α} {y : Except ε β} {f : α → Except ε γ} {g : β → Except ε δ}
    (h : Both R x y) (hf : ∀ a b, x = .ok a → R a b → Both S (f a) (g b)) : Both S (x >>= f) (y >>= g) := by
  cases h with
  | ok h => exact hf _ _ rfl h
  | error e => exact .error e

theorem Both.imp {R' : α → β → Prop} {x : Except ε α} {y : Except ε β} (h : Both R x y)
    (himp : ∀ a b, x = .ok a → R a b → R' a b) : Both R' x y := by
  cases h with
  | ok h => exact .ok (himp _ _ rfl h)
  | error e => exact .error e

/-- A computation and its image. -/
theorem both_map {x : Except ε α} {f : α → β} (h : ∀ a, x = .ok a → R a (f a)) : Both R x (x.map f) := by
  cases x with
  | ok a => exact .ok (h a rfl)
  | error e => exact .error e

/-! ### Two computations in step, up to errors of the first -/

variable {Q : ε → Prop}

/-- The first computation raises an error of `Q`, or the two are in step. -/
def UpTo (Q : ε → Prop) (R : α → β → Prop) (x : Except ε α) (y : Except ε β) : Prop :=
  (∃ e, Q e ∧ x = .error e) ∨ Both R x y

theorem upTo_ok {a : α} {b : β} (h : R a b) : UpTo Q R (.ok a) (.ok b) := .inr (.ok h)

theorem upTo_error (e : ε) : UpTo Q R (.error e) (.error e) := .inr (.error e)

theorem upTo_refl {x : Except ε α} : UpTo Q (fun a b => b = a) x x := by
  cases x with
  | ok a => exact upTo_ok rfl
  | error e => exact upTo_error e

theorem UpTo.bind {x : Except ε α} {y : Except ε β} {f : α → Except ε γ} {g : β → Except ε δ}
    (h : UpTo Q R x y) (hf : ∀ a b, x = .ok a → R a b → UpTo Q S (f a) (g b)) :
    UpTo Q S (x >>= f) (y >>= g) := by
  rcases h with ⟨e, he, rfl⟩ | h
  · exact .inl ⟨e, he, rfl⟩
  · cases h with
    | ok h => exact hf _ _ rfl h
    | error e => exact upTo_error e

theorem UpTo.imp {R' : α → β → Prop} {x : Except ε α} {y : Except ε β} (h : UpTo Q R x y)
    (himp : ∀ a b, x = .ok a → R a b → R' a b) : UpTo Q R' x y := by
  rcases h with h | h
  · exact .inl h
  · exact .inr (h.imp himp)

/-- Two loops over one list whose turns are in step. -/
theorem upTo_foldlM {τ κ : Type u} {R : σ → τ → Prop} {f : σ → κ → Except ε σ} {g : τ → κ → Except ε τ} :
    ∀ {l : List κ} {s : σ} {t : τ}, R s t → (∀ x ∈ l, ∀ s t, R s t → UpTo Q R (f s x) (g t x)) →
      UpTo Q R (l.foldlM f s) (l.foldlM g t)
  | [], _, _, hs, _ => upTo_ok hs
  | x :: l, s, t, hs, step => by
    rw [List.foldlM_cons, List.foldlM_cons]
    exact (step x List.mem_cons_self s t hs).bind fun s' t' _ h' =>
      upTo_foldlM h' fun y hy => step y (List.mem_cons_of_mem _ hy)

theorem UpTo.ok {x : Except ε α} {y : Except ε β} (h : UpTo Q R x y) {a : α} (hx : x = .ok a) :
    ∃ b, y = .ok b ∧ R a b := by
  rcases h with ⟨e, -, rfl⟩ | h
  · cases hx
  · cases h with
    | ok h => cases hx; exact ⟨_, rfl, h⟩
    | error e => cases hx

theorem UpTo.ok_right {x : Except ε α} {y : Except ε β} (h : UpTo Q R x y) {b : β} (hy : y = .ok b) :
    (∃ e, Q e ∧ x = .error e) ∨ ∃ a, x = .ok a ∧ R a b := by
  rcases h with h | h
  · exact .inl h
  · cases h with
    | ok h => cases hy; exact .inr ⟨_, rfl, h⟩
    | error e => cases hy

end Checked
