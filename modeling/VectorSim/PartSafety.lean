/-
# The parts of an access

Where the backend decomposes an instruction, `_memory_part` of
`src/simulator/profile.py` cuts its access into as many parts as
`_vector_part_count` says, each with the cache lines of the profile's line size.
The parts tile the access just where they are enough to reach its end; their lines
are those the memory hierarchy warms just where the access was given the lines of
that size (`parts_tile`). A rule other than `dynamic` may give too few parts, and the
frontends give the lines of 64 bytes.
-/
import VectorSim.Lib.Tiling
import VectorSim.Links

namespace VectorSim

open Checked Tiling

variable {P : Profile} {i : Instruction} {m : MemoryAccess}

/-! ### Lines -/

/-- A byte of `[address, address + bytes)` lies in the line. -/
def Touches (address : ℤ) (bytes lineBytes : ℕ) (l : ℤ) : Prop :=
  ∃ byte, Tiling.Inside byte (address, bytes) ∧ byte / lineBytes = l

theorem mem_cacheLinesOf_iff {address l : ℤ} {bytes lineBytes : ℕ} (hb : 0 < bytes) (hl : 0 < lineBytes) :
    l ∈ cacheLinesOf address bytes lineBytes ↔ Touches address bytes lineBytes l := by
  have hpos : (0 : ℤ) < lineBytes := by exact_mod_cast hl
  rw [cacheLinesOf, mem_intRange]
  constructor
  · rintro ⟨hfirst, hlast⟩
    -- the first byte of the line, or of the access where that is later
    refine ⟨max address (l * lineBytes), ⟨le_max_left _ _, ?_⟩, ?_⟩
    · have hend : l * lineBytes ≤ address + bytes - 1 := (Int.le_ediv_iff_mul_le hpos).mp (by omega)
      show max address (l * lineBytes) < address + (bytes : ℕ)
      omega
    · rcases le_total address (l * lineBytes) with h | h
      · rw [max_eq_right h, Int.mul_ediv_cancel _ hpos.ne']
      · rw [max_eq_left h]
        have hlow : l ≤ address / lineBytes := (Int.le_ediv_iff_mul_le hpos).mpr h
        omega
  · rintro ⟨byte, ⟨hlow, hhigh⟩, rfl⟩
    have hhigh : byte < address + (bytes : ℕ) := hhigh
    have hlow : address ≤ byte := hlow
    have hfirst : address / lineBytes ≤ byte / lineBytes := Int.ediv_le_ediv hpos hlow
    have hlast : byte / lineBytes ≤ (address + bytes - 1) / lineBytes := Int.ediv_le_ediv hpos (by omega)
    omega

/-- Two line sizes give an access the same lines just where they do so for its first and last
byte. -/
theorem touches_iff_ends {address : ℤ} {bytes lineBytes lineBytes' : ℕ} (hb : 0 < bytes) (hl : 0 < lineBytes)
    (hl' : 0 < lineBytes') :
    (∀ l, l ∈ cacheLinesOf address bytes lineBytes ↔ Touches address bytes lineBytes' l) ↔
      address / lineBytes = address / lineBytes' ∧
        (address + bytes - 1) / lineBytes = (address + bytes - 1) / lineBytes' := by
  have hends : ∀ n : ℕ, 0 < n → address / n ≤ (address + bytes - 1) / n := fun n hn =>
    Int.ediv_le_ediv (by exact_mod_cast hn) (by omega)
  have h := hends _ hl
  have h' := hends _ hl'
  simp only [← mem_cacheLinesOf_iff hb hl', cacheLinesOf, mem_intRange]
  constructor
  · intro hall
    have h1 := (hall (address / lineBytes)).mp ⟨le_rfl, by omega⟩
    have h2 := (hall (address / lineBytes')).mpr ⟨le_rfl, by omega⟩
    have h3 := (hall ((address + bytes - 1) / lineBytes)).mp ⟨h, by omega⟩
    have h4 := (hall ((address + bytes - 1) / lineBytes')).mpr ⟨h', by omega⟩
    omega
  · rintro ⟨hfirst, hlast⟩ l
    rw [hfirst, hlast]

/-! ### The parts -/

/-- The parts tile the access, none is wider than the width, the lines of each are those it
touches, and together they are the lines the hierarchy warms. -/
structure TilesAccess (lineBytes : ℕ) (width : Option ℕ) (m : MemoryAccess) (parts : List MemoryAccess) : Prop where
  tiles : Tiles m.address (m.address + m.bytes) (parts.map fun x => (x.address, x.bytes))
  width : ∀ w ∈ width, ∀ x ∈ parts, x.bytes ≤ w / 8
  lines : ∀ x ∈ parts, ∀ l, l ∈ x.cacheLines ↔ Touches x.address x.bytes lineBytes l
  warmed : ∀ l, (∃ x ∈ parts, l ∈ x.cacheLines) ↔ l ∈ m.cacheLines

/-- Pieces that tile an access touch its lines. -/
theorem touches_of_tiles {lineBytes : ℕ} {parts : List MemoryAccess}
    (h : Tiles m.address (m.address + m.bytes) (parts.map fun x => (x.address, x.bytes))) (l : ℤ) :
    (∃ x ∈ parts, Touches x.address x.bytes lineBytes l) ↔ Touches m.address m.bytes lineBytes l := by
  constructor
  · rintro ⟨x, hx, byte, hbyte, hl⟩
    exact ⟨byte, (h.mem_iff byte).mp ⟨_, List.mem_map_of_mem hx, hbyte⟩, hl⟩
  · rintro ⟨byte, hbyte, hl⟩
    obtain ⟨p, hp, hin⟩ := (h.mem_iff byte).mpr hbyte
    obtain ⟨x, hx, rfl⟩ := List.mem_map.mp hp
    exact ⟨x, hx, byte, hin, hl⟩

/-- Parts with the lines they touch, none of them too wide. -/
theorem tilesAccess_iff {lineBytes : ℕ} {width : Option ℕ} {parts : List MemoryAccess}
    (hwidth : ∀ w ∈ width, ∀ x ∈ parts, x.bytes ≤ w / 8)
    (hlines : ∀ x ∈ parts, ∀ l, l ∈ x.cacheLines ↔ Touches x.address x.bytes lineBytes l) :
    TilesAccess lineBytes width m parts ↔
      Tiles m.address (m.address + m.bytes) (parts.map fun x => (x.address, x.bytes)) ∧
        ∀ l, l ∈ m.cacheLines ↔ Touches m.address m.bytes lineBytes l := by
  have hall : ∀ l, (∃ x ∈ parts, l ∈ x.cacheLines) ↔ ∃ x ∈ parts, Touches x.address x.bytes lineBytes l := fun l =>
    exists_congr fun x => and_congr_right fun hx => hlines x hx l
  constructor
  · intro h
    exact ⟨h.tiles, fun l => by rw [← h.warmed l, hall l, touches_of_tiles h.tiles l]⟩
  · rintro ⟨htiles, hm⟩
    exact ⟨htiles, hwidth, hlines, fun l => by rw [hall l, touches_of_tiles htiles l, hm l]⟩

/-- `_memory_part` cuts a piece, or raises where it would be empty. -/
theorem memoryPart_ok {lineBytes : ℕ+} {k w : ℕ} {x : MemoryAccess} (h : memoryPart lineBytes m k w = .ok x) :
    0 < w / 8 ∧ k * (w / 8) < m.bytes ∧ (x.address, x.bytes) = chunk m.address m.bytes (w / 8) k ∧
      ∀ l, l ∈ x.cacheLines ↔ Touches x.address x.bytes lineBytes l := by
  unfold memoryPart at h
  split at h
  · cases h
  · split at h
    · cases h
    · next hw hk =>
      cases h
      have hpos : 0 < min (w / 8) (m.bytes - k * (w / 8)) := by omega
      exact ⟨by omega, by omega, rfl, fun l => mem_cacheLinesOf_iff hpos lineBytes.pos⟩

/-! ### What the binder makes of an access -/

/-- The parts of the access that the uops of one recipe uop carry, in order. -/
def Binding.memoryParts (b : Binding) (n : ℕ) : List MemoryAccess :=
  b.pairs.filterMap fun p => if p.1.prep = false ∧ p.1.localIndex = n then p.2.memory else none

theorem linkUop_same {terminals : Id → Option (List ExecutionUop)} {c : ChosenRecipe} {semantics : List ℕ}
    {pairs : List (Entry × ExecutionUop)} {p q : Entry × ExecutionUop}
    (h : linkUop P terminals i c semantics pairs p = .ok q) : q.1 = p.1 ∧ q.2.memory = p.2.memory := by
  obtain ⟨_, -, h⟩ := ok_bind.mp h
  obtain ⟨_, -, h⟩ := ok_bind.mp h
  obtain ⟨_, -, h⟩ := ok_bind.mp h
  obtain ⟨_, -, h⟩ := ok_bind.mp h
  obtain ⟨_, -, h⟩ := ok_bind.mp h
  cases h
  exact ⟨rfl, rfl⟩

/-- The uops of a bound instruction carry the memory of their entries. -/
theorem bindInstruction_memory {bound : List Binding} {b : Binding} (h : bindInstruction P bound i = .ok b) :
    ∃ c, chooseRecipe P i = .ok c ∧ decompositionFor P i c = .ok b.decomposition ∧
      entriesFor c b.decomposition = .ok (b.pairs.map (·.1)) ∧
      ∀ p ∈ b.pairs, entryMemory P i b.decomposition p.1 = .ok p.2.memory := by
  obtain ⟨c, hc, h⟩ := ok_bind.mp h
  obtain ⟨semantics, -, h⟩ := ok_bind.mp h
  obtain ⟨d, hd, h⟩ := ok_bind.mp h
  obtain ⟨entries, hentries, h⟩ := ok_bind.mp h
  obtain ⟨uops, huops, h⟩ := ok_bind.mp h
  obtain ⟨pairs, hpairs, h⟩ := ok_bind.mp h
  obtain ⟨op, -, h⟩ := ok_bind.mp h
  cases h
  -- the memory of a uop comes from its entry, and linking leaves both
  have hmade : List.Forall₂ (fun e x => entryMemory P i d e = .ok x.memory) entries uops := by
    rw [← List.zipIdx_map_fst 0 entries, List.forall₂_map_left_iff]
    refine (mapM_ok.mp huops).imp fun e x hx => ?_
    obtain ⟨memory, hmemory, hx⟩ := ok_bind.mp hx
    obtain ⟨_, -, hx⟩ := ok_bind.mp hx
    obtain ⟨_, -, hx⟩ := ok_bind.mp hx
    obtain ⟨_, -, hx⟩ := ok_bind.mp hx
    obtain ⟨_, -, hx⟩ := ok_bind.mp hx
    obtain ⟨_, -, hx⟩ := ok_bind.mp hx
    cases hx
    exact hmemory
  obtain ⟨hlength, hzip⟩ := List.forall₂_iff_zip.mp hmade
  have hlinked := mapM_ok.mp hpairs
  have hfirst : pairs.map (·.1) = entries := by
    have hsame : List.Forall₂ (· = ·) ((entries.zip uops).map (·.1)) (pairs.map (·.1)) := by
      rw [List.forall₂_map_left_iff, List.forall₂_map_right_iff]
      exact hlinked.imp fun p q hq => (linkUop_same hq).1.symm
    rw [List.forall₂_eq_eq_eq, List.map_fst_zip hlength.le] at hsame
    exact hsame.symm
  refine ⟨c, hc, hd, hfirst.symm ▸ hentries, fun q hq => ?_⟩
  obtain ⟨p, hp, hpq⟩ := forall₂_right hlinked hq
  obtain ⟨he, hm⟩ := linkUop_same hpq
  rw [he, hm]
  exact hzip hp

/-! ### The uops of one recipe uop -/

/-- Of a list with positions, what is made of the one position. -/
theorem filterMap_zipIdx {α β : Type} (g : α → Option β) : ∀ (l : List α) (k n : ℕ),
    (l.zipIdx k).filterMap (fun u => if u.2 = k + n then g u.1 else none) = (l[n]?.bind g).toList
  | [], _, _ => by simp
  | x :: l, k, 0 => by
    have hrest : (l.zipIdx (k + 1)).filterMap (fun u => if u.2 = k + 0 then g u.1 else none) = [] := by
      rw [List.filterMap_eq_nil_iff]
      intro u hu
      have hle := List.le_snd_of_mem_zipIdx hu
      exact if_neg (by omega)
    rw [List.zipIdx_cons, List.filterMap_cons, hrest]
    cases hx : g x <;> simp [hx]
  | x :: l, k, n + 1 => by
    have hrest := filterMap_zipIdx g l (k + 1) n
    rw [List.zipIdx_cons, List.filterMap_cons, if_neg (by omega), List.getElem?_cons_succ, ← hrest]
    exact List.filterMap_congr fun u _ => by rw [show k + (n + 1) = k + 1 + n by omega]

/-- Where each element has an image, the images are as many, in order. -/
theorem forall₂_filterMap {α β : Type} {R : α → β → Prop} {g : α → Option β} : ∀ {l : List α},
    (∀ x ∈ l, ∃ y, g x = some y ∧ R x y) → List.Forall₂ R l (l.filterMap g)
  | [], _ => .nil
  | x :: l, h => by
    obtain ⟨y, hy, hr⟩ := h x List.mem_cons_self
    rw [List.filterMap_cons_some hy]
    exact .cons hr (forall₂_filterMap fun z hz => h z (List.mem_cons_of_mem _ hz))

theorem filterMap_of_forall₂ {α β γ : Type} {R : α → β → Prop} {f : β → Option γ} {g : α → Option γ} {l : List α}
    {l' : List β} (h : List.Forall₂ R l l') (hfg : ∀ x y, R x y → f y = g x) : l'.filterMap f = l.filterMap g := by
  induction h with
  | nil => rfl
  | cons hr _ ih => rw [List.filterMap_cons, List.filterMap_cons, ih, hfg _ _ hr]

/-- A uop that has a memory operand, where its instruction has one. -/
def RecipeUop.carries (u : RecipeUop) : Prop := u.kind.isMemory ∨ u.kind = .addressGeneration

instance (u : RecipeUop) : Decidable u.carries := inferInstanceAs (Decidable (_ ∨ _))

/-- The memory of an entry, if it has any. -/
def entryMemory? (P : Profile) (i : Instruction) (d : Option Decomposition) (e : Entry) : Option MemoryAccess :=
  match entryMemory P i d e with
  | .ok x => x
  | .error _ => none

theorem entryMemory_whole {e : Entry} (hm : i.memory = some m) (he : e.uop.carries) :
    entryMemory P i none e = .ok (some m) := by
  have hkind : e.uop.kind.isMemory ∨ e.uop.kind = .addressGeneration := he
  unfold entryMemory
  rw [if_pos hkind, hm]

theorem entryMemory_cut {e : Entry} {d : Decomposition} (hm : i.memory = some m) (he : e.uop.carries) :
    entryMemory P i (some d) e = (memoryPart P.cacheLineBytes m (e.partIndex.getD 0) d.widthBits).map some := by
  have hkind : e.uop.kind.isMemory ∨ e.uop.kind = .addressGeneration := he
  unfold entryMemory
  rw [if_pos hkind, hm]

theorem memoryParts_eq {b : Binding} (n : ℕ)
    (h : ∀ p ∈ b.pairs, entryMemory P i b.decomposition p.1 = .ok p.2.memory) :
    b.memoryParts n = (b.pairs.map (·.1)).filterMap fun e =>
      if e.prep = false ∧ e.localIndex = n then entryMemory? P i b.decomposition e else none := by
  unfold Binding.memoryParts
  rw [List.filterMap_map]
  refine List.filterMap_congr fun p hp => ?_
  simp only [Function.comp_apply, entryMemory?, h p hp]

/-- A recipe that is not decomposed: the uop carries the whole access. -/
theorem memoryParts_whole {b : Binding} {c : ChosenRecipe} {n : ℕ} {u : RecipeUop} (hm : i.memory = some m)
    (hd : b.decomposition = none) (hentries : staticEntries c = .ok (b.pairs.map (·.1)))
    (hmemory : ∀ p ∈ b.pairs, entryMemory P i b.decomposition p.1 = .ok p.2.memory)
    (hu : c.recipe.uops[n]? = some u) (hcarries : u.carries) : b.memoryParts n = [m] := by
  let whole (u : RecipeUop) : Option MemoryAccess := entryMemory? P i none
    { localIndex := n, uop := u, partIndex := none, partCount := none, path := "" }
  have hwhole : whole u = some m := by
    show entryMemory? P i none _ = some m
    unfold entryMemory?
    rw [entryMemory_whole hm hcarries]
  rw [memoryParts_eq n hmemory, hd, filterMap_of_forall₂ (mapM_ok.mp hentries)
    (g := fun v => if v.2 = 0 + n then whole v.1 else none), filterMap_zipIdx whole, hu]
  · show (whole u).toList = [m]
    rw [hwhole]
    rfl
  · intro v e he
    obtain ⟨count, -, he⟩ := ok_bind.mp he
    cases he
    by_cases hv : v.2 = n
    · simp [hv, whole, entryMemory?, entryMemory, hm]
    · simp [hv]

/-- A uop of each part waits for the uop that comes before the parts. -/
def afterPrep (d : Decomposition) (v : RecipeUop) : RecipeUop :=
  match d.prep with
  | none => v
  | some prep => { v with dependsOn := v.dependsOn ++ [prep.uop.id] }

/-- A recipe that is decomposed: the uops carry the parts of the access. -/
theorem memoryParts_cut {b : Binding} {c : ChosenRecipe} {n : ℕ} {u : RecipeUop} {d : Decomposition}
    (hm : i.memory = some m) (hd : b.decomposition = some d) (hprep : ∀ e ∈ d.prep, e.prep = true)
    (hentries : b.pairs.map (·.1) = dynamicEntries c d)
    (hmemory : ∀ p ∈ b.pairs, entryMemory P i b.decomposition p.1 = .ok p.2.memory)
    (hu : c.recipe.uops[n]? = some u) (hcarries : u.carries) :
    (List.range d.parts).mapM (fun k => memoryPart P.cacheLineBytes m k d.widthBits) = .ok (b.memoryParts n) := by
  let piece (v : RecipeUop) (k : ℕ) : Entry :=
    { localIndex := n, partIndex := some k, partCount := some d.parts, path := c.uopPath n,
      uop := afterPrep d v }
  have hparts : b.memoryParts n = (List.range d.parts).filterMap fun k => entryMemory? P i (some d) (piece u k) := by
    rw [memoryParts_eq n hmemory, hd, hentries, dynamicEntries, List.filterMap_append, List.filterMap_flatMap,
      List.filterMap_eq_flatMap_toList (fun k => entryMemory? P i (some d) (piece u k))]
    have hnone : d.prep.toList.filterMap (fun e =>
        if e.prep = false ∧ e.localIndex = n then entryMemory? P i (some d) e else none) = [] := by
      rw [List.filterMap_eq_nil_iff]
      intro e he
      exact if_neg (by simp [hprep e (Option.mem_toList.mp he)])
    rw [hnone, List.nil_append]
    refine List.flatMap_congr fun k _ => ?_
    -- one uop of each part comes from the recipe uop
    have hpick := filterMap_zipIdx (fun v => entryMemory? P i (some d) (piece v k)) c.recipe.uops 0 n
    rw [hu, Option.bind_some] at hpick
    rw [← hpick, partEntries, List.filterMap_map]
    refine List.filterMap_congr fun v _ => ?_
    obtain ⟨v, j⟩ := v
    by_cases hj : j = n
    · subst hj
      rw [if_pos (Nat.zero_add j).symm]
      exact if_pos ⟨rfl, rfl⟩
    · simp [hj]
  have hpiece : ∀ k < d.parts, piece u k ∈ b.pairs.map (·.1) := by
    intro k hk
    rw [hentries]
    refine List.mem_append_right _ (List.mem_flatMap.mpr ⟨k, List.mem_range.mpr hk, List.mem_map.mpr ⟨(u, n), ?_, rfl⟩⟩)
    exact List.mem_zipIdx_iff_getElem?.mpr hu
  rw [hparts]
  refine mapM_ok.mpr (forall₂_filterMap fun k hk => ?_)
  obtain ⟨p, hp, he⟩ := List.mem_map.mp (hpiece k (List.mem_range.mp hk))
  have hok := hmemory p hp
  rw [hd, he] at hok
  have hkind : (piece u k).uop.kind = u.kind := by
    cases hd' : d.prep <;> simp [piece, afterPrep, hd']
  have hcarries' : (piece u k).uop.carries := by
    unfold RecipeUop.carries
    rw [hkind]
    exact hcarries
  have hcut := hok
  rw [entryMemory_cut hm hcarries'] at hcut
  obtain ⟨x, hx, hmem⟩ := ok_map.mp hcut
  refine ⟨x, ?_, hx⟩
  unfold entryMemory?
  rw [hok, ← hmem]

/-! ### Enough parts -/

/-- Where the backend gives an instruction a rule of a fixed number of parts, or of as many as
its register group has registers, these reach the end of the access. -/
def Fits (P : Profile) (i : Instruction) (m : MemoryAccess) : Prop :=
  ∀ c, chooseRecipe P i = .ok c → c.recipe.decomposition = none → ∀ rule state, ruleFor P i = some (rule, state) →
    ∀ w : ℕ+, P.registerWidthBits = some w → match rule.parts with
      | .fixed n => m.bytes ≤ n * (w / 8)
      | .lmul => m.bytes ≤ lmulParts state.lmul * (w / 8)
      | _ => True

/-- Parts of whole bytes, as many as `dynamic` counts, reach the end of the access. -/
theorem le_dynamic_parts {bytes w : ℕ} (hw : 0 < w) (h8 : 8 ∣ w) : bytes ≤ (bytes * 8 + w - 1) / w * (w / 8) := by
  obtain ⟨v, rfl⟩ := h8
  rw [Nat.mul_div_cancel_left _ (by decide : 0 < 8)]
  have hlt := Nat.lt_mul_div_succ (bytes * 8 + 8 * v - 1) hw
  have hexpand : 8 * v * ((bytes * 8 + 8 * v - 1) / (8 * v) + 1) =
      8 * ((bytes * 8 + 8 * v - 1) / (8 * v) * v) + 8 * v := by ring
  omega

/-- What `Fits` asks is that the parts reach the end. -/
theorem fits_iff {c : ChosenRecipe} {d : Decomposition} (hm : i.memory = some m)
    (hw : ∀ w : ℕ+, P.registerWidthBits = some w → 8 ∣ (w : ℕ)) (hc : chooseRecipe P i = .ok c)
    (h : decompositionFor P i c = .ok (some d)) : Fits P i m ↔ m.bytes ≤ d.parts * (d.widthBits / 8) := by
  obtain ⟨hnone, rule, state, w, hruled⟩ := decompositionFor_some h
  have hrule := hruled.found
  have hwidth := hruled.width
  obtain ⟨n, hn, hparts⟩ := hruled.parts
  rw [hparts, hruled.widthBits]
  have hfits : Fits P i m ↔ match rule.parts with
      | .fixed n => m.bytes ≤ n * (w / 8)
      | .lmul => m.bytes ≤ lmulParts state.lmul * (w / 8)
      | _ => True := by
    constructor
    · exact fun hf => hf c hc hnone rule state hrule w hwidth
    · intro hf c' hc' _ rule' state' hrule' w' hwidth'
      obtain ⟨rfl, rfl⟩ := Prod.mk.inj (Option.some.inj (hrule.symm.trans hrule'))
      obtain rfl := Option.some.inj (hwidth.symm.trans hwidth')
      exact hf
  rw [hfits]
  cases hr : rule.parts with
  | fixed k =>
    rw [hr] at hn
    cases hn
    rw [Nat.max_eq_right k.pos]
  | lmul =>
    rw [hr] at hn
    cases hn
    have hpos : 1 ≤ lmulParts state.lmul := by
      rcases state.lmul with _ | _ | _ | _ | _ | _ | _ | _ <;> decide
    rw [Nat.max_eq_right hpos]
  | lmulPlusOne =>
    rw [hr] at hn
    cases hn
  | measure =>
    rw [hr] at hn
    cases hn
  | dynamic =>
    rw [hr] at hn
    unfold vectorPartCount at hn
    rw [hm] at hn
    cases hn
    refine iff_of_true trivial ((le_dynamic_parts w.pos (hw w hwidth)).trans (Nat.mul_le_mul_right _ ?_))
    exact (le_max_right _ _).trans (le_max_right _ _)

/-- No rule, no condition on its parts. -/
theorem fits_of_none {c : ChosenRecipe} (hc : chooseRecipe P i = .ok c) (h : decompositionFor P i c = .ok none) :
    Fits P i m := by
  intro c' hc' hnone rule state hrule
  obtain rfl : c = c' := by
    rw [hc] at hc'
    exact Except.ok.inj hc'
  rcases decompositionFor_none h with hsome | hno
  · simp [hnone] at hsome
  · rw [hrule] at hno
    cases hno

/-- The recipe uop of an entry. -/
theorem recipeUop_of_entry {c : ChosenRecipe} {d : Option Decomposition} {entries : List Entry} {e : Entry}
    (hprep : ∀ d', d = some d' → ∀ e ∈ d'.prep, e.prep = true) (h : entriesFor c d = .ok entries) (he : e ∈ entries)
    (hnot : e.prep = false) : ∃ u, c.recipe.uops[e.localIndex]? = some u ∧ u.kind = e.uop.kind := by
  cases d with
  | none =>
    obtain ⟨v, hv, hr⟩ := forall₂_right (mapM_ok.mp h) he
    obtain ⟨count, -, hr⟩ := ok_bind.mp hr
    cases hr
    exact ⟨v.1, List.mem_zipIdx_iff_getElem?.mp hv, rfl⟩
  | some d =>
    cases h
    rcases List.mem_append.mp he with he | he
    · rw [hprep d rfl e (Option.mem_toList.mp he)] at hnot
      cases hnot
    · obtain ⟨part, -, he⟩ := List.mem_flatMap.mp he
      obtain ⟨v, hv, rfl⟩ := List.mem_map.mp he
      refine ⟨v.1, List.mem_zipIdx_iff_getElem?.mp hv, ?_⟩
      dsimp only
      split
      · rfl
      · rfl

/-- The parts that `_memory_part` cuts tile the access just where they reach its end. -/
theorem tilesAccess_cut {lineBytes : ℕ+} {k w : ℕ} {parts : List MemoryAccess} (hk : 0 < k)
    (h : (List.range k).mapM (fun j => memoryPart lineBytes m j w) = .ok parts) :
    TilesAccess lineBytes (some w) m parts ↔
      m.bytes ≤ k * (w / 8) ∧ ∀ l, l ∈ m.cacheLines ↔ Touches m.address m.bytes lineBytes l := by
  have hall := mapM_ok.mp h
  have hpieces : parts.map (fun x => (x.address, x.bytes)) = (List.range k).map (chunk m.address m.bytes (w / 8)) := by
    have hsame : List.Forall₂ (· = ·) ((List.range k).map (chunk m.address m.bytes (w / 8)))
        (parts.map fun x => (x.address, x.bytes)) := by
      rw [List.forall₂_map_left_iff, List.forall₂_map_right_iff]
      exact hall.imp fun j x hx => (memoryPart_ok hx).2.2.1.symm
    rw [List.forall₂_eq_eq_eq] at hsame
    exact hsame.symm
  have hfull : ∀ j < k, 0 < w / 8 ∧ j * (w / 8) < m.bytes := by
    intro j hj
    obtain ⟨x, -, hx⟩ := forall₂_left hall (List.mem_range.mpr hj)
    exact ⟨(memoryPart_ok hx).1, (memoryPart_ok hx).2.1⟩
  rw [tilesAccess_iff, hpieces, tiles_chunks_iff m.address (hfull 0 hk).1 fun j hj => (hfull j hj).2]
  · rintro w' hw' x hx
    obtain rfl : w = w' := by simpa using hw'
    obtain ⟨j, -, hx⟩ := forall₂_right hall hx
    have hbytes := congrArg Prod.snd (memoryPart_ok hx).2.2.1
    exact hbytes.le.trans (min_le_left _ _)
  · intro x hx
    obtain ⟨j, -, hx⟩ := forall₂_right hall hx
    exact (memoryPart_ok hx).2.2.2

/-- **The parts of every access that the binder decomposes**: they tile it and carry the lines
that the hierarchy warms just where the rule gives enough of them and the access has the lines of
the profile's size. For the lines of 64 bytes, which the frontends give, this says that its first
and its last byte lie in lines of the same number in both sizes. -/
theorem parts_tile (P : Profile) (hw : ∀ w : ℕ+, P.registerWidthBits = some w → 8 ∣ (w : ℕ)) (bound : List Binding)
    (i : Instruction) (b : Binding) (h : bindInstruction P bound i = .ok b) (m : MemoryAccess) (hm : i.memory = some m)
    (hbytes : 1 ≤ m.bytes) (n : ℕ)
    (hn : ∃ p ∈ b.pairs, p.1.prep = false ∧ p.1.localIndex = n ∧ p.1.uop.carries) :
    (TilesAccess P.cacheLineBytes (b.decomposition.map (·.widthBits)) m (b.memoryParts n) ↔
      Fits P i m ∧ ∀ l, l ∈ m.cacheLines ↔ Touches m.address m.bytes P.cacheLineBytes l) ∧
    (m.cacheLines = cacheLinesOf m.address m.bytes 64 →
      ((∀ l, l ∈ m.cacheLines ↔ Touches m.address m.bytes P.cacheLineBytes l) ↔
        m.address / 64 = m.address / P.cacheLineBytes ∧
          (m.address + m.bytes - 1) / 64 = (m.address + m.bytes - 1) / P.cacheLineBytes)) := by
  refine ⟨?_, fun hlines => ?_⟩
  · obtain ⟨c, hc, hd, hentries, hmemory⟩ := bindInstruction_memory h
    have hprep : ∀ d', b.decomposition = some d' → ∀ e ∈ d'.prep, e.prep = true := by
      intro d' hd'
      rw [hd'] at hd
      obtain ⟨-, _, _, _, hruled⟩ := decompositionFor_some hd
      exact fun e he => (hruled.prep e he).prep
    obtain ⟨p, hp, hnot, hindex, hcarries⟩ := hn
    obtain ⟨u, hu, hkind⟩ := recipeUop_of_entry hprep hentries (List.mem_map_of_mem hp) hnot
    rw [hindex] at hu
    have hcarries' : u.carries := by
      unfold RecipeUop.carries
      rw [hkind]
      exact hcarries
    cases hdec : b.decomposition with
    | none =>
      rw [hdec] at hd hentries
      rw [memoryParts_whole hm hdec hentries hmemory hu hcarries']
      have hself : Tiles m.address (m.address + m.bytes) ([m].map fun x => (x.address, x.bytes)) :=
        ⟨rfl, hbytes, rfl⟩
      constructor
      · exact fun ht => ⟨fits_of_none hc hd, ht.lines m (by simp)⟩
      · rintro ⟨-, hl⟩
        exact ⟨hself, by simp, by simpa using hl, by simp⟩
    | some d =>
      rw [hdec] at hd hentries
      have hcut := memoryParts_cut hm hdec (hprep d hdec) (Except.ok.inj hentries).symm hmemory hu hcarries'
      have hpos : 0 < d.parts := by
        obtain ⟨-, _, _, _, hruled⟩ := decompositionFor_some hd
        exact hruled.parts_pos
      rw [fits_iff hm hw hc hd]
      exact tilesAccess_cut hpos hcut
  · rw [hlines]
    exact touches_iff_ends hbytes (by decide) P.cacheLineBytes.pos

namespace Sample

/-- A profile with one recipe, of a load, and a rule for the parts of accesses. -/
def loadProfile (rule : PartsRule) (lineBytes : ℕ+) : Profile where
  id := "sample"
  ticksPerCycle := 1
  pipeline := ⟨some 2, some 2, some 4, some 4, some 4, some 4⟩
  memory := .oneLine ⟨some 1, some 1, some 1, some 1⟩ 1
  registerWidthBits := some 128
  recipes := [("vle32.v:", {
    decodedMacroOps := some 1
    retireMacroOps := some 1
    uops := [{ id := "load", kind := .loadData, latencyCycles := some 1, issueIntervalCycles := some 1,
               resourceOccupancyCycles := some 1, resourceChoices := [] }] })]
  resources := []
  cacheLineBytes := lineBytes
  l1d := ⟨some 1, some 1, some 1⟩
  decompositionRules := some [(.vectorMemory, { parts := rule })]

/-- A load of 40 bytes, the first of them 48 bytes into a line of 64. -/
def access : MemoryAccess := { access := .load, address := 48, bytes := 40, cacheLines := [0, 1] }

def vectorLoad : Instruction where
  id := 0
  sequence := 0
  mnemonic := "vle32.v"
  semanticUops := [{ kind := .vectorLoad }]
  memory := some access
  vectorState := some { vlenBits := 256, sewBits := some 32, lmul := some .m2, vl := some 10 }

end Sample

theorem parts_tile_sample : ∃ b, bindInstruction (Sample.loadProfile .dynamic 64) [] Sample.vectorLoad = .ok b ∧
    TilesAccess 64 (some 128) Sample.access (b.memoryParts 0) := by
  obtain ⟨b, hb⟩ := exists_ok (x := bindInstruction (Sample.loadProfile .dynamic 64) [] Sample.vectorLoad)
    (by decide +kernel)
  have hrun : ((bindInstruction (Sample.loadProfile .dynamic 64) [] Sample.vectorLoad).map fun b =>
      (b.decomposition.map (·.widthBits), decide (∃ p ∈ b.pairs, p.1.prep = false ∧ p.1.localIndex = 0 ∧
        p.1.uop.carries))).toOption = some (some 128, true) := by
    decide +kernel
  rw [hb] at hrun
  obtain ⟨hwidth, hcarries⟩ := Prod.mk.inj (Option.some.inj hrun)
  obtain ⟨htile, hlines⟩ := parts_tile (Sample.loadProfile .dynamic 64) (fun w hw => by cases hw; decide) [] Sample.vectorLoad
    b hb Sample.access rfl (by decide) 0 (of_decide_eq_true hcarries)
  rw [hwidth] at htile
  refine ⟨b, hb, htile.mpr ⟨?_, (hlines (by decide +kernel)).mpr ⟨rfl, rfl⟩⟩⟩
  -- the rule `dynamic` asks for nothing
  intro c _ _ rule state hrule w _
  obtain ⟨rfl, -⟩ : ({ parts := .dynamic } : DecompositionRule) = rule ∧ _ = state :=
    Prod.mk.inj (Option.some.inj (show some _ = some (rule, state) from hrule))
  trivial

/-- With lines of 32 bytes the parts touch a line that is not warmed; two parts of a fixed rule
leave eight bytes out. -/
theorem parts_miss : (∃ b, bindInstruction (Sample.loadProfile .dynamic 32) [] Sample.vectorLoad = .ok b ∧
      ¬ TilesAccess 32 (b.decomposition.map (·.widthBits)) Sample.access (b.memoryParts 0)) ∧
    ∃ b, bindInstruction (Sample.loadProfile (.fixed 2) 64) [] Sample.vectorLoad = .ok b ∧
      ¬ TilesAccess 64 (b.decomposition.map (·.widthBits)) Sample.access (b.memoryParts 0) := by
  constructor
  · have hrun : ((bindInstruction (Sample.loadProfile .dynamic 32) [] Sample.vectorLoad).map fun b =>
        (b.memoryParts 0).map (·.cacheLines)).toOption = some [[1], [2], [2]] := by decide +kernel
    obtain ⟨b, hb, hparts⟩ := ok_map.mp (toOption_ok.mp hrun)
    refine ⟨b, hb, fun h => ?_⟩
    have hin : ∃ x ∈ b.memoryParts 0, 2 ∈ x.cacheLines := by
      have hmem : [2] ∈ (b.memoryParts 0).map (·.cacheLines) := by
        rw [hparts]
        simp
      obtain ⟨x, hx, he⟩ := List.mem_map.mp hmem
      exact ⟨x, hx, by rw [he]; simp⟩
    exact absurd ((h.warmed 2).mp hin) (by decide)
  · have hrun : ((bindInstruction (Sample.loadProfile (.fixed 2) 64) [] Sample.vectorLoad).map fun b =>
        (b.memoryParts 0).map fun x => (x.address, x.bytes)).toOption = some [(48, 16), (64, 16)] := by decide +kernel
    obtain ⟨b, hb, hparts⟩ := ok_map.mp (toOption_ok.mp hrun)
    refine ⟨b, hb, fun h => ?_⟩
    have htiles := h.tiles
    rw [hparts] at htiles
    -- the pieces end at byte 80
    have hend : (48 + (16 : ℕ) + (16 : ℕ) : ℤ) = 48 + (40 : ℕ) := htiles.2.2.2.2
    omega

end VectorSim
