/-
# What the expander makes of a trace

The trace that the XSAI engine schedules is the quotient of the bound trace by the
entries: every execution uop is in one entry, and an entry waits for another just where
a uop of it waits for a uop of the other, or where they stand next to each other in a
synthetic chain (`IsQuotient`). Grouping can close a circle that the uops did not have:
then, and only then, the validation rejects the scheduler-visible trace
(`expansion_quotient`, `interleaved_parts_rejected`).
-/
import VectorSim.SemanticTraces
import VectorSim.TraceSafety
import VectorSim.RawSafety

namespace VectorSim

open Checked

namespace Expander

/-- Uops of the entry `u` name, in the field `f`, uops of the entry `d`, another one. -/
def Names (slots : List Slot) (f : ExecutionUop → List Id) (u d : Id) : Prop :=
  u ≠ d ∧ ∃ s ∈ slots, ∃ t ∈ slots, s.id = u ∧ t.id = d ∧ ∃ x ∈ s.uops, ∃ y ∈ t.uops, y.id ∈ f x

/-- The entries of the macro-op form a chain: it configures the vectors, or reduces one. -/
def Synthetic (T : BoundTrace) (m : Id) : Prop :=
  ∃ i ∈ T.source, i.id = m ∧ (.vectorConfig ∈ i.semanticKinds ∨ i.semanticKinds.any (·.isReduction))

/-- The entry `d` stands right before `u` in a synthetic chain. -/
def Chained (T T' : BoundTrace) (u d : Id) : Prop := ∃ m ∈ T'.macros, Synthetic T m.id ∧ [d, u] <:+: m.uopIds

/-- The uop `y` of the scheduler-visible trace does what the entry does. -/
structure Stands (T T' : BoundTrace) (slots : List Slot) (y : ExecutionUop) : Prop where
  parent : ∃ s ∈ slots, s.id = y.id ∧ s.parentId = y.parentId
  dependencies : ∀ d, d ∈ y.dependencies ↔ Names slots (·.dependencies) y.id d ∨ Chained T T' y.id d
  vectorState : ∀ d, d ∈ y.vectorStateDependencies ↔ Names slots (·.vectorStateDependencies) y.id d
  oldDestination : ∀ d, d ∈ y.oldDestinationDependencies ↔ Names slots (·.oldDestinationDependencies) y.id d

/-- `T'` is the quotient of `T` by the entries. -/
structure IsQuotient (T T' : BoundTrace) (slots : List Slot) : Prop where
  /-- There is one uop for each entry. -/
  entries : T'.uops.map (·.id) = slots.map (·.id)
  distinct : (slots.map (·.id)).Nodup
  /-- Every execution uop is in one entry, of its own macro-op. -/
  owned : ∀ x ∈ T.uops, ∃! s, s ∈ slots ∧ x ∈ s.uops
  own : ∀ s ∈ slots, ∀ x ∈ s.uops, x ∈ T.uops ∧ x.parentId = s.parentId
  stands : ∀ y ∈ T'.uops, Stands T T' slots y
  /-- The macro-ops, which are those of `T`, divide the uops in program order. -/
  macros : T'.macros.map (·.id) = T.macros.map (·.id)
  listed : T'.uops.map (·.id) = T'.macros.flatMap (·.uopIds)
  parents : PartitionsUops T'

/-- An entry waits for another entry of its macro-op. -/
def WaitsWithin (slots : List Slot) (u d : Id) : Prop :=
  Names slots (·.dependencies) u d ∧ ∃ s ∈ slots, ∃ t ∈ slots, s.id = u ∧ t.id = d ∧ s.parentId = t.parentId

/-- No entries of a macro-op wait for each other in a circle. -/
def Unknotted (slots : List Slot) : Prop := ∀ u, ¬ Relation.TransGen (WaitsWithin slots) u u

variable {T : BoundTrace} {P : EngineProfile}

/-! ### The entries of a macro-op -/

/-- The groups of a macro-op: a chain, of which one has all the uops, or none in a chain. -/
theorem groupsForMacro_chain {width : PositiveParam} {m : MacroOp} {i : Instruction} {execution : List ExecutionUop}
    {groups : List Group} (h : groupsForMacro width m i execution = .ok groups) :
    (.vectorConfig ∈ i.semanticKinds ∨ i.semanticKinds.any (·.isReduction)) ∧
        (∀ g ∈ groups, g.chain = true ∧ (g.uops = [] ∨ g.uops = execution)) ∨
      ¬ (.vectorConfig ∈ i.semanticKinds ∨ i.semanticKinds.any (·.isReduction)) ∧ ∀ g ∈ groups, g.chain = false := by
  have hsequence : ∀ {role}, syntheticSequence role m execution = .ok groups →
      ∀ g ∈ groups, g.chain = true ∧ (g.uops = [] ∨ g.uops = execution) := by
    intro role h
    unfold syntheticSequence at h
    split at h
    · cases h
    · cases h
      intro g hg
      obtain ⟨k, -, rfl⟩ := List.mem_map.mp hg
      refine ⟨rfl, ?_⟩
      dsimp only
      split
      · exact .inr rfl
      · exact .inl rfl
  have hparts : ∀ {a b : String}, ∀ g ∈ prepGroups a execution ++ partGroups b execution, g.chain = false := by
    intro a b g hg
    rcases List.mem_append.mp hg with hg | hg
    · obtain ⟨x, -, rfl⟩ := List.mem_map.mp hg
      rfl
    · obtain ⟨p, -, rfl⟩ := List.mem_map.mp hg
      rfl
  unfold groupsForMacro at h
  split at h
  · next hconfig => exact .inl ⟨.inl hconfig, hsequence h⟩
  · next hconfig =>
    split at h
    · next hreduction => exact .inl ⟨.inr hreduction, hsequence h⟩
    · next hreduction =>
      refine .inr ⟨not_or.mpr ⟨hconfig, hreduction⟩, ?_⟩
      split at h
      · unfold vectorMemoryGroups at h
        split at h
        · cases h
        · split at h
          · cases h
          · cases h
            exact hparts
      · split at h
        · unfold vectorComputeGroups at h
          split at h
          · cases h
          · cases h
            exact hparts
        · cases h
          intro g hg
          obtain ⟨x, -, rfl⟩ := List.mem_map.mp hg
          rfl

/-- An entry outside a chain waits for none of its own accord. -/
theorem slotsOf_free {m : MacroOp} {execution : List ExecutionUop} : ∀ {gs : List (Group × ℕ)}
    {previous : Option Id} {slots : List Slot}, slotsOf m execution previous gs = .ok slots →
      (∀ g ∈ gs, g.1.chain = false) → ∀ s ∈ slots, s.localDependencies = []
  | [], _, _, h, _, s, hs => by
    cases h
    cases hs
  | g :: gs, previous, slots, h, hfree, s, hs => by
    obtain ⟨slot, hslot, h⟩ := ok_bind.mp h
    obtain ⟨rest, hrest, h⟩ := ok_bind.mp h
    cases h
    rcases List.mem_cons.mp hs with rfl | hs
    · rw [(slotOf_made hslot).2, hfree g List.mem_cons_self]
      rfl
    · exact slotsOf_free hrest (fun g hg => hfree g (List.mem_cons_of_mem _ hg)) s hs

/-- An entry of a chain waits for the one right before it. -/
theorem slotsOf_chained {m : MacroOp} {execution : List ExecutionUop} : ∀ {gs : List (Group × ℕ)}
    {previous : Option Id} {slots : List Slot}, slotsOf m execution previous gs = .ok slots →
      (∀ g ∈ gs, g.1.chain = true) → ∀ before s after, slots = before ++ s :: after →
        s.localDependencies = ((before.getLast?.map (·.id)).or previous).toList
  | [], _, _, h, _, before, s, after, he => by
    cases h
    exact absurd he.symm (by simp)
  | g :: gs, previous, slots, h, hchain, before, s, after, he => by
    obtain ⟨slot, hslot, h⟩ := ok_bind.mp h
    obtain ⟨rest, hrest, h⟩ := ok_bind.mp h
    cases h
    rw [if_pos (hchain g List.mem_cons_self)] at hrest
    cases before with
    | nil =>
      obtain ⟨rfl, -⟩ := List.cons.inj he
      rw [(slotOf_made hslot).2, if_pos (hchain g List.mem_cons_self)]
      rfl
    | cons b before =>
      obtain ⟨rfl, hrest'⟩ := List.cons.inj he
      rw [slotsOf_chained hrest (fun g hg => hchain g (List.mem_cons_of_mem _ hg)) before s after hrest']
      cases before with
      | nil => rfl
      | cons b' before => rw [List.getLast?_cons_cons, List.getLast?_cons]; rfl

/-- What the entries of a macro-op are made of, and what they wait for of their own accord. -/
structure MacroEntries (T : BoundTrace) (m : MacroOp) (l : List Slot) : Prop where
  made : ∃ groups : List Group, List.Forall₂ (Made m (executionOf T m)) groups.zipIdx l
  whole : Synthetic T m.id → ∀ s ∈ l, s.uops = [] ∨ s.uops = executionOf T m
  chained : Synthetic T m.id → ∀ before s after, l = before ++ s :: after →
    s.localDependencies = (before.getLast?.map (·.id)).toList
  free : ¬ Synthetic T m.id → ∀ s ∈ l, s.localDependencies = []

theorem slotsForMacro_entries {width : PositiveParam} {m : MacroOp} {l : List Slot} (hn : (T.source.map (·.id)).Nodup)
    (h : slotsForMacro T width m = .ok l) : MacroEntries T m l := by
  unfold slotsForMacro at h
  split at h
  · cases h
  · next i hi =>
    obtain ⟨groups, hgroups, h⟩ := ok_bind.mp h
    have hsynthetic : Synthetic T m.id ↔ (.vectorConfig ∈ i.semanticKinds ∨ i.semanticKinds.any (·.isReduction)) := by
      have hmem := List.mem_of_find?_eq_some hi
      have hid : i.id = m.id := by simpa using List.find?_some hi
      constructor
      · rintro ⟨j, hj, hjd, hkinds⟩
        obtain rfl : j = i := List.inj_on_of_nodup_map hn hj hmem (hjd.trans hid.symm)
        exact hkinds
      · exact fun hkinds => ⟨i, hmem, hid, hkinds⟩
    have hgroup : ∀ g ∈ groups.zipIdx, g.1 ∈ groups := fun g hg => List.fst_mem_of_mem_zipIdx hg
    refine ⟨⟨groups, slotsOf_made h⟩, fun hs s hsl => ?_, fun hs before s after he => ?_, fun hs => ?_⟩
    · obtain ⟨-, hall⟩ := (groupsForMacro_chain hgroups).resolve_right fun hno => hno.1 (hsynthetic.mp hs)
      obtain ⟨g, hg, hmade⟩ := forall₂_right (slotsOf_made h) hsl
      rw [hmade.uops]
      exact (hall g.1 (hgroup g hg)).2
    · obtain ⟨-, hall⟩ := (groupsForMacro_chain hgroups).resolve_right fun hno => hno.1 (hsynthetic.mp hs)
      rw [slotsOf_chained h (fun g hg => (hall g.1 (hgroup g hg)).1) before s after he, Option.or_none]
    · obtain ⟨-, hall⟩ := (groupsForMacro_chain hgroups).resolve_left fun hyes => hs (hsynthetic.mpr hyes.1)
      exact slotsOf_free h fun g hg => hall g.1 (hgroup g hg)

/-! ### The entries of a trace -/

/-- The entries of a trace of the binder. -/
structure Entries (T : BoundTrace) (slots : List (Slot × List Id)) : Prop where
  expands : Expands T slots
  /-- No uop is in two entries. -/
  single : ((slots.map (·.1)).flatMap fun s => s.uops.map (·.id)).Nodup
  distinct : ((slots.map (·.1)).map (·.id)).Nodup
  macros : ∀ m ∈ T.macros, MacroEntries T m ((slots.map (·.1)).filter (·.parentId = m.id))

section Entries

variable {slots : List Slot} (hn : (slots.flatMap fun s => s.uops.map (·.id)).Nodup)

include hn

/-- A uop is in one entry. -/
theorem entry_unique {s t : Slot} (hs : s ∈ slots) (ht : t ∈ slots) {u : Id} (hsu : u ∈ s.uops.map (·.id)) (htu : u ∈ t.uops.map (·.id)) : s = t := by
  obtain ⟨-, hdisjoint⟩ := List.nodup_flatMap.mp hn
  have : Std.Symm (Function.onFun List.Disjoint fun s : Slot => s.uops.map (·.id)) := ⟨fun _ _ h => h.symm⟩
  by_contra hne
  exact hdisjoint.forall hs ht hne hsu htu

theorem ownerOf_eq_some {u o : Id} :
    ownerOf slots u = some o ↔ ∃ s ∈ slots, s.id = o ∧ u ∈ s.uops.map (·.id) := by
  unfold ownerOf
  rw [Option.map_eq_some_iff]
  constructor
  · rintro ⟨s, hs, rfl⟩
    exact ⟨s, List.mem_of_find?_eq_some hs, rfl, by simpa using List.find?_some hs⟩
  · rintro ⟨s, hs, rfl, hu⟩
    cases hfind : slots.find? fun s => u ∈ s.uops.map (·.id) with
    | none => exact absurd hu (by simpa using List.find?_eq_none.mp hfind s hs)
    | some t =>
      refine ⟨t, rfl, ?_⟩
      have htu : u ∈ t.uops.map (·.id) := by simpa using List.find?_some hfind
      rw [entry_unique hn (List.mem_of_find?_eq_some hfind) hs htu hu]

variable (hd : (slots.map (·.id)).Nodup) {s : Slot} (hs : s ∈ slots)

include hd hs

/-- What the uops of an entry name, as other entries. -/
theorem names_iff {f : ExecutionUop → List Id} {d : Id} :
    Names slots f s.id d ↔ d ≠ s.id ∧ ∃ x ∈ s.uops, ∃ u ∈ f x, ownerOf slots u = some d := by
  constructor
  · rintro ⟨hne, s', hs', t, ht, hid, rfl, x, hx, y, hy, hyx⟩
    obtain rfl : s' = s := List.inj_on_of_nodup_map hd hs' hs hid
    exact ⟨hne.symm, x, hx, y.id, hyx, (ownerOf_eq_some hn).mpr ⟨t, ht, rfl, List.mem_map_of_mem hy⟩⟩
  · rintro ⟨hne, x, hx, u, hu, ho⟩
    obtain ⟨t, ht, rfl, hut⟩ := (ownerOf_eq_some hn).mp ho
    obtain ⟨y, hy, rfl⟩ := List.mem_map.mp hut
    exact ⟨hne.symm, s, hs, t, ht, rfl, rfl, x, hx, y, hy, hu⟩

theorem mem_translateAll {f : ExecutionUop → List Id} {d : Id} :
    d ∈ translateAll slots s.id (s.uops.flatMap f) ↔ Names slots f s.id d := by
  rw [names_iff hn hd hs, translateAll, List.mem_filter, List.mem_dedup, List.mem_filterMap, and_comm, decide_eq_true_eq]
  refine and_congr_right fun _ => ?_
  constructor
  · rintro ⟨u, hu, ho⟩
    obtain ⟨x, hx, hu⟩ := List.mem_flatMap.mp hu
    exact ⟨x, hx, u, hu, ho⟩
  · rintro ⟨x, hx, u, hu, ho⟩
    exact ⟨u, List.mem_flatMap.mpr ⟨x, hx, hu⟩, ho⟩

/-- What an entry waits for: what its uops do, as other entries, and what it waits for of its own
accord. -/
theorem mem_translated_iff {ids : List Id} (h : translated slots s = .ok ids) {d : Id} :
    d ∈ ids ↔ Names slots (·.dependencies) s.id d ∨ d ≠ s.id ∧ d ∈ s.localDependencies := by
  rw [names_iff hn hd hs]
  have hother : d ∈ ids → d ≠ s.id := by
    obtain ⟨owners, -, h⟩ := ok_bind.mp h
    cases h
    exact fun hin => of_decide_eq_true (List.mem_filter.mp hin).2
  constructor
  · intro hin
    rcases mem_translated h d hin with hlocal | hnamed
    · exact .inr ⟨hother hin, hlocal⟩
    · exact .inl ⟨hother hin, hnamed⟩
  · obtain ⟨owners, howners, h⟩ := ok_bind.mp h
    cases h
    rw [List.mem_filter, List.mem_dedup, List.mem_append, decide_eq_true_eq]
    rintro (⟨hne, x, hx, u, hu, ho⟩ | ⟨hne, hlocal⟩)
    · refine ⟨.inr ?_, hne⟩
      -- a uop of the entry itself is not owned by another
      have hout : u ∉ s.uops.map (·.id) := fun hin => by
        have hself := (ownerOf_eq_some hn).mpr ⟨s, hs, rfl, hin⟩
        exact hne (Option.some.inj (ho.symm.trans hself))
      have hmem : u ∈ (s.uops.flatMap (·.dependencies)).dedup.filter fun d => d ∉ s.uops.map (·.id) :=
        List.mem_filter.mpr ⟨List.mem_dedup.mpr (List.mem_flatMap.mpr ⟨x, hx, hu⟩), decide_eq_true hout⟩
      obtain ⟨o, hin, hok⟩ := forall₂_left (mapM_ok.mp howners) hmem
      rw [ho] at hok
      cases hok
      exact hin
    · exact ⟨.inl hlocal, hne⟩

end Entries

/-- An entry has the id of one of its uops, or one that the expander makes of its place. -/
theorem Made.named {m : MacroOp} {execution : List ExecutionUop} {g : Group × ℕ} {s : Slot} (h : Made m execution g s) :
    (∃ x ∈ s.uops, s.id = x.id) ∨ s.uops = [] ∧ s.id = slotId m.id g.2 := by
  rw [h.id, h.uops]
  unfold slotIdOf
  split
  · next x hx => exact .inl ⟨x, List.mem_of_getLast? hx, rfl⟩
  · next hx => exact .inr ⟨List.getLast?_eq_none_iff.mp hx, rfl⟩

namespace MacroEntries

variable {m : MacroOp} {l : List Slot} (h : MacroEntries T m l)

include h

theorem named {s : Slot} (hs : s ∈ l) : (∃ x ∈ s.uops, s.id = x.id) ∨ s.uops = [] ∧ ∃ k, s.id = slotId m.id k := by
  obtain ⟨groups, hmade⟩ := h.made
  obtain ⟨g, -, hg⟩ := forall₂_right hmade hs
  exact hg.named.imp_right fun hnil => ⟨hnil.1, _, hnil.2⟩

/-- The ids that the expander makes for the entries of a macro-op differ. -/
theorem distinct : l.Pairwise fun s t => s.uops = [] → t.uops = [] → s.id ≠ t.id := by
  obtain ⟨groups, hmade⟩ := h.made
  have hplaces : groups.zipIdx.Pairwise fun g g' => g.2 < g'.2 := by
    have := List.pairwise_lt_range' (s := 0) (n := groups.length)
    rwa [← List.zipIdx_map_snd, List.pairwise_map] at this
  refine forall₂_pairwise hmade hplaces fun {g g' s t} hs ht hlt hsnil htnil he => ?_
  have hsid : s.id = slotId m.id g.2 := by simpa [hsnil] using hs.named
  have htid : t.id = slotId m.id g'.2 := by simpa [htnil] using ht.named
  rw [hsid, htid] at he
  have := (Nat.pair_eq_pair.mp he).2
  omega

end MacroEntries

/-- Nor are they those of another macro-op. -/
theorem internal_distinct {macros : List MacroOp} {byMacro : List (List Slot)}
    (h : List.Forall₂ (MacroEntries T) macros byMacro) (hn : (macros.map (·.id)).Nodup) :
    byMacro.flatten.Pairwise fun s t => s.uops = [] → t.uops = [] → s.id ≠ t.id := by
  refine List.pairwise_flatten.mpr ⟨fun l hl => ?_, ?_⟩
  · obtain ⟨m, -, hm⟩ := forall₂_right h hl
    exact hm.distinct
  · refine forall₂_pairwise h (List.pairwise_map.mp hn) fun {m m' l l'} hl hl' hne s hs t ht hsnil htnil he => ?_
    obtain ⟨k, hk⟩ : ∃ k, s.id = slotId m.id k := by simpa [hsnil] using hl.named hs
    obtain ⟨k', hk'⟩ : ∃ k, t.id = slotId m'.id k := by simpa [htnil] using hl'.named ht
    rw [hk, hk'] at he
    exact hne (Nat.pair_eq_pair.mp he).1

theorem execId_ne_slotId {n k n' k' : ℕ} : execId n k ≠ slotId n' k' := by
  intro he
  have := (Nat.pair_eq_pair.mp he).2
  omega

/-- The expander's entries of a trace that is made as the binder makes it. -/
theorem expand_entries (hvalid : validateBoundTrace T = .ok ()) (hP : Provenance T)
    (hids : ∀ x ∈ T.uops, ∃ k, x.id = execId x.parentId k) {slots : List (Slot × List Id)} (h : expand T P = .ok slots) :
    Entries T slots := by
  have hT := wellFormed_of_valid hvalid
  have hS := expand_expands (decoded_of_valid hvalid) h
  obtain ⟨byMacro, hfirst, hslots, -, hsingle⟩ := expand_byMacro h
  have hentries : List.Forall₂ (MacroEntries T) T.macros byMacro :=
    hslots.imp fun m l hl => slotsForMacro_entries (hP.source ▸ hT.macroIds) hl
  rw [List.map_flatMap, ← hfirst] at hsingle
  have hnamed : ∀ s ∈ slots.map (·.1), (∃ x ∈ s.uops, s.id = x.id ∧ ∃ n k, s.id = execId n k) ∨
      s.uops = [] ∧ ∃ n k, s.id = slotId n k := by
    intro s hs
    obtain ⟨e, he, rfl⟩ := List.mem_map.mp hs
    obtain ⟨l, hl, hsl⟩ := List.mem_flatten.mp (hfirst ▸ hs)
    obtain ⟨m, -, hm⟩ := forall₂_right hentries hl
    rcases hm.named hsl with ⟨x, hx, hid⟩ | ⟨hnil, k, hid⟩
    · obtain ⟨k, hk⟩ := hids x (hS.uops_own hT he hx).1
      exact .inl ⟨x, hx, hid, _, k, hid.trans hk⟩
    · exact .inr ⟨hnil, _, k, hid⟩
  refine ⟨hS, hsingle, ?_, fun m hm => ?_⟩
  · obtain ⟨-, hdisjoint⟩ := List.nodup_flatMap.mp hsingle
    rw [List.Nodup, List.pairwise_map]
    refine (hdisjoint.and (hfirst ▸ internal_distinct hentries hT.macroIds)).imp_of_mem fun {s t} hs ht hst he => ?_
    rcases hnamed s hs with ⟨x, hx, hxid, n, k, hsid⟩ | ⟨hsnil, n, k, hsid⟩
    · rcases hnamed t ht with ⟨y, hy, hyid, -⟩ | ⟨-, n', k', htid⟩
      · exact hst.1 (List.mem_map_of_mem hx) (hxid ▸ he ▸ hyid ▸ List.mem_map_of_mem hy)
      · exact execId_ne_slotId (hsid ▸ he ▸ htid)
    · rcases hnamed t ht with ⟨-, -, -, n', k', htid⟩ | ⟨htnil, -⟩
      · exact execId_ne_slotId (htid ▸ he ▸ hsid)
      · exact hst.2 hsnil htnil he
  · have hby := byMacro_eq (hslots.imp fun m l hl => slotsForMacro_parent hl) hT.macroIds
    rw [hfirst]
    rw [hby, List.forall₂_map_right_iff, List.forall₂_same] at hentries
    exact hentries m hm

/-! ### The scheduler-visible trace -/

theorem idxOf_lt_of_adjacent {l : List Id} (hn : l.Nodup) {d u : Id} (h : [d, u] <:+: l) : l.idxOf d < l.idxOf u := by
  obtain ⟨p, q, rfl⟩ := h
  have hne : d ≠ u := by simpa using hn.of_append_left.of_append_right
  have hd : d ∉ p := fun hp => List.disjoint_of_nodup_append hn.of_append_left hp (by simp)
  have hu : u ∉ p := fun hp => List.disjoint_of_nodup_append hn.of_append_left hp (by simp)
  simp [List.idxOf_append_of_notMem, hd, hu, hne]

namespace Entries

variable {slots : List (Slot × List Id)} (hE : Entries T slots)

include hE

theorem made {e : Slot × List Id} (he : e ∈ slots) : ∃ m ∈ T.macros, ∃ g, Made m (executionOf T m) g e.1 := by
  obtain ⟨m, hm, hparent, -⟩ := hE.expands.parent e he
  obtain ⟨groups, hmade⟩ := (hE.macros m hm).made
  obtain ⟨g, -, hg⟩ := forall₂_right hmade (List.mem_filter.mpr ⟨List.mem_map_of_mem he, decide_eq_true hparent⟩)
  exact ⟨m, hm, g, hg⟩

theorem uopIds (hT : WellFormed T) : (materialize T slots).uops.map (·.id) = (slots.map (·.1)).map (·.id) := by
  have hne : ∀ e ∈ slots, e.1.macroUops ≠ [] := by
    intro e he
    obtain ⟨m, hm, -, hmac, -⟩ := hE.expands.parent e he
    rw [hmac]
    exact executionOf_ne_nil hT hm
  rw [materialize_ids hne, List.map_map]
  rfl

omit hE in
/-- A macro-op lists its entries. -/
theorem macro_of_materialize {m : MacroOp} (hm : m ∈ (materialize T slots).macros) :
    ∃ m' ∈ T.macros, m.id = m'.id ∧ m.uopIds = ((slots.map (·.1)).filter (·.parentId = m.id)).map (·.id) := by
  obtain ⟨m', hm', rfl⟩ := List.mem_map.mp hm
  refine ⟨m', hm', rfl, ?_⟩
  rw [List.filter_map, List.map_map]
  rfl

/-- The chain that an entry is in is that of its macro-op. -/
theorem chained_at {s : Slot} (hs : s ∈ slots.map (·.1)) {d : Id} (h : Chained T (materialize T slots) s.id d) :
    Synthetic T s.parentId ∧ [d, s.id] <:+: ((slots.map (·.1)).filter (·.parentId = s.parentId)).map (·.id) := by
  obtain ⟨m', hm', hsynthetic, hnext⟩ := h
  obtain ⟨m, -, -, hlist⟩ := macro_of_materialize hm'
  have hin : s.id ∈ m'.uopIds := hnext.subset (by simp)
  rw [hlist] at hin
  obtain ⟨s', hs', hid⟩ := List.mem_map.mp hin
  obtain ⟨hs', hparent⟩ := List.mem_filter.mp hs'
  obtain rfl : s' = s := List.inj_on_of_nodup_map hE.distinct hs' hs hid
  have hparent : s'.parentId = m'.id := of_decide_eq_true hparent
  rw [hparent]
  exact ⟨hsynthetic, hlist ▸ hnext⟩

/-- What an entry waits for of its own accord is the one right before it in a chain. -/
theorem chained_iff {e : Slot × List Id} (he : e ∈ slots) {d : Id} :
    Chained T (materialize T slots) e.1.id d ↔ d ≠ e.1.id ∧ d ∈ e.1.localDependencies := by
  have heS : e.1 ∈ slots.map (·.1) := List.mem_map_of_mem he
  constructor
  · intro h
    obtain ⟨hsynthetic, hnext⟩ := hE.chained_at heS h
    obtain ⟨m, hm, hparent, -⟩ := hE.expands.parent e he
    rw [hparent] at hsynthetic hnext
    have hne : d ≠ e.1.id := fun hself =>
      (idxOf_lt_of_adjacent (hE.distinct.sublist (List.filter_sublist.map _)) hnext).ne (by rw [hself])
    -- the entries of the two ids
    obtain ⟨p, q, hpq⟩ := hnext
    rw [List.append_assoc] at hpq
    obtain ⟨before, rest, hl, rfl, hrest⟩ := List.map_eq_append_iff.mp hpq.symm
    obtain ⟨t, rest', rfl, rfl, hcons⟩ := List.map_eq_cons_iff.mp hrest
    obtain ⟨s, after, rfl, hsid, -⟩ := List.map_eq_cons_iff.mp hcons
    have hs : s ∈ (slots.map (·.1)).filter (·.parentId = m.id) := by simp [hl]
    obtain rfl : s = e.1 := List.inj_on_of_nodup_map hE.distinct (List.mem_of_mem_filter hs) heS hsid
    refine ⟨hne, ?_⟩
    rw [(hE.macros m hm).chained hsynthetic (before ++ [t]) e.1 after (by rw [hl]; simp)]
    simp
  · rintro ⟨-, hlocal⟩
    obtain ⟨m, hm, hparent, -⟩ := hE.expands.parent e he
    have hentries := hE.macros m hm
    have hin : e.1 ∈ (slots.map (·.1)).filter (·.parentId = m.id) :=
      List.mem_filter.mpr ⟨heS, decide_eq_true hparent⟩
    have hsynthetic : Synthetic T m.id := by
      by_contra hno
      rw [hentries.free hno _ hin] at hlocal
      cases hlocal
    obtain ⟨before, after, hl⟩ := List.append_of_mem hin
    rw [hentries.chained hsynthetic before e.1 after hl, Option.mem_toList, Option.map_eq_some_iff] at hlocal
    obtain ⟨t, ht, rfl⟩ := hlocal
    obtain ⟨before, rfl⟩ := List.getLast?_eq_some_iff.mp ht
    obtain ⟨m', hm', hid⟩ : ∃ m' ∈ (materialize T slots).macros, m'.id = m.id := ⟨_, List.mem_map_of_mem hm, rfl⟩
    obtain ⟨-, -, -, hlist⟩ := macro_of_materialize hm'
    refine ⟨m', hm', hid ▸ hsynthetic, before.map (·.id), after.map (·.id), ?_⟩
    rw [hlist, hid, hl]
    simp

/-- The uop of an entry waits for what the entry does. -/
theorem stands (hT : WellFormed T) {y : ExecutionUop} (hy : y ∈ (materialize T slots).uops) :
    Stands T (materialize T slots) (slots.map (·.1)) y := by
  obtain ⟨e, he, _, -, hcopies, hparent⟩ := hE.expands.copies hT hy
  have heS : e.1 ∈ slots.map (·.1) := List.mem_map_of_mem he
  refine ⟨⟨e.1, heS, hcopies.id.symm, hparent.symm⟩, fun d => ?_, fun d => ?_, fun d => ?_⟩
  · rw [hcopies.dependencies, hcopies.id, hE.chained_iff he]
    exact mem_translated_iff hE.single hE.distinct heS (hE.expands.translated e he)
  · rw [hcopies.vectorState, hcopies.id]
    exact mem_translateAll hE.single hE.distinct heS
  · rw [hcopies.oldDestination, hcopies.id]
    exact mem_translateAll hE.single hE.distinct heS

omit hE in
theorem macro_ids : (materialize T slots).macros.map (·.id) = T.macros.map (·.id) := by
  unfold materialize
  dsimp only
  rw [List.map_map]
  rfl

/-- What an entry waits for is an entry. -/
theorem stands_known (hT : WellFormed T) {y : ExecutionUop} (hy : y ∈ (materialize T slots).uops) :
    ∀ d ∈ y.dependencies, d ∈ (slots.map (·.1)).map (·.id) := by
  intro d hd
  rcases ((hE.stands hT hy).dependencies d).mp hd with ⟨-, -, -, t, ht, -, rfl, -⟩ | ⟨m', hm', -, hnext⟩
  · exact List.mem_map_of_mem ht
  · obtain ⟨m, -, -, hlist⟩ := macro_of_materialize hm'
    have hin : d ∈ m'.uopIds := hnext.subset (by simp)
    rw [hlist] at hin
    exact List.map_subset _ (List.filter_subset_self _) hin

theorem uop?_isSome (hT : WellFormed T) {u : Id} (hu : u ∈ (slots.map (·.1)).map (·.id)) :
    ((materialize T slots).uop? u).isSome := by
  rw [← hE.uopIds hT] at hu
  obtain ⟨y, hy, rfl⟩ := List.mem_map.mp hu
  rw [uop?_of_mem (hE.uopIds hT ▸ hE.distinct) hy]
  rfl

/-- **The scheduler-visible trace keeps the checks of the fields.** -/
theorem fields (hvalid : validateBoundTrace T = .ok ()) : FieldChecks (materialize T slots) := by
  have hT := wellFormed_of_valid hvalid
  obtain ⟨hfields, -, -⟩ := validate_iff.mp hvalid
  have hwider : ∀ {f g : ExecutionUop → List Id} {u d : Id}, (∀ x ∈ T.uops, f x ⊆ g x) →
      Names (slots.map (·.1)) f u d → Names (slots.map (·.1)) g u d := by
    rintro f g u d hfg ⟨hne, s, hs, t, ht, hsid, htid, x, hx, y, hy, hyx⟩
    obtain ⟨e, he, rfl⟩ := List.mem_map.mp hs
    exact ⟨hne, _, hs, t, ht, hsid, htid, x, hx, y, hy, hfg x (hE.expands.uops_own hT he hx).1 hyx⟩
  refine ⟨by rw [macro_ids]; exact hfields.macroIds, hE.uopIds hT ▸ hE.distinct, fun m' hm' => ?_, fun y hy => ?_⟩
  · obtain ⟨m, hm, rfl⟩ := List.mem_map.mp hm'
    have hchecks := hfields.macros m hm
    -- a macro-op has a uop, and so an entry
    obtain ⟨x, hx⟩ := List.exists_mem_of_ne_nil _ (executionOf_ne_nil hT hm)
    obtain ⟨hxT, hxm⟩ := mem_executionOf hT hm hx
    obtain ⟨e, he, -, hparent⟩ := hE.expands.covered hT hxT
    have hin : e.1.id ∈ (slots.filter fun s => s.1.parentId = m.id).map (·.1.id) :=
      List.mem_map_of_mem (List.mem_filter.mpr ⟨he, decide_eq_true (hparent.trans hxm)⟩)
    exact ⟨hchecks.decoded, List.length_pos_of_mem hin, hchecks.rob, hchecks.retire, hchecks.domains, hchecks.listed,
      hchecks.demands, hchecks.renames, List.ne_nil_of_mem hin⟩
  · have hstands := hE.stands hT hy
    obtain ⟨e, he, owner, howner, hcopies, hparent⟩ := hE.expands.copies hT hy
    obtain ⟨m, hm, g, hmade⟩ := hE.made he
    have hown := hfields.uops owner ((hE.expands.candidates hT he).2 owner howner).1
    have hknown := hE.stands_known hT hy
    refine ⟨?_, fun d hd => ?_, fun d hd => ?_, ?_, hcopies.partitions, hcopies.units, ?_, ?_, ?_, ?_, ?_,
      fun d hd => hE.uop?_isSome hT (hknown d hd), fun u hu => ?_⟩
    · rw [hparent, hmade.parent]
      refine List.find?_isSome.mpr ⟨_, List.mem_map_of_mem hm, ?_⟩
      simp
    · exact (hstands.dependencies d).mpr (.inl (hwider (fun x hx => (hfields.uops x hx).vectorState)
        ((hstands.vectorState d).mp hd)))
    · exact (hstands.dependencies d).mpr (.inl (hwider (fun x hx => (hfields.uops x hx).oldDestination)
        ((hstands.oldDestination d).mp hd)))
    · rw [hcopies.demands, hcopies.domains]
      exact hown.listed
    · rw [hcopies.partCount, hcopies.partIndex]
      cases hu : e.1.uops with
      | nil => simp [hmade.internal hu]
      | cons x _ =>
        have hx : x ∈ e.1.uops := by simp [hu]
        rw [← hmade.partCount x hx, ← hmade.partIndex x hx]
        exact (hfields.uops x (hE.expands.uops_own hT he hx).1).partCount
    · unfold partInRange
      rw [hcopies.partCount, hcopies.partIndex]
      cases hu : e.1.uops with
      | nil => simp [hmade.internal hu]
      | cons x _ =>
        have hx : x ∈ e.1.uops := by simp [hu]
        rw [← hmade.partCount x hx, ← hmade.partIndex x hx]
        exact (hfields.uops x (hE.expands.uops_own hT he hx).1).part
    · rw [hcopies.demands]
      exact hown.demands
    · exact fun d hd => hown.renames d (hcopies.renames hd)
    · rw [hcopies.resources]
      exact hown.resources
    · obtain ⟨v, -, hv⟩ := hcopies.predecessor u hu
      obtain ⟨s, hs, rfl, -⟩ := (ownerOf_eq_some hE.single).mp hv
      exact hE.uop?_isSome hT (List.mem_map_of_mem hs)

/-- Its macro-ops divide its uops. -/
theorem partitions (hT : WellFormed T) : PartitionsUops (materialize T slots) := by
  intro m' hm'
  obtain ⟨m, -, -, hlist⟩ := macro_of_materialize hm'
  rw [hlist]
  have hn : ((materialize T slots).uops.map (·.id)).Nodup := hE.uopIds hT ▸ hE.distinct
  refine (List.perm_ext_iff_of_nodup (hE.distinct.sublist (List.filter_sublist.map _))
    (hn.sublist (List.filter_sublist.map _))).mpr fun u => ?_
  constructor
  · intro hu
    obtain ⟨s, hs, rfl⟩ := List.mem_map.mp hu
    obtain ⟨hs, hparent⟩ := List.mem_filter.mp hs
    obtain ⟨e, he, rfl⟩ := List.mem_map.mp hs
    obtain ⟨y, hy, _, hcopies, hsame⟩ := hE.expands.uop_of_entry hT he
    rw [← hcopies.id]
    exact List.mem_map_of_mem (List.mem_filter.mpr ⟨hy, by rw [hsame]; exact hparent⟩)
  · intro hu
    obtain ⟨y, hy, rfl⟩ := List.mem_map.mp hu
    obtain ⟨hy, hparent⟩ := List.mem_filter.mp hy
    obtain ⟨e, he, _, -, hcopies, hsame⟩ := hE.expands.copies hT hy
    rw [hcopies.id]
    exact List.mem_map_of_mem (List.mem_filter.mpr ⟨List.mem_map_of_mem he, by rw [← hsame]; exact hparent⟩)

/-! ### Circles -/

/-- In a chain no entry has uops that wait for those of another: one entry has them all. -/
theorem synthetic_names {u d m : Id} (hm : Synthetic T m)
    (h : WaitsWithin (slots.map (·.1)) u d) {s : Slot} (hs : s ∈ slots.map (·.1)) (hid : s.id = u)
    (hparent : s.parentId = m) : False := by
  obtain ⟨⟨hne, s₁, hs₁, t, ht, hs₁d, htd, x, hx, y, hy, -⟩, s₂, hs₂, t₂, ht₂, hs₂d, ht₂d, hsame⟩ := h
  obtain rfl : s₁ = s := List.inj_on_of_nodup_map hE.distinct hs₁ hs (hs₁d.trans hid.symm)
  obtain rfl : s₂ = s₁ := List.inj_on_of_nodup_map hE.distinct hs₂ hs₁ (hs₂d.trans hs₁d.symm)
  obtain rfl : t₂ = t := List.inj_on_of_nodup_map hE.distinct ht₂ ht (ht₂d.trans htd.symm)
  obtain ⟨e, he, rfl⟩ := List.mem_map.mp hs
  obtain ⟨m', hm', hm'd, -⟩ := hE.expands.parent e he
  have hentries := hE.macros m' hm'
  have hall : ∀ s ∈ slots.map (·.1), s.parentId = m'.id → s.uops = [] ∨ s.uops = executionOf T m' := fun s hs hp =>
    hentries.whole (hm'd ▸ hparent ▸ hm) s (List.mem_filter.mpr ⟨hs, decide_eq_true hp⟩)
  have hwhole : ∀ s ∈ slots.map (·.1), s.parentId = m'.id → ∀ x ∈ s.uops, s.uops = executionOf T m' := fun s hs hp x hx =>
    (hall s hs hp).resolve_left (List.ne_nil_of_mem hx)
  have hxt : x ∈ t₂.uops := by
    rw [hwhole t₂ ht (hsame.symm.trans hm'd) y hy, ← hwhole e.1 hs hm'd x hx]
    exact hx
  have := entry_unique hE.single hs ht (List.mem_map_of_mem hx) (List.mem_map_of_mem hxt)
  exact hne (by rw [← hid, ← htd, this])

/-- What a uop of the scheduler-visible trace waits for stands in a macro-op before its own, or in
its own. -/
theorem depends_parent (hT : WellFormed T) (hP : Provenance T) {u d : Id} (h : Depends (materialize T slots) u d) :
    ∃ y ∈ (materialize T slots).uops, ∃ z ∈ (materialize T slots).uops, y.id = u ∧ z.id = d ∧ d ∈ y.dependencies ∧
      (z.parentId = y.parentId ∨
        (T.source.map (·.id)).idxOf z.parentId < (T.source.map (·.id)).idxOf y.parentId) := by
  obtain ⟨y, hy, rfl, hd⟩ := h
  obtain ⟨z, hz, rfl, hwhy⟩ := (materialize_provenance hT hP hE.expands).dependencies y hy d hd
  refine ⟨y, hy, z, hz, rfl, rfl, hd, hwhy.imp_right fun hbefore => ?_⟩
  obtain ⟨before, after, hsource, hin⟩ := hbefore.1
  have hsource : T.source.map (·.id) = before ++ y.parentId :: after := hsource
  have hn : (T.source.map (·.id)).Nodup := hP.source ▸ hT.macroIds
  rw [hsource] at hn ⊢
  have hout : y.parentId ∉ before := fun hmem =>
    List.disjoint_of_nodup_append hn hmem List.mem_cons_self
  rw [List.idxOf_append_of_mem hin, List.idxOf_append_of_notMem hout, List.idxOf_cons_self, Nat.add_zero]
  exact List.idxOf_lt_length_iff.mpr hin

/-- Of the entries of one macro-op none depends on itself but by waiting for others in a circle. -/
theorem no_circle_at (h : Unknotted (slots.map (·.1))) {m u : Id} : ¬ Relation.TransGen (fun a b => ∃ s ∈ slots.map (·.1),
    s.id = a ∧ s.parentId = m ∧ (WaitsWithin (slots.map (·.1)) a b ∨ Chained T (materialize T slots) a b)) u u := by
  intro hcircle
  by_cases hsynthetic : Synthetic T m
  · -- in a chain every entry waits for one that stands before it
    let place (u : Id) : ℕ := (((slots.map (·.1)).filter (·.parentId = m)).map (·.id)).idxOf u
    have hback : Relation.TransGen (fun a b : ℕ => b < a) (place u) (place u) := by
      refine Relation.TransGen.lift place (fun a d had => ?_) _ _ hcircle
      obtain ⟨s, hs, rfl, rfl, hedge⟩ := had
      have hchained := hedge.resolve_left fun hwaits => hE.synthetic_names hsynthetic hwaits hs rfl rfl
      exact idxOf_lt_of_adjacent (hE.distinct.sublist (List.filter_sublist.map _)) (hE.chained_at hs hchained).2
    rw [Relation.transGen_eq_self] at hback
    exact lt_irrefl _ hback
  · refine h u (Relation.TransGen.mono (fun a d had => ?_) _ _ hcircle)
    obtain ⟨s, hs, rfl, rfl, hedge⟩ := had
    exact hedge.resolve_right fun hchained => hsynthetic (hE.chained_at hs hchained).1

/-- **The scheduler-visible trace is acyclic just when no entries of a macro-op wait for each other
in a circle.** -/
theorem acyclic_iff (hT : WellFormed T) (hP : Provenance T) :
    Acyclic (materialize T slots) ↔ Unknotted (slots.map (·.1)) := by
  have hn : ((materialize T slots).uops.map (·.id)).Nodup := hE.uopIds hT ▸ hE.distinct
  constructor
  · intro h u hu
    refine h u (Relation.TransGen.mono (fun a d had => ?_) _ _ hu)
    obtain ⟨hnames, s, hs, -, -, rfl, -⟩ := had
    obtain ⟨e, he, rfl⟩ := List.mem_map.mp hs
    obtain ⟨y, hy, _, hcopies, -⟩ := hE.expands.uop_of_entry hT he
    exact ⟨y, hy, hcopies.id, ((hE.stands hT hy).dependencies d).mpr (.inl (hcopies.id ▸ hnames))⟩
  · intro h u hu
    obtain ⟨y, hy, rfl⟩ : ∃ y ∈ (materialize T slots).uops, y.id = u := by
      obtain ⟨d, ⟨y, hy, hid, -⟩, -⟩ := Relation.TransGen.head'_iff.mp hu
      exact ⟨y, hy, hid⟩
    -- a circle stays in one macro-op
    let place (p : Id) : ℕ := (T.source.map (·.id)).idxOf p
    let rank (u : Id) : ℕ := (((materialize T slots).uop? u).map fun x => place x.parentId).getD 0
    have hrank : ∀ {x}, x ∈ (materialize T slots).uops → rank x.id = place x.parentId := by
      intro x hx
      show (((materialize T slots).uop? x.id).map fun x => place x.parentId).getD 0 = _
      rw [uop?_of_mem hn hx]
      rfl
    have hcircle := Kahn.cycle_level rank (fun a d had => by
      obtain ⟨x, hx, z, hz, rfl, rfl, -, hparent⟩ := hE.depends_parent hT hP had
      rw [hrank hx, hrank hz]
      rcases hparent with hsame | hlt
      · rw [hsame]
      · exact hlt.le) hu
    have hplace : ∀ {x}, x ∈ (materialize T slots).uops → place x.parentId = place y.parentId → x.parentId = y.parentId := by
      intro x hx he
      obtain ⟨e, hexe, -, -, -, hparent⟩ := hE.expands.copies hT hx
      obtain ⟨m, hm, hm'd, -⟩ := hE.expands.parent e hexe
      refine (List.idxOf_inj ?_).mp he
      rw [hP.source, hparent, hm'd]
      exact List.mem_map_of_mem hm
    refine hE.no_circle_at h (m := y.parentId) (Relation.TransGen.mono (fun a d had => ?_) _ _ hcircle)
    obtain ⟨had, hau, hdu⟩ := had
    obtain ⟨x, hx, z, hz, rfl, rfl, hd, -⟩ := hE.depends_parent hT hP had
    have hxp := hplace hx ((hrank hx).symm.trans (hau.trans (hrank hy)))
    have hzp := hplace hz ((hrank hz).symm.trans (hdu.trans (hrank hy)))
    obtain ⟨s, hs, hsid, hsp⟩ := (hE.stands hT hx).parent
    obtain ⟨t, ht, htid, htp⟩ := (hE.stands hT hz).parent
    refine ⟨s, hs, hsid, hsp.trans hxp, ?_⟩
    refine (((hE.stands hT hx).dependencies _).mp hd).imp_left fun hnames => ⟨hnames, s, hs, t, ht, hsid, htid, ?_⟩
    rw [hsp, htp, hxp, hzp]

end Entries

/-- **What the expander makes of a trace of the binder**: its quotient by the entries, which is
acyclic, and accepted, but where entries of a macro-op wait for each other in a circle; then the
validation rejects it. -/
theorem expansion_quotient {B : Profile} {source : List Instruction} {slots : List (Slot × List Id)}
    (hbind : bind B source = .ok T) (hvalid : validateBoundTrace T = .ok ()) (h : expand T P = .ok slots) :
    IsQuotient T (materialize T slots) (slots.map (·.1)) ∧
      (Unknotted (slots.map (·.1)) →
        Acyclic (materialize T slots) ∧ validateBoundTrace (materialize T slots) = .ok ()) ∧
      (¬ Unknotted (slots.map (·.1)) →
        ¬ Acyclic (materialize T slots) ∧ validateBoundTrace (materialize T slots) = .error .cycle) := by
  have hT := wellFormed_of_valid hvalid
  have hP := bind_provenance hbind
  have hE := expand_entries hvalid hP (bind_execIds hbind) h
  have hfields := hE.fields hvalid
  have hparents := hE.partitions hT
  have hacyclic := hE.acyclic_iff hT hP
  obtain ⟨haccepted, hrejected⟩ := validate_acyclic hfields (hparents.owned hfields)
  refine ⟨⟨hE.uopIds hT, hE.distinct, fun x hx => ?_, fun s hs x hx => ?_, fun y hy => hE.stands hT hy,
    Entries.macro_ids, materialize_listed hT h, hparents⟩, fun hunknotted => ?_, fun hknotted => ?_⟩
  · obtain ⟨e, he, hxe, -⟩ := hE.expands.covered hT hx
    have heS : e.1 ∈ slots.map (·.1) := List.mem_map_of_mem he
    exact ⟨e.1, ⟨heS, hxe⟩, fun t ⟨ht, hxt⟩ =>
      entry_unique hE.single ht heS (List.mem_map_of_mem hxt) (List.mem_map_of_mem hxe)⟩
  · obtain ⟨e, he, rfl⟩ := List.mem_map.mp hs
    exact hE.expands.uops_own hT he hx
  · have := hacyclic.mpr hunknotted
    exact ⟨this, haccepted this⟩
  · have := mt hacyclic.mp hknotted
    exact ⟨this, hrejected this⟩

end Expander

namespace Sample

open Expander

/-- A profile that adds as it is told, and reduces in three macro-ops. -/
def addingBy (add : Recipe) : Profile := { groupProfile with
  recipes := [("vsetvli:any", uopOf .vectorControl), ("vfadd.vv:any", add),
    ("vfredmax.vs:any", { uopOf .vectorFp with decodedMacroOps := some 3 }), ("ret:any", uopOf .branch)] }

/-- A recipe uop of a part, after another. -/
def partUop (id : String) (part : ℕ) (dependsOn : List String) : RecipeUop where
  id := id
  kind := .vectorFp
  partIndex := some part
  dependsOn := dependsOn
  latencyCycles := some 1
  issueIntervalCycles := some 1
  resourceOccupancyCycles := some 1
  resourceChoices := []

/-- An addition in two parts, the first of which has a uop before the second and a uop after it. -/
def interleaved : Recipe where
  decodedMacroOps := some 1
  retireMacroOps := some 1
  decomposition := some ⟨some 2, some 1, true⟩
  uops := [partUop "a" 0 [], partUop "b" 1 ["a"], partUop "c" 0 ["b"]]

/-- The entries of a program. -/
def expansion (P : Profile) (p : Rvv.Program) : Option (List Instruction × BoundTrace × List (Slot × List Id)) := do
  let source ← (Rvv.buildDynamicTrace p 4 128).toOption
  let T ← (bind P source).toOption
  let slots ← (expand T P.toEngineProfile).toOption
  return (source, T, slots)

theorem expansion_some {P : Profile} {p : Rvv.Program} {r : List Instruction × BoundTrace × List (Slot × List Id)}
    (h : expansion P p = some r) : FrontendTrace r.1 ∧ bind P r.1 = .ok r.2.1 ∧ expand r.2.1 P.toEngineProfile = .ok r.2.2 := by
  obtain ⟨source, hsource, h⟩ := Option.bind_eq_some_iff.mp h
  obtain ⟨T, hT, h⟩ := Option.bind_eq_some_iff.mp h
  obtain ⟨slots, hslots, h⟩ := Option.bind_eq_some_iff.mp h
  cases h
  exact ⟨.inl ⟨_, _, _, toOption_ok.mp hsource⟩, toOption_ok.mp hT, toOption_ok.mp hslots⟩

end Sample

namespace Expander

theorem expansion_quotient_sample : ∃ source T slots, FrontendTrace source ∧
    bind (Sample.addingBy (Sample.uopOf .vectorFp)) source = .ok T ∧
    expand T (Sample.addingBy (Sample.uopOf .vectorFp)).toEngineProfile = .ok slots ∧
    slots.map (fun e => (e.1.uops.length, e.2)) =
      [(1, []), (1, [0]), (1, [0]), (0, []), (0, [7]), (1, [11, 0, 2]), (1, [])] ∧
    IsQuotient T (materialize T slots) (slots.map (·.1)) ∧ Acyclic (materialize T slots) ∧
    validateBoundTrace (materialize T slots) = .ok () := by
  have hrun : (Sample.expansion (Sample.addingBy (Sample.uopOf .vectorFp)) Sample.reducedSum).map (fun r =>
      (decide (validateBoundTrace r.2.1 = .ok ()), decide (validateBoundTrace (materialize r.2.1 r.2.2) = .ok ()),
        r.2.2.map fun e => (e.1.uops.length, e.2))) = some (true, true,
      [(1, []), (1, [0]), (1, [0]), (0, []), (0, [7]), (1, [11, 0, 2]), (1, [])]) := by decide +kernel
  obtain ⟨⟨source, T, slots⟩, hr, hvalues⟩ := Option.map_eq_some_iff.mp hrun
  simp only [Prod.mk.injEq, decide_eq_true_eq] at hvalues
  obtain ⟨hvalid, haccepted, hslots⟩ := hvalues
  obtain ⟨hfront, hT, hexpand⟩ := Sample.expansion_some hr
  obtain ⟨hquotient, hfree, hknotted⟩ := expansion_quotient hT hvalid hexpand
  have hunknotted : Unknotted (slots.map (·.1)) := by
    by_contra hno
    have := (hknotted hno).2
    rw [haccepted] at this
    cases this
  exact ⟨source, T, slots, hfront, hT, hexpand, hslots, hquotient, hfree hunknotted⟩

/-- Of an addition in two parts, the first of which has a uop before the second and a uop after it,
the two entries wait for each other: the validation rejects the scheduler-visible trace. -/
theorem interleaved_parts_rejected : ∃ source T slots, FrontendTrace source ∧
    bind (Sample.addingBy Sample.interleaved) source = .ok T ∧ validateBoundTrace T = .ok () ∧
    expand T (Sample.addingBy Sample.interleaved).toEngineProfile = .ok slots ∧
    ¬ Acyclic (materialize T slots) ∧ validateBoundTrace (materialize T slots) = .error .cycle := by
  have hrun : (Sample.expansion (Sample.addingBy Sample.interleaved) Sample.addedTwice).map (fun r =>
      (decide (validateBoundTrace r.2.1 = .ok ()), errorOf (validateBoundTrace (materialize r.2.1 r.2.2)),
        (materialize r.2.1 r.2.2).uops.map fun x => (x.id, x.dependencies))) = some (true, some .cycle,
      [(0, []), (17, [5, 0]), (5, [17, 0]), (18, [8, 0, 17]), (8, [18, 0, 17]), (12, [])]) := by decide +kernel
  obtain ⟨⟨source, T, slots⟩, hr, hvalues⟩ := Option.map_eq_some_iff.mp hrun
  simp only [Prod.mk.injEq, decide_eq_true_eq] at hvalues
  obtain ⟨hvalid, hrejected, huops⟩ := hvalues
  obtain ⟨hfront, hT, hexpand⟩ := Sample.expansion_some hr
  refine ⟨source, T, slots, hfront, hT, hvalid, hexpand, fun hacyclic => ?_, errorOf_eq.mp hrejected⟩
  have hdepends : ∀ u d ds, (u, ds) ∈ [(0, []), (17, [5, 0]), (5, [17, 0]), (18, [8, 0, 17]), (8, [18, 0, 17]), (12, [])] →
      d ∈ ds → Depends (materialize T slots) u d := by
    intro u d ds hu hd
    rw [← huops] at hu
    obtain ⟨x, hx, he⟩ := List.mem_map.mp hu
    obtain ⟨rfl, rfl⟩ := Prod.mk.inj he
    exact ⟨x, hx, rfl, hd⟩
  exact hacyclic 17 (.tail (.single (hdepends 17 5 [5, 0] (by simp) (by simp))) (hdepends 5 17 [17, 0] (by simp) (by simp)))

end Expander
end VectorSim
