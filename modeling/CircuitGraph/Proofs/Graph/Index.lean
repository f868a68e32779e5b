import CircuitGraph.Graph.Copy
import CircuitGraph.Proofs.Graph.Change

/-
  Wires by the places at their ends.

  The two tables of an index are written one after the other,
  by every edit of a wire.  An index lists some wires if each
  table gives back for every place what is found by going
  through all of the wires.

  Main declarations:
    * WireIndex.Lists: an index lists the given wires,
    * Lists.enter, Lists.delete, Lists.copy: what an edit of
      a wire and a copy do to the wires that are listed, and
    * Sound.indexed_of_changes: changes of a sound graph keep
      its index in step with its wires.
-/

---- Tables ----

namespace CircuitGraph

open List

section

variable {κ α : Type} [BEq κ] [LawfulBEq κ] {entries : List (κ × α)} {k : κ} {a : α}

theorem lookup_map_putAt
    (j : κ) :
    (entries.map (fun entry => if entry.1 == k then (k, a) else entry)).lookup j =
      if j == k then (entries.lookup k).map (fun _ => a) else entries.lookup j := by
  induction entries with
  | nil => simp
  | cons entry entries ih =>
    rcases entry with ⟨i, b⟩
    rw [map_cons, lookup_cons, lookup_cons, ih]
    by_cases hHere : i = k
    · subst hHere
      by_cases hKey : j = i
      · simp [hKey]
      · simp [beq_eq_false_iff_ne.mpr hKey, lookup_cons]
    · by_cases hKey : j = k
      · subst hKey
        simp [hHere, beq_eq_false_iff_ne.mpr (Ne.symm hHere)]
      · simp [hHere, hKey, lookup_cons]

theorem lookup_putAt
    (j : κ) :
    (putAt k a entries).lookup j = if j == k then some a else entries.lookup j := by
  unfold putAt
  split
  · rename_i hThere
    rcases Option.isSome_iff_exists.mp hThere with ⟨b, hOld⟩
    rw [lookup_map_putAt, hOld]
    rfl
  · rename_i hAbsent
    have hNone : entries.lookup k = none := Option.not_isSome_iff_eq_none.mp hAbsent
    rw [lookup_append]
    by_cases hKey : j = k
    · simp [hKey, hNone]
    · simp [beq_eq_false_iff_ne.mpr hKey, lookup_cons]

theorem lookup_dropAt
    (j : κ) :
    (dropAt k entries).lookup j = if j == k then none else entries.lookup j := by
  induction entries with
  | nil => simp [dropAt]
  | cons entry entries ih =>
    rcases entry with ⟨i, b⟩
    unfold dropAt at ih ⊢
    by_cases hHere : i = k
    · subst hHere
      rw [filter_cons_of_neg (by simp), ih]
      by_cases hKey : j = i
      · simp [hKey]
      · simp [beq_eq_false_iff_ne.mpr hKey, lookup_cons]
    · rw [filter_cons_of_pos (by simpa using hHere), lookup_cons, ih, lookup_cons]
      by_cases hKey : j = k
      · subst hKey
        simp [beq_eq_false_iff_ne.mpr (Ne.symm hHere)]
      · simp [hKey]

theorem nodup_keys_putAt
    (hKeys : (entries.map Prod.fst).Nodup) :
    ((putAt k a entries).map Prod.fst).Nodup := by
  unfold putAt
  split
  · have hSame : (entries.map (fun entry => if entry.1 == k then (k, a) else entry)).map Prod.fst =
        entries.map Prod.fst := by
      rw [map_map]
      refine map_congr_left (fun entry _ => ?_)
      by_cases hKey : entry.1 = k <;> simp [hKey]
    rwa [hSame]
  · rename_i hAbsent
    rw [map_append, nodup_append]
    refine ⟨hKeys, by simp, fun i hOld j hNew hEq => hAbsent ?_⟩
    rcases mem_map.mp hOld with ⟨entry, hM, rfl⟩
    rw [map_singleton, mem_singleton] at hNew
    exact lookup_isSome_iff.mpr ⟨entry, hM, by simp [hEq, hNew]⟩

omit [LawfulBEq κ] in
theorem nodup_keys_dropAt
    (hKeys : (entries.map Prod.fst).Nodup) :
    ((dropAt k entries).map Prod.fst).Nodup :=
  hKeys.sublist ((filter_sublist ..).map _)

theorem mem_iff_lookup
    (hKeys : (entries.map Prod.fst).Nodup) :
    (k, a) ∈ entries ↔ entries.lookup k = some a := by
  induction entries with
  | nil => simp
  | cons entry entries ih =>
    rcases entry with ⟨i, b⟩
    rw [map_cons, nodup_cons] at hKeys
    rw [mem_cons, lookup_cons, Prod.mk.injEq]
    by_cases hKey : k = i
    · subst hKey
      have hRest : (k, a) ∉ entries := fun hM => hKeys.1 (mem_map.mpr ⟨_, hM, rfl⟩)
      simp [hRest, eq_comm]
    · simp [hKey, ih hKeys.2, beq_eq_false_iff_ne.mpr hKey]

theorem filter_flatMap_entries
    {entries : List (κ × List α)}
    (hKeys : (entries.map Prod.fst).Nodup)
    {key : α → κ}
    (hKeyed : ∀ entry ∈ entries, ∀ a ∈ entry.2, key a = entry.1) :
    (entries.flatMap Prod.snd).filter (fun a => key a == k) = (entries.lookup k).getD [] := by
  induction entries with
  | nil => rfl
  | cons entry entries ih =>
    rcases entry with ⟨i, as⟩
    rw [map_cons, nodup_cons] at hKeys
    rw [forall_mem_cons] at hKeyed
    rw [flatMap_cons, filter_append, ih hKeys.2 hKeyed.2, lookup_cons]
    by_cases hKey : k = i
    · subst hKey
      have hRest : entries.lookup k = none := by
        refine lookup_eq_none_iff.mpr (fun entry hM => ?_)
        refine bne_iff_ne.mpr (fun hEq => hKeys.1 ?_)
        exact mem_map.mpr ⟨entry, hM, hEq.symm⟩
      rw [filter_eq_self.mpr (fun a hM => beq_iff_eq.mpr (hKeyed.1 a hM)), hRest]
      simp
    · rw [filter_eq_nil_iff.mpr (fun a hM => by simpa [hKeyed.1 a hM] using Ne.symm hKey)]
      simp [beq_eq_false_iff_ne.mpr hKey]

end

---- Wires that an Index Lists ----

namespace WireIndex

/- What a table holds for a place that the given wires leave. -/
def listed? (ws : List Wire) : Option (List Wire) :=
  if ws.isEmpty then none else some ws

theorem getD_listed?
    (ws : List Wire) :
    (listed? ws).getD [] = ws := by
  cases ws <;> rfl

structure Lists (index : WireIndex) (ws : List Wire) : Prop where
  intoKeys : (index.into.map Prod.fst).Nodup
  outKeys : (index.outOf.map Prod.fst).Nodup
  into : ∀ place, index.into.lookup place = ws.find? (fun w => w.dst.place == place)
  outOf : ∀ place, index.outOf.lookup place =
    listed? (ws.filter (fun w => w.src.place == place))

theorem lists_empty : empty.Lists [] :=
  ⟨nodup_nil, nodup_nil, fun _ => rfl, fun _ => rfl⟩

theorem lookup_delete
    (index : WireIndex)
    (w : Wire)
    (place : Nat × Nat) :
    (index.delete w).outOf.lookup place =
      if place == w.src.place then listed? ((index.leaving w.src.place).erase w)
      else index.outOf.lookup place := by
  unfold delete
  dsimp only
  split
  · rename_i hLast
    rw [lookup_dropAt, hLast]
    rfl
  · rename_i hMore
    rw [lookup_putAt, listed?, if_neg (fun hNone => hMore (isEmpty_iff.mp hNone))]

namespace Lists

variable {index : WireIndex} {ws : List Wire} {w : Wire}

theorem leaving
    (hLists : index.Lists ws)
    (place : Nat × Nat) :
    index.leaving place = ws.filter (fun w => w.src.place == place) := by
  rw [WireIndex.leaving, hLists.outOf, getD_listed?]

theorem enter
    (hLists : index.Lists ws)
    (hFree : ∀ v ∈ ws, v.dst.place ≠ w.dst.place) :
    (index.enter w).Lists (ws ++ [w]) where
  intoKeys := nodup_keys_putAt hLists.intoKeys
  outKeys := nodup_keys_putAt hLists.outKeys
  into place := by
    rw [WireIndex.enter, lookup_putAt, hLists.into, find?_append]
    by_cases hPlace : place = w.dst.place
    · subst hPlace
      have hNone : ws.find? (fun v => v.dst.place == w.dst.place) = none :=
        find?_eq_none.mpr (fun v hM => by simpa using hFree v hM)
      simp [hNone]
    · simp [hPlace, Ne.symm hPlace]
  outOf place := by
    rw [WireIndex.enter, lookup_putAt, hLists.outOf, hLists.leaving, filter_append]
    by_cases hPlace : place = w.src.place
    · simp [hPlace, listed?]
    · simp [hPlace, Ne.symm hPlace]

theorem delete
    (hLists : index.Lists ws)
    (hPlaces : (ws.map (fun w => w.dst.place)).Nodup)
    (hM : w ∈ ws) :
    (index.delete w).Lists (ws.erase w) where
  intoKeys := nodup_keys_dropAt hLists.intoKeys
  outKeys := by
    unfold WireIndex.delete
    dsimp only
    split
    · exact nodup_keys_dropAt hLists.outKeys
    · exact nodup_keys_putAt hLists.outKeys
  into place := by
    have hLess := hPlaces.sublist ((erase_sublist (a := w)).map _)
    refine Option.ext (fun v => ?_)
    rw [WireIndex.delete, lookup_dropAt, find?_key_eq_some_iff hLess,
      (Nodup.of_map _ hPlaces).mem_erase_iff, hLists.into]
    by_cases hPlace : place = w.dst.place
    · simp only [hPlace, beq_self_eq_true, if_true, reduceCtorEq, false_iff]
      exact fun hThere => hThere.1.1 (eq_of_key_eq hPlaces hThere.1.2 hM hThere.2)
    · rw [if_neg (by simpa using hPlace), find?_key_eq_some_iff hPlaces]
      refine ⟨fun hThere => ⟨⟨?_, hThere.1⟩, hThere.2⟩, fun hThere => ⟨hThere.1.2, hThere.2⟩⟩
      rintro rfl
      exact hPlace hThere.2.symm
  outOf place := by
    rw [lookup_delete, hLists.outOf, hLists.leaving, ← erase_filter]
    split
    · rename_i hPlace
      rw [beq_iff_eq.mp hPlace]
    · rename_i hPlace
      have hElse : w ∉ ws.filter (fun v => v.src.place == place) :=
        fun hFrom => hPlace (beq_iff_eq.mpr (beq_iff_eq.mp (mem_filter.mp hFrom).2).symm)
      rw [erase_of_not_mem hElse]

theorem of_wires
    (hPlaces : (ws.map (fun w => w.dst.place)).Nodup) :
    (ofWires ws).Lists ws := by
  induction ws using List.reverseRecOn with
  | nil => exact lists_empty
  | append_singleton ws w ih =>
    rw [map_append, nodup_append] at hPlaces
    rw [ofWires, foldl_append]
    refine (ih hPlaces.1).enter (fun v hM => ?_)
    exact hPlaces.2.2 _ (mem_map_of_mem hM) _ (by simp)

section

variable (hLists : index.Lists ws)

include hLists

theorem src_place
    {entry : (Nat × Nat) × List Wire}
    (hEntry : entry ∈ index.outOf) :
    entry.2 = ws.filter (fun w => w.src.place == entry.1) ∧ entry.2 ≠ [] := by
  have hFound := (mem_iff_lookup hLists.outKeys).mp hEntry
  rw [hLists.outOf, listed?] at hFound
  split at hFound
  · cases hFound
  · rename_i hSome
    rw [← Option.some.inj hFound]
    exact ⟨rfl, fun hNone => hSome (isEmpty_iff.mpr hNone)⟩

theorem filter_outOf
    (place : Nat × Nat) :
    (index.outOf.flatMap Prod.snd).filter (fun w => w.src.place == place) =
      ws.filter (fun w => w.src.place == place) := by
  rw [filter_flatMap_entries hLists.outKeys (fun entry hEntry w hM => ?_), hLists.outOf, getD_listed?]
  rw [(hLists.src_place hEntry).1] at hM
  exact beq_iff_eq.mp (mem_filter.mp hM).2

theorem perm_outOf : (index.outOf.flatMap Prod.snd).Perm ws := by
  refine perm_iff_count.mpr (fun w => ?_)
  have hCount : ∀ vs : List Wire, (vs.filter (fun v => v.src.place == w.src.place)).count w =
      vs.count w := fun vs => count_filter (beq_self_eq_true w.src.place)
  rw [← hCount, hLists.filter_outOf, hCount]

variable (hPlaces : (ws.map (fun w => w.dst.place)).Nodup)

include hPlaces

theorem mem_into_iff
    {place : Nat × Nat} :
    (place, w) ∈ index.into ↔ w ∈ ws ∧ w.dst.place = place := by
  rw [mem_iff_lookup hLists.intoKeys, hLists.into, find?_key_eq_some_iff hPlaces]

theorem perm_into : (index.into.map Prod.snd).Perm ws := by
  have hNodup : (index.into.map Prod.snd).Nodup := by
    refine Nodup.map_on (fun a hA b hB hEq => Prod.ext ?_ hEq) (.of_map _ hLists.intoKeys)
    -- a wire enters one place only
    rw [← ((hLists.mem_into_iff hPlaces).mp hA).2, ← ((hLists.mem_into_iff hPlaces).mp hB).2, hEq]
  refine (perm_ext_iff_of_nodup hNodup (.of_map _ hPlaces)).mpr (fun w => ?_)
  rw [mem_map]
  constructor
  · rintro ⟨entry, hEntry, rfl⟩
    exact ((hLists.mem_into_iff hPlaces).mp hEntry).1
  · intro hM
    exact ⟨(w.dst.place, w), (hLists.mem_into_iff hPlaces).mpr ⟨hM, rfl⟩, rfl⟩

theorem copy : index.copy.Lists ws := by
  have hPerm := hLists.perm_outOf
  have hSame : (index.outOf.flatMap Prod.snd).map (fun w => w.dst.place) |>.Nodup :=
    (hPerm.map _).nodup_iff.mpr hPlaces
  have hAll := of_wires hSame
  refine ⟨hAll.intoKeys, hAll.outKeys, fun place => ?_, fun place => ?_⟩
  · refine Option.ext (fun w => ?_)
    rw [WireIndex.copy, hAll.into, find?_key_eq_some_iff hSame, find?_key_eq_some_iff hPlaces,
      hPerm.mem_iff]
  · rw [WireIndex.copy, hAll.outOf, hLists.filter_outOf]

end

end Lists

end WireIndex

---- Graphs with an Index ----

namespace Graph

variable {K : Type} {g g' : Graph K}

def Indexed (g : Graph K) : Prop :=
  g.index.Lists g.wires

theorem Sound.indexed_copy
    (hS : g.Sound)
    (hIndex : g.Indexed) :
    g.copy.Indexed := by
  rw [Graph.copy, fold_eq]
  exact WireIndex.Lists.copy hIndex hS.single

variable [Scalar K] {P : Graph K → Prop}

theorem Sound.indexed_of_change
    (hS : g.Sound)
    (hIndex : g.Indexed)
    (hChange : Change P g g') :
    g'.Indexed := by
  cases hChange with
  | insertWire hOut hIn hFree hLin =>
    unfold insertWire
    split
    · exact WireIndex.Lists.enter hIndex hFree
    · exact WireIndex.Lists.enter hIndex hFree
  | eraseWire hM => exact WireIndex.Lists.delete hIndex hS.single hM
  | rerank =>
    rcases unchanged_topologicalRanks g with ⟨hA, -, hSame⟩
    rw [Indexed, hSame, hA.wires]
    exact hIndex
  | _ => exact hIndex

theorem Sound.indexed_of_changes
    (hS : g.Sound)
    (hIndex : g.Indexed)
    (hChanges : Relation.ReflTransGen (Change P) g g') :
    g'.Sound ∧ g'.Indexed := by
  induction hChanges with
  | refl => exact ⟨hS, hIndex⟩
  | tail _ hChange ih => exact ⟨ih.1.of_change hChange, ih.1.indexed_of_change ih.2 hChange⟩

end Graph

end CircuitGraph
