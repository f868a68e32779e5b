import CircuitGraph.Proofs.Substitution.Success
import Mathlib.Data.List.Sort

/-
  Complete lists of matches.

  A list of all matches in their order is determined by the
  graph, but for the spelling of numbers.
-/

---- Plain Matches ----

namespace CircuitGraph

open List

def Pin.plain (p : Pin) : Pin :=
  .of p.node p.index

namespace Match

def plain (m : Match) : Match where
  rule := m.rule
  root := .number m.root.toNat
  nodes := m.ids.map .number
  inputs := m.inputs.map (fun pins => pins.map Pin.plain)
  outputs := m.outputs.map Pin.plain

@[simp] theorem rule_plain (m : Match) : m.plain.rule = m.rule :=
  rfl

@[simp] theorem toNat_root_plain (m : Match) : m.plain.root.toNat = m.root.toNat :=
  rfl

@[simp] theorem ids_plain (m : Match) : m.plain.ids = m.ids := by
  simp [ids, plain, Function.comp_def, Slot.toNat]

@[simp] theorem places_plain (m : Match) : m.plain.places = m.places := by
  have hPlaces : ∀ pins : List Pin, (pins.map Pin.plain).map Pin.place = pins.map Pin.place := by
    intro pins
    rw [map_map]
    rfl
  simp only [places, plain, map_map, Function.comp_def, hPlaces]

theorem plain_eq {m m' : Match} (hRule : m.rule = m'.rule) (hRoot : m.root.toNat = m'.root.toNat)
    (hIds : m.ids = m'.ids) (hPlaces : m.places = m'.places) : m.plain = m'.plain := by
  have hPlain : ∀ pins : List Pin,
      pins.map Pin.plain = (pins.map Pin.place).map (fun place => .of place.1 place.2) := by
    intro pins
    rw [map_map]
    rfl
  have hInputs := congrArg Prod.fst hPlaces
  have hOuts := congrArg Prod.snd hPlaces
  simp only [places] at hInputs hOuts
  have hAll : ∀ lists : List (List Pin), lists.map (fun pins => pins.map Pin.plain) =
      (lists.map (fun pins => pins.map Pin.place)).map (fun places =>
        places.map (fun place => .of place.1 place.2)) := by
    intro lists
    rw [map_map]
    exact map_congr_left (fun pins _ => hPlain pins)
  rw [plain, plain, hRule, hRoot, hIds, hAll, hAll, hPlain, hPlain, hInputs, hOuts]

end Match

---- Lists ----

namespace RuleSet

variable {K : Type}

/- Whether a list holds all matches of a graph, in their order. -/
structure Lists (rs : RuleSet K) (g : Graph K) (ms : List Match) : Prop where
  sorted : ms.Pairwise (fun m m' => rs.searchKey m < rs.searchKey m')
  found : ∀ m ∈ ms, ∃ rule f, rs.Finds g m rule f
  complete : ∀ i rule f, rs.rules[i]? = some rule → rule.pattern.Occurs g f →
    g.Convex (rule.pattern.InImage f) → ∃ m ∈ ms, m.rule = i ∧ rs.Finds g m rule f

variable {rs : RuleSet K} {g g' : Graph K} {ms ms' : List Match} {m m' : Match} {rule : Rule K}
  {f : Nat → Nat}

theorem Compiled.lists (hC : rs.Compiled) (hS : g.Sound) :
    rs.Lists g ((rs.anchors g none).flatMap (rs.matchesOf g)) := by
  constructor
  · exact hC.flatMap_matchesOf_pairwise hS (anchors_pairwise rs g)
  · intro m hM
    rcases mem_flatMap.mp hM with ⟨anchor, -, hM⟩
    exact (hC.finds_of_mem hS hM).2.2
  · intro i rule f hRule hOcc hConv
    exact hC.exists_mem_found hS hRule hOcc hConv

theorem Names.plain_eq (hNames : rs.Names m rule f) (hNames' : rs.Names m' rule f)
    (hRule : m.rule = m'.rule) : m.plain = m'.plain := by
  rcases hNames.nodes with ⟨p, hPat, hIds⟩
  rcases hNames'.nodes with ⟨p', hPat', hIds'⟩
  rw [← hRule, hPat, Option.some.injEq] at hPat'
  have hSame : m.ids = m'.ids := by
    rw [hIds, hIds', hPat']
  have hRoot := hNames.root
  rw [hSame, hNames'.root, Option.some.injEq] at hRoot
  exact Match.plain_eq hRule hRoot.symm hSame (hNames.places.trans hNames'.places.symm)

@[simp] theorem searchKey_plain (rs : RuleSet K) (m : Match) :
    rs.searchKey m.plain = rs.searchKey m := by
  rw [searchKey, searchKey, Match.ids_plain, Match.rule_plain, Match.toNat_root_plain]

namespace Lists

theorem of_resembles (hLists : rs.Lists g ms) (hSame : g.Resembles g') : rs.Lists g' ms := by
  have hBack : g'.Resembles g := hSame.symm
  refine ⟨hLists.sorted, fun m hM => ?_, fun i rule f hRule hOcc hConv => ?_⟩
  · rcases hLists.found m hM with ⟨rule, f, hFinds⟩
    exact ⟨rule, f, hFinds.of_resembles hSame⟩
  · rcases hLists.complete i rule f hRule (hBack.occurs hOcc) (hBack.convex_iff.mpr hConv) with
      ⟨m, hM, hIndex, hFinds⟩
    exact ⟨m, hM, hIndex, hFinds.of_resembles hSame⟩

theorem exists_plain_eq (hLists : rs.Lists g ms) (hFinds : rs.Finds g m rule f) :
    ∃ m' ∈ ms, rs.Finds g m' rule f ∧ m'.plain = m.plain := by
  rcases hLists.complete m.rule rule f hFinds.member hFinds.occurs hFinds.convex with
    ⟨m', hM, hRule, hFinds'⟩
  exact ⟨m', hM, hFinds', hFinds'.toNames.plain_eq hFinds.toNames hRule⟩

theorem map_plain_eq (hLists : rs.Lists g ms) (hLists' : rs.Lists g ms') :
    ms.map Match.plain = ms'.map Match.plain := by
  have hSort : ∀ {ms : List Match}, rs.Lists g ms →
      (ms.map Match.plain).Pairwise (fun m m' => rs.searchKey m < rs.searchKey m') := by
    intro ms hLists
    rw [pairwise_map]
    simpa using hLists.sorted
  have hSub : ∀ {ms ms' : List Match}, rs.Lists g ms → rs.Lists g ms' →
      ∀ m, m ∈ ms.map Match.plain → m ∈ ms'.map Match.plain := by
    intro ms ms' hLists hLists' m hM
    rcases mem_map.mp hM with ⟨k, hK, rfl⟩
    rcases hLists.found k hK with ⟨rule, f, hFinds⟩
    rcases hLists'.exists_plain_eq hFinds with ⟨m', hM', -, hPlain⟩
    exact mem_map.mpr ⟨m', hM', hPlain⟩
  have : Std.Irrefl (fun m m' : Match => rs.searchKey m < rs.searchKey m') :=
    ⟨fun m => List.lt_irrefl _⟩
  have : Std.Antisymm (fun m m' : Match => rs.searchKey m < rs.searchKey m') :=
    ⟨fun m m' hL hR => absurd hL (List.lt_asymm hR)⟩
  exact (hSort hLists).eq_of_mem_iff (hSort hLists')
    (fun m => ⟨hSub hLists hLists' m, hSub hLists' hLists m⟩)

end Lists

end RuleSet

end CircuitGraph
