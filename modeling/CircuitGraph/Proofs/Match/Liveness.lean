import Mathlib
import CircuitGraph.Proofs.Match.Finding

/-
  Which matches are live.

  Whether a match that was found once is live can always be
  told, and it is live exactly if it is a match of the graph
  as it is now.

  Main declarations:
    * `isLive_iff_found`
-/

---- Tracing Again ----

namespace CircuitGraph

open List

variable {p : Pattern} {ms : List Match}

namespace Pattern

variable {K : Type} {g : Graph K} {nodes : List Slot}

theorem exists_retraces {binding : List Slot} {cs : List Constraint}
    (hRoot : ∀ c ∈ cs, c.isRoot = false) (hBound : boundAfter binding.length cs ≤ nodes.length) :
    ∃ traced, retraces g nodes binding cs = .ok traced := by
  induction cs generalizing binding with
  | nil => exact ⟨true, rfl⟩
  | cons c cs ih =>
    have hRest : ∀ c ∈ cs, c.isRoot = false := fun d hM => hRoot d (mem_cons_of_mem _ hM)
    rw [boundAfter_cons] at hBound
    cases c with
    | root kind params => simp [Constraint.isRoot] at hRoot
    | link var side index other target =>
      rw [retraces]
      by_cases hMet : ((Constraint.link var side index other target).advance g binding).isEmpty = true
      · exact ⟨false, by simp only [hMet, if_true]⟩
      · simp only [hMet]
        exact ih hRest hBound
    | follow var side index target kind params =>
      have hLt : binding.length < nodes.length := (le_boundAfter (binding.length + 1) cs).trans hBound
      rw [retraces]
      simp only [getElem?_eq_getElem hLt]
      split
      · rename_i fault hFault
        simp at hFault
      · exact ⟨false, rfl⟩
      · rename_i binding' hExt
        split at hExt
        · obtain rfl := Option.some.inj (Except.ok.inj hExt)
          exact ih hRest (by simpa [Constraint.bound] using hBound)
        · simp at hExt

theorem Describes.exists_retraces {pattern : Graph K} (hDesc : p.Describes pattern)
    (hLen : p.nodes.length ≤ nodes.length) (g : Graph K) :
    ∃ traced, retraces g nodes [] p.constraints = .ok traced := by
  rcases hDesc.root with ⟨kind, params, rest, hCons, hRest⟩
  have hBound := hDesc.bound
  rw [hCons, boundAfter_cons] at hBound
  change boundAfter 1 rest = p.nodes.length at hBound
  have hPos : 0 < nodes.length := (le_boundAfter 1 rest).trans (hBound ▸ hLen)
  rw [hCons, retraces]
  simp only [length_nil, getElem?_eq_getElem hPos]
  by_cases hFits : Constraint.fits g kind params nodes[0].toNat = true
  · simp only [hFits, if_true]
    exact Pattern.exists_retraces hRest (by simpa [hBound] using hLen)
  · exact ⟨false, by simp only [hFits]; rfl⟩

end Pattern

---- Live Matches ----

namespace RuleSet

variable {K : Type} {rs : RuleSet K} {g : Graph K} {m : Match} {rule : Rule K} {f : Nat → Nat}

theorem Names.exists_pattern (hNames : rs.Names m rule f) (hC : rs.Compiled) :
    ∃ p, rs.patterns[m.rule]? = some p ∧ rule.Usable ∧ p.Describes rule.pattern ∧
      idsOf m.nodes = p.nodes.map f := by
  rcases hNames.nodes with ⟨p, hPat, hIds⟩
  rcases hC.getElem? hNames.member with ⟨q, hQ, hUse, hDesc⟩
  obtain rfl := eq_of_some hPat hQ
  exact ⟨p, hPat, hUse, hDesc, hIds⟩

section

variable (hFinds : rs.Finds g m rule f) (hC : rs.Compiled)

include hFinds hC

theorem Finds.hasNodes : m.ids.all g.hasNode = true := by
  rcases hFinds.exists_pattern hC with ⟨p, -, -, hDesc, hIds⟩
  rw [all_eq_true, show m.ids = p.nodes.map f from hIds]
  intro n hM
  rcases mem_map.mp hM with ⟨v, hV, rfl⟩
  exact Graph.hasNode_iff.mpr (Graph.mem_nodeIds_iff.mpr
    (.inr (.inr (hFinds.occurs.operation v (hDesc.mem_nodes_iff.mp hV)))))

theorem Finds.satisfied (hS : g.Sound) (hPat : rs.patterns[m.rule]? = some p) :
    Satisfies g (p.nodes.map f) 1 p.constraints := by
  rcases hFinds.exists_pattern hC with ⟨q, hQ, hUse, hDesc, -⟩
  obtain rfl := eq_of_some hPat hQ
  exact ((hDesc.occurs_iff hUse.pattern.sound hUse.isPattern hS).mp hFinds.occurs).1

end

variable [Scalar K]

theorem yields_isLive_of_untraced (hThere : m.ids.all g.hasNode = true)
    (hPat : rs.patterns[m.rule]? = some p)
    (hTr : Pattern.retraces g m.nodes [] p.constraints = .ok false) :
    Yields (rs.isLive m) g false g := by
  refine .bind rfl ?_
  rw [if_neg (by simp [hThere])]
  exact .bind (.ofExcept (pattern_eq_ok_iff.mpr hPat)) (.bind (.ofExcept hTr) rfl)

theorem yields_isLive_of_traced (hThere : m.ids.all g.hasNode = true)
    (hPat : rs.patterns[m.rule]? = some p)
    (hTr : Pattern.retraces g m.nodes [] p.constraints = .ok true) {found : Option Match}
    {g' : Graph K} (hCom : Yields (p.complete m.rule m.root m.nodes) g found g') :
    Yields (rs.isLive m) g (found.any m.same) g' := by
  refine .bind rfl ?_
  rw [if_neg (by simp [hThere])]
  exact .bind (.ofExcept (pattern_eq_ok_iff.mpr hPat)) (.bind (.ofExcept hTr) (yields_bind_iff.mpr
        ⟨found, g', hCom, rfl⟩))

variable [Scalar.Ordered K]

theorem Compiled.yields_isLive (hC : rs.Compiled) (hSea : g.Searchable)
    (hNames : rs.Names m rule f) :
    ∃ live g', Yields (rs.isLive m) g live g' ∧ (live = true ↔ rs.Finds g m rule f) := by
  rcases hNames.exists_pattern hC with ⟨p, hPat, hUse, hDesc, hIds⟩
  have hS := hSea.sound
  have hLen : p.nodes.length = m.nodes.length := by
    simpa [idsOf] using (congrArg List.length hIds).symm
  by_cases hThere : m.ids.all g.hasNode = true
  · rcases hDesc.exists_retraces hLen.le g with ⟨traced, hTr⟩
    cases traced with
    | false =>
      refine ⟨false, g, yields_isLive_of_untraced hThere hPat hTr, by simp, fun hFinds => ?_⟩
      have hAgain := (hDesc.retraces_iff hS).mpr ⟨hLen.le, hIds ▸ hFinds.satisfied hC hS hPat⟩
      simp [hTr] at hAgain
    | true =>
      have hBinds : rs.Binds g m.rule m.nodes p rule f :=
        ⟨hPat, hNames.member, hUse, hDesc, hIds, hIds ▸ ((hDesc.retraces_iff hS).mp hTr).2⟩
      rcases hBinds.yields_complete hSea m.root with ⟨g', hCom⟩
      rcases hBinds.candidate_spec hS m.root with ⟨hMeans, hMatch⟩
      refine ⟨_, g', yields_isLive_of_traced hThere hPat hTr hCom, ?_⟩
      have hSame : ∀ m', rs.candidate g m.root (m.rule, m.nodes) = some m' → m.same m' = true := by
        intro m' hSome
        rcases hMatch m' hSome with ⟨hRule, hRoot, hNodes, hPlaces⟩
        simp [Match.same, Match.ids, hRule, hRoot, hNodes, hPlaces, hNames.places]
      constructor
      · intro hLive
        rcases Option.any_eq_true _ _ |>.mp hLive with ⟨m', hSome, -⟩
        rcases hMeans.mp (Option.isSome_of_eq_some hSome) with ⟨hOcc, hConv⟩
        exact ⟨hNames, hOcc, hConv⟩
      · intro hFinds
        rcases Option.isSome_iff_exists.mp (hMeans.mpr ⟨hFinds.occurs, hFinds.convex⟩) with
          ⟨m', hSome⟩
        exact Option.any_eq_true _ _ |>.mpr ⟨m', hSome, hSame m' hSome⟩
  · refine ⟨false, g, ?_, by simp, fun hFinds => absurd (hFinds.hasNodes hC) hThere⟩
    refine .bind rfl ?_
    rw [if_pos (by simpa using hThere)]
    exact rfl

end RuleSet

---- Live Matches Are Found ----

theorem Match.same_iff {m m' : Match} : m.same m' = true ↔
      m.rule = m'.rule ∧ m.root.toNat = m'.root.toNat ∧ m.ids = m'.ids ∧ m.places = m'.places := by
  simp only [Match.same, Bool.and_eq_true, beq_iff_eq, and_assoc]

namespace RuleSet

variable {K : Type} {rs : RuleSet K} {g g' : Graph K} {m m' : Match} {rule : Rule K} {f : Nat → Nat}

theorem Names.of_same (hNames : rs.Names m' rule f) (hSame : m.same m' = true) :
    rs.Names m rule f := by
  rcases Match.same_iff.mp hSame with ⟨hRule, hRoot, hIds, hPlaces⟩
  refine ⟨hRule ▸ hNames.member, ?_, ?_, hPlaces.trans hNames.places⟩
  · rw [hRule, hIds]
    exact hNames.nodes
  · rw [hIds, hRoot]
    exact hNames.root

theorem Names.same (hNames : rs.Names m rule f) (hNames' : rs.Names m' rule f)
    (hRule : m.rule = m'.rule) : m.same m' = true := by
  rcases hNames.nodes with ⟨p, hPat, hIds⟩
  rcases hNames'.nodes with ⟨p', hPat', hIds'⟩
  rw [hRule, hPat'] at hPat
  obtain rfl := Option.some.inj hPat
  have hBoth : m.ids = m'.ids := hIds.trans hIds'.symm
  refine Match.same_iff.mpr ⟨hRule, ?_, hBoth, hNames.places.trans hNames'.places.symm⟩
  have hHead := hNames.root
  rw [hBoth, hNames'.root] at hHead
  exact (Option.some.inj hHead).symm

theorem Compiled.exists_same_iff_finds (hC : rs.Compiled) (hS : g.Sound) :
    (∃ m' ∈ (rs.anchors g none).flatMap (rs.matchesOf g), m.same m' = true) ↔
      ∃ rule f, rs.Finds g m rule f := by
  constructor
  · rintro ⟨m', hM, hSame⟩
    rcases mem_flatMap.mp hM with ⟨anchor, -, hThere⟩
    rcases (hC.finds_of_mem hS hThere).2.2 with ⟨rule, f, hFinds⟩
    exact ⟨rule, f, hFinds.toNames.of_same hSame, hFinds.occurs, hFinds.convex⟩
  · rintro ⟨rule, f, hFinds⟩
    rcases hC.exists_mem_found hS hFinds.member hFinds.occurs hFinds.convex with
      ⟨m', hM, hRule, hFinds'⟩
    exact ⟨m', hM, hFinds.toNames.same hFinds'.toNames hRule.symm⟩

variable [Scalar K]

/- The matches of completed bindings name images of patterns, with or without cycles. -/
theorem Compiled.names_of_completeAll (hC : rs.Compiled) (hS : g.Sound) {anchor : Slot}
    {bindings : List (Nat × List Slot)} (hBindings : ∀ x ∈ bindings, x ∈ rs.bindingsAt g anchor)
    (hAll : Yields (rs.completeAll anchor bindings) g ms g') (hM : m ∈ ms) :
    ∃ rule f, rs.Names m rule f := by
  induction bindings generalizing g ms with
  | nil =>
    obtain ⟨rfl, -⟩ := yields_pure_iff.mp hAll
    cases hM
  | cons x rest ih =>
    rcases hC.mem_bindingsAt_iff.mp (hBindings x mem_cons_self) with
      ⟨p, hPat, hWalk⟩
    rcases hAll.ofExcept_bind with ⟨q, hQ, hAll⟩
    obtain rfl := eq_of_some hPat (pattern_eq_ok_iff.mp hQ)
    rcases yields_bind_iff.mp hAll with ⟨found, g₁, hFirst, hAll⟩
    rcases yields_bind_iff.mp hAll with ⟨others, g₂, hRest, hLast⟩
    obtain ⟨rfl, rfl⟩ := yields_pure_iff.mp hLast
    rcases mem_append.mp hM with hHere | hLater
    · obtain rfl := Option.mem_toList.mp hHere
      rcases hC.exists_binds_of_walk hS hPat hWalk with ⟨hHead, rule, f, hBinds⟩
      rcases hBinds.exists_boundary hS anchor with ⟨answer, hAnswer, -, hMatch⟩
      have hSome := eq_of_ok hAnswer (yields_complete_some_iff.mp hFirst).1
      rcases hMatch m hSome with ⟨hRule, rfl, hNodes, hPlaces⟩
      refine ⟨rule, f, hRule ▸ hBinds.member, ⟨p, hRule ▸ hPat, ?_⟩, ?_, hPlaces⟩
      · rw [Match.ids, hNodes]
        exact hBinds.ids
      · rw [Match.ids, hNodes]
        exact hHead
    · have hA := ((Reads.complete p x.1 anchor x.2).unchanged hFirst).1
      refine ih (hS.of_alike hA) (fun y hY => ?_) hRest hLater
      rw [hA.resembles.bindingsAt]
      exact hBindings y (mem_cons_of_mem _ hY)

theorem Compiled.names_of_matchesAtAll (hC : rs.Compiled) (hS : g.Sound)
    {anchors : List Slot} (hAll : Yields (rs.matchesAtAll anchors) g ms g') (hM : m ∈ ms) :
    ∃ rule f, rs.Names m rule f := by
  induction anchors generalizing g ms with
  | nil =>
    obtain ⟨rfl, -⟩ := yields_pure_iff.mp hAll
    cases hM
  | cons anchor rest ih =>
    rcases yields_bind_iff.mp hAll with ⟨found, g₁, hFirst, hAll⟩
    rcases yields_bind_iff.mp hAll with ⟨others, g₂, hRest, hLast⟩
    obtain ⟨rfl, rfl⟩ := yields_pure_iff.mp hLast
    rcases mem_append.mp hM with hHere | hLater
    · have hFirst := hFirst.get_bind
      exact hC.names_of_completeAll hS (fun _ hBinding => hBinding) hFirst hHere
    · have hA := ((Reads.matchesAt rs anchor).unchanged hFirst).1
      exact ih (hS.of_alike hA) hRest hLater

theorem Compiled.names_of_findMatches (hC : rs.Compiled) (hS : g.Sound)
    {among : Option (List Slot)} (hFnd : Yields (rs.findMatches among) g ms g') (hM : m ∈ ms) :
    ∃ rule f, rs.Names m rule f := by
  have hAll := hFnd.get_bind
  exact hC.names_of_matchesAtAll hS hAll hM

end RuleSet

/-
  A match that was found in some graph is live in a graph
  without a cycle exactly if a search of that graph finds it,
  whatever its nodes are spelled like.
-/
theorem isLive_iff_found
    {K : Type}
    [Scalar K]
    [Scalar.Ordered K]
    {rules : List (Rule K)}
    (hRules : ∀ rule ∈ rules, rule.Reachable)
    {rs : RuleSet K}
    (hCompile : RuleSet.compile rules = .ok rs)
    {g₀ g₀' : Graph K}
    (hReach₀ : g₀.Reachable)
    {among : Option (List Slot)}
    {ms : List Match}
    (hFound : Yields (rs.findMatches among) g₀ ms g₀')
    {m : Match}
    (hMem : m ∈ ms)
    {g : Graph K}
    (hReach : g.Reachable)
    (hAcyclic : g.Acyclic)
    (hCounts : Scalar.Counts K g.nextId) :
    ∃ live found,
      (∃ g', Yields (rs.isLive m) g live g' ∧ g.Unchanged g') ∧
      (∃ g', Yields (rs.findMatches none) g found g' ∧ g.Unchanged g') ∧
      (live = true ↔ ∃ m' ∈ found, m.same m' = true) := by
  rcases RuleSet.compiled_of_reachable hRules hCompile with ⟨rfl, hCompiled⟩
  have hSearch := hReach.searchable hAcyclic hCounts
  rcases hCompiled.names_of_findMatches hReach₀.intact.sound hFound hMem with ⟨rule, f, hNames⟩
  rcases hCompiled.yields_isLive hSearch hNames with ⟨live, g₁, hLive, hMeans⟩
  rcases hCompiled.yields_findMatches hSearch none with ⟨g₂, hAgain, -, hUnchanged⟩
  refine ⟨live, _, ⟨g₁, hLive, (Reads.isLive rs m).unchanged hLive⟩, ⟨g₂, hAgain, hUnchanged⟩, ?_⟩
  constructor
  · intro hTrue
    exact (hCompiled.exists_same_iff_finds hSearch.sound).mpr ⟨rule, f, hMeans.mp hTrue⟩
  · intro hThere
    rcases (hCompiled.exists_same_iff_finds hSearch.sound).mp hThere with ⟨rule', f', hFinds⟩
    -- the match names one more image, of the occurrence that was found
    rcases hCompiled.yields_isLive hSearch hFinds.toNames with ⟨live', g₃, hLive', hMeans'⟩
    rw [(hLive.unique hLive').1]
    exact hMeans'.mpr hFinds

/-
  The rule by which two inversions in a row vanish, its match
  in a graph of two inversions, a graph of three, and whether
  the match is live there.
-/
def inversionMatch : Except Fault (RuleSet ℚ × Graph ℚ × Match × Graph ℚ × Bool) := do
  let pair ← Rule.ofCircuits (Identities.circuit 1 [(.x, [0]), (.x, [0])]) (Identities.circuit 1 [])
    (.whole 0) .null
  let rs ← RuleSet.compile [pair]
  let g₀ ← Graph.ofCircuit (Identities.circuit 1 [(.x, [0]), (.x, [0])])
  let ms ← (outcome (rs.findMatches none) g₀).1
  let m ← ms.head?.elim (.error .absent) .ok
  let g ← Graph.ofCircuit (Identities.circuit 1 [(.x, [0]), (.x, [0]), (.x, [0])])
  let _ ← g.validate
  let live ← (outcome (rs.isLive m) g).1
  return (rs, g₀, m, g, live)

/- The match of two inversions is live among three, where it is one of two matches. -/
theorem isLive_iff_found_inversions :
    ∃ (rs : RuleSet ℚ) (g₀ : Graph ℚ) (m : Match) (g : Graph ℚ),
      inversionMatch = .ok (rs, g₀, m, g, true) ∧ g.Acyclic ∧
      (∃ ms g₀', Yields (rs.findMatches none) g₀ ms g₀' ∧ m ∈ ms) ∧
      ∃ live found,
        (∃ g', Yields (rs.isLive m) g live g' ∧ g.Unchanged g') ∧
        (∃ g', Yields (rs.findMatches none) g found g' ∧ g.Unchanged g') ∧
        (live = true ↔ ∃ m' ∈ found, m.same m' = true) := by
  have hCheck : inversionMatch.toOption.map (fun task => task.2.2.2.2) = some true := by cbv
  cases hTask : inversionMatch with
  | error fault =>
    rw [hTask] at hCheck
    cases hCheck
  | ok task =>
    obtain ⟨rs, g₀, m, g, live⟩ := task
    rw [hTask] at hCheck
    obtain rfl : live = true := Option.some.inj hCheck
    rcases bind_eq_ok_iff.mp hTask with ⟨pair, hPair, hParts⟩
    rcases bind_eq_ok_iff.mp hParts with ⟨rs', hCompile, hParts⟩
    rcases bind_eq_ok_iff.mp hParts with ⟨g₁, hStart, hParts⟩
    rcases bind_eq_ok_iff.mp hParts with ⟨ms, hFound, hParts⟩
    rcases bind_eq_ok_iff.mp hParts with ⟨m', hHead, hParts⟩
    rcases bind_eq_ok_iff.mp hParts with ⟨g', hGraph, hParts⟩
    rcases bind_eq_ok_iff.mp hParts with ⟨_, hValid, hParts⟩
    rcases bind_eq_ok_iff.mp hParts with ⟨live, -, hParts⟩
    obtain ⟨rfl, rfl, rfl, rfl, -⟩ : rs' = rs ∧ g₁ = g₀ ∧ m' = m ∧ g' = g ∧ live = true := by
      simpa using Except.ok.inj hParts
    have hMem : m' ∈ ms := by
      cases ms with
      | nil => cases hHead
      | cons first rest =>
        obtain rfl := Except.ok.inj hHead
        exact mem_cons_self
    have hYields : Yields (rs'.findMatches none) g₁ ms (outcome (rs'.findMatches none) g₁).2 :=
      Prod.ext hFound rfl
    have hRules : ∀ rule ∈ [pair], rule.Reachable := by
      intro rule hRule
      obtain rfl := mem_singleton.mp hRule
      exact Rule.reachable_of_ofCircuits hPair
    have hReach := Graph.reachable_of_ofCircuit hGraph
    have hAcyclic := (hReach.intact.validate_ok_iff.mp hValid).acyclic
    exact ⟨rs', g₁, m', g', rfl, hAcyclic, ⟨ms, _, hYields, hMem⟩,
      isLive_iff_found hRules hCompile (Graph.reachable_of_ofCircuit hStart) hYields hMem hReach
        hAcyclic (Scalar.counts_rational _)⟩

end CircuitGraph
