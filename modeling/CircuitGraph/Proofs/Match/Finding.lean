import CircuitGraph.Proofs.Match.Convexity
import CircuitGraph.Proofs.Match.Trie

/-
  The matches that a search finds.

  Whatever ranks are kept, a search of a graph without a cycle
  ends, and what it finds is a matter of nodes and wires alone:
  the convex occurrences of the patterns, each once, in the
  order of anchors, ranks and bindings.

  Main declarations:
    * `Finds`: the matches of a graph
    * `findMatches_exact`
-/

---- Graphs That Can Be Searched ----

namespace CircuitGraph

open List

namespace Graph

variable {K : Type} [Scalar K] {g g' : Graph K}

/- A graph without a cycle, with ranks in order and numbers enough to rank all its nodes. -/
structure Searchable (g : Graph K) : Prop where
  sound : g.Sound
  acyclic : g.Acyclic
  counts : Scalar.Counts K g.nextId
  kept : g.Kept

variable [Scalar.Ordered K]

theorem Searchable.of_reranked (hSea : g.Searchable) (hRer : g.Reranked g') : g'.Searchable := by
  induction hRer with
  | refl => exact hSea
  | @tail h _ _ hStep ih =>
    subst hStep
    have hA := (unchanged_topologicalRanks h).1
    exact ⟨ih.sound.of_alike hA, hA.acyclic ih.acyclic, hA.nextId.symm ▸ ih.counts,
      ih.sound.kept_topologicalRanks ih.counts ih.kept⟩

theorem Reachable.searchable (hReach : g.Reachable) (hAcy : g.Acyclic)
    (hCnt : Scalar.Counts K g.nextId) : g.Searchable :=
  ⟨hReach.intact.sound, hAcy, hCnt, hReach.kept hCnt⟩

end Graph

---- What Matching Looks At ----

variable {K : Type}

/- Whether two graphs have the same wires, and the same operations but for their bodies. -/
structure Graph.Resembles (g g' : Graph K) : Prop where
  wires : g'.wires = g.wires
  opIds : g'.opIds = g.opIds
  kinds : g'.kindOf? = g.kindOf?
  params : g'.paramsOf = g.paramsOf

theorem Graph.Alike.resembles {g g' : Graph K} (hA : g.Alike g') : g.Resembles g' :=
  ⟨hA.wires, hA.congr Graph.opIds (fun _ => rfl), hA.congr Graph.kindOf? (fun _ => rfl),
    hA.congr Graph.paramsOf (fun _ => rfl)⟩

namespace Graph.Resembles

variable {g g' : Graph K}

theorem symm (hSame : g.Resembles g') : g'.Resembles g :=
  ⟨hSame.wires.symm, hSame.opIds.symm, hSame.kinds.symm, hSame.params.symm⟩

section

variable (hSame : g.Resembles g')

include hSame

theorem source? : g'.source? = g.source? := by
  unfold Graph.source? Graph.wireInto?
  rw [hSame.wires]

theorem targets : g'.targets = g.targets := by
  unfold Graph.targets Graph.wiresFrom
  rw [hSame.wires]

theorem convex_iff {S : Nat → Prop} : g'.Convex S ↔ g.Convex S := by
  unfold Graph.Convex Graph.Edge
  rw [hSame.wires]

theorem occurs {pattern : Graph K} {f : Nat → Nat} (hOcc : pattern.Occurs g f) :
    pattern.Occurs g' f where
  operation := hSame.opIds ▸ hOcc.operation
  injective := hOcc.injective
  kind := hSame.kinds ▸ hOcc.kind
  params := hSame.params ▸ hOcc.params
  wired := by
    unfold Graph.Wired at *
    rw [hSame.wires]
    exact hOcc.wired
  fed := by
    have hFed := hOcc.fed
    unfold Graph.FedOutside Graph.Wired at *
    rw [hSame.wires]
    exact hFed
  closed := by
    have hClosed := hOcc.closed
    unfold Graph.ClosedOff Graph.Wired at *
    rw [hSame.wires]
    exact hClosed

theorem fits (kind : Kind) (params : List Param) :
    Constraint.fits g' kind params = Constraint.fits g kind params := by
  unfold Constraint.fits
  rw [hSame.kinds, hSame.params]

theorem advance (c : Constraint) (binding : List Slot) :
    c.advance g' binding = c.advance g binding := by
  have hFar : Constraint.farPins g' = Constraint.farPins g := by
    funext n index side
    cases side <;> simp only [Constraint.farPins, hSame.source?, hSame.targets]
  have hLinked : Constraint.linked g' = Constraint.linked g := by
    unfold Constraint.linked
    rw [hSame.source?]
  cases c <;> simp only [Constraint.advance, hFar, hLinked, hSame.fits]

end

mutual

theorem bindings (hSame : g.Resembles g') (binding : List Slot) :
    ∀ t : Trie, t.bindings g' binding = t.bindings g binding
  | .state rules branches => by
    rw [Trie.bindings, Trie.bindings, hSame.bindingsAll binding branches]

theorem bindingsAll (hSame : g.Resembles g') (binding : List Slot) :
    ∀ branches, Trie.bindingsAll g' binding branches = Trie.bindingsAll g binding branches
  | [] => rfl
  | (c, t) :: rest => by
    rw [Trie.bindingsAll, Trie.bindingsAll, hSame.advance, hSame.bindingsAll binding rest]
    congr 1
    exact flatMap_congr fun b _ => hSame.bindings b t

end

section

variable (hSame : g.Resembles g')

include hSame

theorem bindingsAt (rs : RuleSet K) (anchor : Slot) :
    rs.bindingsAt g' anchor = rs.bindingsAt g anchor := by
  unfold RuleSet.bindingsAt
  rw [hSame.bindings]

theorem isClosed (binding : List Nat) (exposed : List Pin) (nodes arities : List Nat) :
    Pattern.isClosed g' binding exposed nodes arities =
      Pattern.isClosed g binding exposed nodes arities := by
  induction nodes generalizing arities with
  | nil => rfl
  | cons n ns ih =>
    cases arities with
    | nil => rfl
    | cons arity arities =>
      have hFeeds : Pattern.feedsOutside g' = Pattern.feedsOutside g := by
        unfold Pattern.feedsOutside
        rw [hSame.targets]
      rw [Pattern.isClosed, Pattern.isClosed, hFeeds, ih]

theorem boundary (p : Pattern) (rule : Nat) (root : Slot) (binding : List Slot) :
    p.boundary g' rule root binding = p.boundary g rule root binding := by
  have hFed : Pattern.fedFromOutside g' = Pattern.fedFromOutside g := by
    unfold Pattern.fedFromOutside
    rw [hSame.source?]
  unfold Pattern.boundary
  simp only [hFed, hSame.isClosed]

end

end Graph.Resembles

---- Completed Bindings ----

namespace RuleSet

open Classical in
noncomputable def candidate (rs : RuleSet K) (g : Graph K) (anchor : Slot) (x : Nat × List Slot) :
    Option Match :=
  match (rs.pattern x.1).bind (fun p => p.boundary g x.1 anchor x.2) with
  | .ok found => if g.Convex (· ∈ idsOf x.2) then found else none
  | .error _ => none

/- The matches whose root is bound to the anchor, as nodes and wires have them. -/
noncomputable def matchesOf (rs : RuleSet K) (g : Graph K) (anchor : Slot) : List Match :=
  (rs.bindingsAt g anchor).filterMap (rs.candidate g anchor)

variable {rs : RuleSet K} {g g' : Graph K} {anchor : Slot} {i : Nat} {b : List Slot}

theorem candidate_of_resembles (hSame : g.Resembles g') (anchor : Slot) :
    rs.candidate g' anchor = rs.candidate g anchor := by
  funext x
  have hRegion : g'.Convex (· ∈ idsOf x.2) = g.Convex (· ∈ idsOf x.2) := propext hSame.convex_iff
  unfold candidate
  rw [hRegion, funext (fun p => hSame.boundary p x.1 anchor x.2)]

theorem matchesOf_of_resembles (hSame : g.Resembles g') : rs.matchesOf g' = rs.matchesOf g := by
  funext anchor
  unfold matchesOf
  rw [hSame.bindingsAt, candidate_of_resembles hSame]

/-
  Whether nodes bound to the variables of a rule's pattern
  meet its constraints: `f` takes each operation of the
  pattern to the node bound to it.
-/
structure Binds (rs : RuleSet K) (g : Graph K) (i : Nat) (b : List Slot) (p : Pattern)
    (rule : Rule K) (f : Nat → Nat) : Prop where
  pattern : rs.patterns[i]? = some p
  member : rs.rules[i]? = some rule
  usable : rule.Usable
  describes : p.Describes rule.pattern
  ids : idsOf b = p.nodes.map f
  satisfied : Satisfies g (p.nodes.map f) 1 p.constraints

theorem Compiled.exists_binds_of_walk (hC : rs.Compiled) (hS : g.Sound) {p : Pattern}
    (hPat : rs.patterns[i]? = some p) (hWalk : b ∈ bindingsAlong g [anchor] p.constraints) :
    (idsOf b).head? = some anchor.toNat ∧ ∃ rule f, rs.Binds g i b p rule f := by
  rcases hC.getElem?_pattern hPat with ⟨rule, hRule, hUse, hDesc⟩
  rcases (hS.exists_bindingsAlong_iff (by simp)).mp ⟨b, hWalk, rfl⟩ with ⟨hPre, hLen, hSatisfies⟩
  have hNodes : p.nodes.Nodup := hDesc.nodes.nodup_iff.mpr (sortIds_nodup _)
  rcases exists_map_eq hNodes (hDesc.bound.symm.trans hLen.symm) with ⟨f, hMap⟩
  refine ⟨?_, rule, f, hPat, hRule, hUse, hDesc, hMap.symm, hMap ▸ hSatisfies⟩
  rcases hPre with ⟨rest, hRest⟩
  rw [← hRest]
  rfl

namespace Binds

variable {p : Pattern} {rule : Rule K} {f : Nat → Nat}

section

variable (hBinds : rs.Binds g i b p rule f)

include hBinds

theorem mem_ids_iff {n : Nat} : n ∈ idsOf b ↔ rule.pattern.InImage f n := by
  rw [hBinds.ids]
  exact hBinds.describes.mem_image_iff

theorem mem_nodeIds (hS : g.Sound) {n : Nat} (hM : n ∈ idsOf b) : n ∈ g.nodeIds := by
  have hParts := (hBinds.describes.satisfies_iff hBinds.usable.pattern.sound
    hBinds.usable.isPattern hS).mp hBinds.satisfied
  rcases hBinds.mem_ids_iff.mp hM with ⟨v, hV, rfl⟩
  exact Graph.mem_nodeIds_of_op (hParts.1 v hV)

theorem exists_boundary (hS : g.Sound) (anchor : Slot) :
    ∃ answer, p.boundary g i anchor b = .ok answer ∧
      (answer.isSome = true ↔ rule.pattern.Occurs g f) ∧
      ∀ m, answer = some m → m.rule = i ∧ m.root = anchor ∧ m.nodes = b ∧
        m.places = rule.pattern.imageBoundary f := by
  have hPat := hBinds.usable.pattern.sound
  have hParts := (hBinds.describes.satisfies_iff hPat hBinds.usable.isPattern hS).mp
    hBinds.satisfied
  rcases hBinds.describes.exists_boundary hPat hBinds.usable.isPattern hS hBinds.ids
    hParts.2.2.1 hParts.2.1 i anchor with ⟨answer, hAnswer, hMeans, hMatch⟩
  refine ⟨answer, hAnswer, hMeans.trans ?_, hMatch⟩
  rw [hBinds.describes.occurs_iff hPat hBinds.usable.isPattern hS]
  exact ⟨fun hBd => ⟨hBinds.satisfied, hBd⟩, fun hOcc => hOcc.2⟩

theorem candidate_eq {answer : Option Match} (hAnswer : p.boundary g i anchor b = .ok answer) :
    (g.Convex (· ∈ idsOf b) → rs.candidate g anchor (i, b) = answer) ∧
      (¬ g.Convex (· ∈ idsOf b) → rs.candidate g anchor (i, b) = none) := by
  have hAsked : (rs.pattern i).bind (fun p => p.boundary g i anchor b) = .ok answer := by
    rw [pattern_eq_ok_iff.mpr hBinds.pattern]
    exact hAnswer
  unfold candidate
  rw [hAsked]
  exact ⟨fun hConv => by simp only [hConv, if_true], fun hConv => by simp only [hConv, if_false]⟩

theorem candidate_spec (hS : g.Sound) (anchor : Slot) :
    ((rs.candidate g anchor (i, b)).isSome = true ↔
      rule.pattern.Occurs g f ∧ g.Convex (rule.pattern.InImage f)) ∧
    ∀ m, rs.candidate g anchor (i, b) = some m → m.rule = i ∧ m.root = anchor ∧ m.nodes = b ∧
      m.places = rule.pattern.imageBoundary f := by
  rcases hBinds.exists_boundary hS anchor with ⟨answer, hAnswer, hMeans, hMatch⟩
  have hRegion : rule.pattern.InImage f = (· ∈ idsOf b) := by
    funext n
    exact propext hBinds.mem_ids_iff.symm
  rw [hRegion]
  by_cases hConv : g.Convex (· ∈ idsOf b)
  · rw [(hBinds.candidate_eq hAnswer).1 hConv]
    exact ⟨by simp [hMeans, hConv], hMatch⟩
  · rw [(hBinds.candidate_eq hAnswer).2 hConv]
    exact ⟨by simp [hConv], fun _ hNone => nomatch hNone⟩

end

variable [Scalar K] [Scalar.Ordered K]

theorem yields_complete (hBinds : rs.Binds g i b p rule f) (hSea : g.Searchable)
    (anchor : Slot) : ∃ g', Yields (p.complete i anchor b) g (rs.candidate g anchor (i, b)) g' := by
  rcases hBinds.exists_boundary hSea.sound anchor with ⟨answer, hAnswer, -, -⟩
  have hCandidate := hBinds.candidate_eq hAnswer
  unfold Pattern.complete
  cases answer with
  | none =>
    have hNone : rs.candidate g anchor (i, b) = none := by
      by_cases hConv : g.Convex (· ∈ idsOf b)
      · exact hCandidate.1 hConv
      · exact hCandidate.2 hConv
    exact ⟨g, .bind rfl (yields_bind_iff.mpr
      ⟨none, g, .ofExcept hAnswer, yields_pure_iff.mpr ⟨hNone, rfl⟩⟩)⟩
  | some m =>
    rcases hSea.sound.yields_isConvex hSea.acyclic hSea.counts hSea.kept
      (fun n => hBinds.mem_nodeIds hSea.sound) with ⟨convex, g', hConv, hMeans⟩
    refine ⟨g', .bind rfl (yields_bind_iff.mpr ⟨some m, g, .ofExcept hAnswer, yields_bind_iff.mpr
        ⟨convex, g', hConv, ?_⟩⟩)⟩
    cases convex with
    | true => exact yields_pure_iff.mpr ⟨hCandidate.1 (hMeans.mp rfl), rfl⟩
    | false =>
      exact yields_pure_iff.mpr
        ⟨hCandidate.2 (fun hThere => Bool.false_ne_true (hMeans.mpr hThere)), rfl⟩

end Binds

variable [Scalar K] [Scalar.Ordered K]

section

variable (hC : rs.Compiled) (hSea : g.Searchable)

include hC hSea

theorem Compiled.yields_completeAll {bindings : List (Nat × List Slot)}
    (hBindings : ∀ x ∈ bindings, x ∈ rs.bindingsAt g anchor) :
    ∃ g', Yields (rs.completeAll anchor bindings) g
      (bindings.filterMap (rs.candidate g anchor)) g' := by
  induction bindings generalizing g with
  | nil => exact ⟨g, rfl⟩
  | cons x rest ih =>
    rcases hC.mem_bindingsAt_iff.mp (hBindings x mem_cons_self) with
      ⟨p, hPat, hWalk⟩
    rcases hC.exists_binds_of_walk hSea.sound hPat hWalk with ⟨-, rule, f, hBinds⟩
    rcases hBinds.yields_complete hSea anchor with ⟨g₁, hFirst⟩
    have hRer := (Reads.complete p x.1 anchor x.2).reranked hFirst
    have hSame := hRer.unchanged.1.resembles
    rcases ih (hSea.of_reranked hRer) (fun y hY =>
      hSame.bindingsAt rs anchor ▸ hBindings y (mem_cons_of_mem _ hY)) with ⟨g₂, hRest⟩
    rw [candidate_of_resembles hSame] at hRest
    refine ⟨g₂, .bind (.ofExcept (pattern_eq_ok_iff.mpr hPat))
      (.bind hFirst (.bind hRest (yields_pure_iff.mpr ⟨?_, rfl⟩)))⟩
    cases hCandidate : rs.candidate g anchor x <;> simp [hCandidate]

theorem Compiled.yields_matchesAt (anchor : Slot) :
    ∃ g', Yields (rs.matchesAt anchor) g (rs.matchesOf g anchor) g' := by
  have hBindings : ∀ x ∈ rs.bindingsAt g anchor, x ∈ rs.bindingsAt g anchor := fun _ hM => hM
  rcases hC.yields_completeAll hSea hBindings with ⟨g', hAll⟩
  exact ⟨g', .bind rfl hAll⟩

theorem Compiled.yields_matchesAtAll (anchors : List Slot) :
    ∃ g', Yields (rs.matchesAtAll anchors) g (anchors.flatMap (rs.matchesOf g)) g' := by
  induction anchors generalizing g with
  | nil => exact ⟨g, rfl⟩
  | cons anchor rest ih =>
    rcases hC.yields_matchesAt hSea anchor with ⟨g₁, hFirst⟩
    have hRer := (Reads.matchesAt rs anchor).reranked hFirst
    rcases ih (hSea.of_reranked hRer) with ⟨g₂, hRest⟩
    rw [matchesOf_of_resembles hRer.unchanged.1.resembles] at hRest
    exact ⟨g₂, .bind hFirst (yields_bind_iff.mpr ⟨_, g₂, hRest, rfl⟩)⟩

theorem Compiled.yields_findMatches (among : Option (List Slot)) :
    ∃ g', Yields (rs.findMatches among) g ((rs.anchors g among).flatMap (rs.matchesOf g)) g' ∧
      g'.Searchable ∧ g.Unchanged g' := by
  rcases hC.yields_matchesAtAll hSea (rs.anchors g among) with ⟨g', hAll⟩
  have hFnd : Yields (rs.findMatches among) g ((rs.anchors g among).flatMap (rs.matchesOf g)) g' :=
    .bind rfl hAll
  have hRer := (Reads.findMatches rs among).reranked hFnd
  exact ⟨g', hFnd, hSea.of_reranked hRer, hRer.unchanged⟩

theorem Compiled.yields_firstAmong (anchors : List Slot) :
    ∃ g', Yields (rs.firstAmong anchors) g (anchors.flatMap (rs.matchesOf g)).head? g' ∧
      g.Unchanged g' := by
  induction anchors generalizing g with
  | nil => exact ⟨g, rfl, .refl g⟩
  | cons anchor rest ih =>
    rcases hC.yields_matchesAt hSea anchor with ⟨g₁, hFirst⟩
    have hRer := (Reads.matchesAt rs anchor).reranked hFirst
    rw [flatMap_cons]
    cases hMatches : rs.matchesOf g anchor with
    | nil =>
      rcases ih (hSea.of_reranked hRer) with ⟨g₂, hRest, hU⟩
      rw [matchesOf_of_resembles hRer.unchanged.1.resembles] at hRest
      rw [hMatches] at hFirst
      exact ⟨g₂, .bind hFirst hRest, hRer.unchanged.trans hU⟩
    | cons m ms =>
      rw [hMatches] at hFirst
      exact ⟨g₁, .bind hFirst rfl, hRer.unchanged⟩

end

---- Occurrences and Matches ----

variable {K : Type}

/-
  Whether a match names the image of its rule's pattern under
  `f`, whatever has become of the graph that it was found in.
-/
structure Names (rs : RuleSet K) (m : Match) (rule : Rule K) (f : Nat → Nat) : Prop where
  member : rs.rules[m.rule]? = some rule
  nodes : ∃ p, rs.patterns[m.rule]? = some p ∧ m.ids = p.nodes.map f
  root : m.ids.head? = some m.root.toNat
  places : m.places = rule.pattern.imageBoundary f

/-
  Whether a match is that of an occurrence of its rule's
  pattern: `f` maps the operations of the pattern to a convex
  region of the graph.
-/
structure Finds (rs : RuleSet K) (g : Graph K) (m : Match) (rule : Rule K) (f : Nat → Nat) : Prop
    extends rs.Names m rule f where
  occurs : rule.pattern.Occurs g f
  convex : g.Convex (rule.pattern.InImage f)

def searchKey (rs : RuleSet K) (m : Match) : List Nat :=
  m.root.toNat :: rankOf rs.ranks m.rule :: m.ids

variable {rs : RuleSet K} {g : Graph K} {m : Match}

section

variable (hC : rs.Compiled) (hS : g.Sound)

include hC hS

theorem Compiled.finds_of_candidate (hBinding : (i, b) ∈ rs.bindingsAt g anchor)
    (hCandidate : rs.candidate g anchor (i, b) = some m) :
    m.rule = i ∧ m.root = anchor ∧ m.nodes = b ∧ ∃ rule f, rs.Finds g m rule f := by
  rcases hC.mem_bindingsAt_iff.mp hBinding with ⟨p, hPat, hWalk⟩
  rcases hC.exists_binds_of_walk hS hPat hWalk with ⟨hHead, rule, f, hBinds⟩
  rcases hBinds.candidate_spec hS anchor with ⟨hMeans, hMatch⟩
  rcases hMeans.mp (Option.isSome_of_eq_some hCandidate) with ⟨hOcc, hConv⟩
  rcases hMatch m hCandidate with ⟨rfl, rfl, rfl, hPlaces⟩
  exact ⟨rfl, rfl, rfl, rule, f, ⟨hBinds.member, ⟨p, hPat, hBinds.ids⟩, hHead, hPlaces⟩,
    hOcc, hConv⟩

theorem Compiled.finds_of_mem (hM : m ∈ rs.matchesOf g anchor) :
    m.root = anchor ∧ (m.rule, m.nodes) ∈ rs.bindingsAt g anchor ∧
      ∃ rule f, rs.Finds g m rule f := by
  rcases mem_filterMap.mp hM with ⟨⟨i, b⟩, hBinding, hCandidate⟩
  rcases hC.finds_of_candidate hS hBinding hCandidate with ⟨rfl, hRoot, rfl, hFinds⟩
  exact ⟨hRoot, hBinding, hFinds⟩

theorem Compiled.exists_binds_of_occurs {rule : Rule K} (hRule : rs.rules[i]? = some rule)
    {f : Nat → Nat} (hOcc : rule.pattern.Occurs g f) {p : Pattern}
    (hPat : rs.patterns[i]? = some p) (hAnchor : (p.nodes.map f).head? = some anchor.toNat) :
    ∃ b, (i, b) ∈ rs.bindingsAt g anchor ∧ rs.Binds g i b p rule f := by
  rcases hC.getElem? hRule with ⟨q, hQ, hUse, hDesc⟩
  obtain rfl := eq_of_some hPat hQ
  rcases (hDesc.occurs_iff hUse.pattern.sound hUse.isPattern hS).mp hOcc with
    ⟨hSatisfies, -⟩
  have hPre : idsOf [anchor] <+: p.nodes.map f := by
    cases hNodes : p.nodes.map f with
    | nil => simp [hNodes] at hAnchor
    | cons n rest =>
      rw [hNodes] at hAnchor
      obtain rfl := Option.some.inj hAnchor
      exact ⟨rest, rfl⟩
  have hAnchored : [anchor] ≠ [] := cons_ne_nil _ _
  rcases (hS.exists_bindingsAlong_iff hAnchored).mpr
    ⟨hPre, by simpa using hDesc.bound.symm, hSatisfies⟩ with ⟨b, hWalk, hIds⟩
  exact ⟨b, hC.mem_bindingsAt_iff.mpr ⟨p, hPat, hWalk⟩, hPat, hRule, hUse, hDesc, hIds, hSatisfies⟩

theorem Compiled.exists_mem_matchesOf {rule : Rule K} (hRule : rs.rules[i]? = some rule)
    {f : Nat → Nat} (hOcc : rule.pattern.Occurs g f)
    (hConv : g.Convex (rule.pattern.InImage f)) {p : Pattern}
    (hPat : rs.patterns[i]? = some p) (hAnchor : (p.nodes.map f).head? = some anchor.toNat) :
    ∃ m ∈ rs.matchesOf g anchor, m.rule = i ∧ rs.Finds g m rule f := by
  rcases hC.exists_binds_of_occurs hS hRule hOcc hPat hAnchor with
    ⟨b, hBinding, hBinds⟩
  rcases hBinds.candidate_spec hS anchor with ⟨hMeans, hMatch⟩
  rcases Option.isSome_iff_exists.mp (hMeans.mpr ⟨hOcc, hConv⟩) with ⟨m, hSome⟩
  rcases hMatch m hSome with ⟨rfl, rfl, rfl, hPlaces⟩
  have hNames : rs.Names m rule f :=
    ⟨hRule, ⟨p, hPat, hBinds.ids⟩, (congrArg List.head? hBinds.ids).trans hAnchor, hPlaces⟩
  exact ⟨m, mem_filterMap.mpr ⟨_, hBinding, hSome⟩, rfl, hNames, hOcc, hConv⟩

theorem Compiled.matchesOf_pairwise (anchor : Slot) :
    (rs.matchesOf g anchor).Pairwise (fun m m' => rs.searchKey m < rs.searchKey m') := by
  unfold matchesOf
  rw [pairwise_filterMap]
  refine (hC.bindingsAt_pairwise hS anchor).imp_of_mem ?_
  rintro ⟨i, b⟩ ⟨j, c⟩ hL hR hLess m hM m' hM'
  rcases hC.finds_of_candidate hS hL hM with ⟨rfl, hRoot, rfl, -⟩
  rcases hC.finds_of_candidate hS hR hM' with ⟨rfl, hRoot', rfl, -⟩
  rw [searchKey, searchKey, hRoot, hRoot']
  exact cons_lt_cons_iff.mpr (.inr ⟨rfl, hLess⟩)

theorem Compiled.flatMap_matchesOf_pairwise {anchors : List Slot}
    (hAnchors : (anchors.map Slot.toNat).Pairwise (· < ·)) :
    (anchors.flatMap (rs.matchesOf g)).Pairwise (fun m m' => rs.searchKey m < rs.searchKey m') := by
  rw [pairwise_flatMap]
  refine ⟨fun anchor _ => hC.matchesOf_pairwise hS anchor, ?_⟩
  refine (pairwise_map.mp hAnchors).imp fun hLess m hM m' hM' => ?_
  rw [searchKey, searchKey, (hC.finds_of_mem hS hM).1, (hC.finds_of_mem hS hM').1]
  exact cons_lt_cons_iff.mpr (.inl hLess)

theorem Compiled.mem_anchors {rule : Rule K} (hRule : rs.rules[i]? = some rule) {f : Nat → Nat}
    (hOcc : rule.pattern.Occurs g f) {p : Pattern} (hPat : rs.patterns[i]? = some p)
    {n : Nat} (hHead : (p.nodes.map f).head? = some n) : .number n ∈ rs.anchors g none := by
  rcases hC.getElem? hRule with ⟨q, hQ, hUse, hDesc⟩
  obtain rfl := eq_of_some hPat hQ
  rcases hDesc.root with ⟨kind, params, rest, hCons, -⟩
  have hSatisfies := ((hDesc.occurs_iff hUse.pattern.sound hUse.isPattern hS).mp hOcc).1
  rw [hCons] at hSatisfies
  rcases hSatisfies.1 with ⟨m, hM, hFits⟩
  rw [← head?_eq_getElem?, hHead] at hM
  obtain rfl := Option.some.inj hM
  have hKind : g.kindOf? n = some kind := beq_iff_eq.mp (Bool.and_eq_true_iff.mp hFits).1
  have hOperation : n ∈ g.opIds := by
    rcases mem_map.mp (mem_of_head? hHead) with ⟨v, hV, rfl⟩
    exact hOcc.operation v (hDesc.mem_nodes_iff.mp hV)
  have hRoots : kind ∈ rs.rootKinds := by
    have hThere : (Constraint.root kind params).rootKind? ∈ rs.trie.rootKinds := by
      rw [hC.trie]
      exact rootKind?_mem_buildTrie (mem_of_getElem? hPat) hCons
    rcases mem_map.mp hThere with ⟨branch, hBranch, hBranchKind⟩
    exact mem_eraseDups.mpr (mem_filterMap.mpr ⟨branch, hBranch, hBranchKind⟩)
  unfold anchors
  simp [hOperation, hKind, hRoots, Slot.toNat]

theorem Compiled.exists_mem_found {rule : Rule K} (hRule : rs.rules[i]? = some rule)
    {f : Nat → Nat} (hOcc : rule.pattern.Occurs g f)
    (hConv : g.Convex (rule.pattern.InImage f)) :
    ∃ m ∈ (rs.anchors g none).flatMap (rs.matchesOf g), m.rule = i ∧ rs.Finds g m rule f := by
  rcases hC.getElem? hRule with ⟨p, hPat, -, hDesc⟩
  have hSome : p.nodes.map f ≠ [] := by
    have hPos := le_boundAfter 1 p.constraints
    rw [hDesc.bound] at hPos
    exact ne_nil_of_length_pos (by rw [length_map]; exact hPos)
  rcases exists_cons_of_ne_nil hSome with ⟨n, rest, hNodes⟩
  have hHead : (p.nodes.map f).head? = some n := by rw [hNodes]; rfl
  have hAnchor : (p.nodes.map f).head? = some (Slot.number n).toNat := hHead
  rcases hC.exists_mem_matchesOf hS hRule hOcc hConv hPat hAnchor with
    ⟨m, hM, hFnd⟩
  exact ⟨m, mem_flatMap.mpr ⟨.number n, hC.mem_anchors hS hRule hOcc hPat hHead, hM⟩, hFnd⟩

end

theorem anchors_pairwise (rs : RuleSet K) (g : Graph K) :
    ((rs.anchors g none).map Slot.toNat).Pairwise (· < ·) := by
  have hAll : ((g.opIds.map Slot.number).map Slot.toNat).Pairwise (· < ·) := by
    rw [map_map]
    exact (map_id g.opIds).symm ▸ sortIds_pairwise _
  exact hAll.sublist (filter_sublist.map Slot.toNat)

end RuleSet

/-
  A search for matches ends in every graph without a cycle,
  and gives each convex occurrence of a pattern once, in the
  order of roots, ranks and bindings.  The search for the
  first match gives the first of them.
-/
theorem findMatches_exact
    {K : Type}
    [Scalar K]
    [Scalar.Ordered K]
    {rules : List (Rule K)}
    (hRules : ∀ rule ∈ rules, rule.Reachable)
    {rs : RuleSet K}
    (hCompile : RuleSet.compile rules = .ok rs)
    {g : Graph K}
    (hReach : g.Reachable)
    (hAcyclic : g.Acyclic)
    (hCounts : Scalar.Counts K g.nextId) :
    ∃ ms,
      (∃ g', Yields (rs.findMatches none) g ms g' ∧ g.Unchanged g') ∧
      ms.Pairwise (fun m m' => rs.searchKey m < rs.searchKey m') ∧
      (∀ m ∈ ms, ∃ rule f, rs.Finds g m rule f) ∧
      (∀ i rule f, rules[i]? = some rule → rule.pattern.Occurs g f →
        g.Convex (rule.pattern.InImage f) →
        ∃ m ∈ ms, m.rule = i ∧ ∃ p, rs.patterns[i]? = some p ∧ m.ids = p.nodes.map f) ∧
      ∃ g', Yields rs.findFirst g ms.head? g' ∧ g.Unchanged g' := by
  rcases RuleSet.compiled_of_reachable hRules hCompile with ⟨rfl, hCompiled⟩
  have hSearch := hReach.searchable hAcyclic hCounts
  rcases hCompiled.yields_findMatches hSearch none with ⟨g', hFound, -, hUnchanged⟩
  rcases hCompiled.yields_firstAmong hSearch (rs.anchors g none) with
    ⟨g₁, hFirst, hAfter⟩
  refine ⟨_, ⟨g', hFound, hUnchanged⟩,
    hCompiled.flatMap_matchesOf_pairwise hSearch.sound (RuleSet.anchors_pairwise rs g),
    fun m hMem => ?_, fun i rule f hRule hOccurs hConvex => ?_,
    g₁, .bind rfl hFirst, hAfter⟩
  · rcases mem_flatMap.mp hMem with ⟨anchor, -, hThere⟩
    exact (hCompiled.finds_of_mem hSearch.sound hThere).2.2
  · rcases hCompiled.exists_mem_found hSearch.sound hRule hOccurs hConvex with
      ⟨m, hMem, rfl, hFinds⟩
    exact ⟨m, hMem, rfl, hFinds.nodes⟩

theorem findMatches_exact_inversions :
    ∃ (rules : List (Rule ℚ)) (rs : RuleSet ℚ) (g : Graph ℚ),
      Identities.standard true = .ok rules ∧ RuleSet.compile rules = .ok rs ∧
      Graph.ofCircuit (Identities.circuit 1 [(.x, [0]), (.x, [0])]) = .ok g ∧ g.Acyclic ∧
      ∃ ms, (∃ g', Yields (rs.findMatches none) g ms g' ∧ g.Unchanged g') ∧
        ms.Pairwise (fun m m' => rs.searchKey m < rs.searchKey m') ∧
        (∀ m ∈ ms, ∃ rule f, rs.Finds g m rule f) ∧
        ∃ g', Yields rs.findFirst g ms.head? g' := by
  rcases Identities.exists_standard_inversions with ⟨rules, rs, g, hRules, hCompile, hGraph, hValid⟩
  have hReach := Graph.reachable_of_ofCircuit hGraph
  have hAcyclic := (hReach.intact.validate_ok_iff.mp hValid).acyclic
  rcases findMatches_exact (Identities.reachable_of_standard hRules) hCompile hReach hAcyclic
    (Scalar.counts_rational _) with ⟨ms, hFound, hOrder, hSound, -, g', hFirst, -⟩
  exact ⟨rules, rs, g, hRules, hCompile, hGraph, hAcyclic, ms, hFound, hOrder, hSound, g', hFirst⟩

end CircuitGraph
