import CircuitGraph.Proofs.Match.Listing

/-
  The same substitution in graphs of the same essence.

  A substitution is planned from wires and carried out with
  the ids that come next.
-/

---- Matches ----

namespace CircuitGraph

open List CircuitGraph.Graph

namespace Graph

variable {K : Type} {g g' : Graph K}

theorem resembles_of_essence (hUniq : (g.ops.map Node.id).Nodup)
    (hUniq' : (g'.ops.map Node.id).Nodup) (hEss : g.essence = g'.essence) :
    g.Resembles g' := by
  rcases essence_inj hUniq hUniq' hEss with ⟨-, -, hWires, -, hPerm⟩
  have hOps := op?_of_essence hUniq hUniq' hEss
  have hSame : ∀ node : Node (Graph K), (essenceOf node).id = node.id := fun _ => rfl
  have hSort := sortedOps_map_eq hSame hSame hUniq hPerm
  refine ⟨hWires.symm, ?_, ?_, ?_⟩
  · rw [← map_id_sortedOps hUniq, ← map_id_sortedOps hUniq']
    have hIds := congrArg (List.map Node.id) hSort
    rw [map_map, map_map] at hIds
    exact hIds.symm
  · funext n
    have hKind := congrArg (Option.map Node.kind) (hOps n)
    simp only [Option.map_map] at hKind
    unfold kindOf?
    rw [show (g.op? n).map Node.kind = (g'.op? n).map Node.kind from hKind]
  · funext n
    have hParams := congrArg (Option.map Node.params) (hOps n)
    simp only [Option.map_map] at hParams
    unfold paramsOf
    rw [show (g.op? n).map Node.params = (g'.op? n).map Node.params from hParams]

end Graph

---- Plans ----

variable {K : Type}

/- Whether a plan joins the pins that the wires of a graph tell. -/
structure Plan.Drawn (p : Plan) (g : Graph K) : Prop where
  sources : p.found.inputs.mapM (RuleSet.boundarySource g) = .ok (p.sources.map some)
  consumers : p.consumers = p.found.outputs.map (RuleSet.boundaryConsumers g p.found)

namespace RuleSet

variable {g : Graph K}

theorem map_some_of_sourceTypes {pins : List (Option Pin)} {sources : List (Pin × WireType)}
    (hTypes : pins.mapM (sourceType g) = .ok sources) : pins = (sources.map Prod.fst).map some := by
  have hAll := mapM_eq_ok_iff.mp hTypes
  clear hTypes
  induction hAll with
  | nil => rfl
  | @cons pin _ _ _ hPin _ ih =>
    rw [map_cons, map_cons, ← ih]
    unfold sourceType at hPin
    cases pin with
    | none => cases hPin
    | some src =>
      dsimp only at hPin
      split at hPin
      · cases hPin
        rfl
      · cases hPin

theorem boundarySource_eq (pins : List Pin) : boundarySource g pins = match pins.map Pin.place with
      | [] => .error .outOfBounds
      | place :: _ => .ok (g.source? place.1 place.2) := by
  cases pins <;> rfl

variable [Scalar K]

theorem drawn_of_plan {rs : RuleSet K} {m : Match} {p : Plan} {g' : Graph K}
    (hPlan : Yields (rs.plan m) g p g') : p.Drawn g' := by
  rcases yields_plan_iff.mp hPlan with ⟨-, rule, pins, sources, -, hPins, hSrcs, -, rfl⟩
  exact ⟨map_some_of_sourceTypes hSrcs ▸ hPins, rfl⟩

end RuleSet

theorem Plan.Drawn.of_resembles {p : Plan} {g g' : Graph K} (hDrawn : p.Drawn g)
    (hSame : g.Resembles g') : p.Drawn g' where
  sources := by
    have hSrc : RuleSet.boundarySource g' = RuleSet.boundarySource g := by
      unfold RuleSet.boundarySource
      rw [hSame.source?]
    rw [hSrc]
    exact hDrawn.sources
  consumers := by
    have hConsumers : RuleSet.boundaryConsumers g' = RuleSet.boundaryConsumers g := by
      unfold RuleSet.boundaryConsumers
      rw [hSame.targets]
    rw [hConsumers]
    exact hDrawn.consumers

theorem Plan.Drawn.agree {p p' : Plan} {g g' : Graph K} (hDrawn : p.Drawn g) (hDrawn' : p'.Drawn g')
    (hSame : g.Resembles g') (hIds : p'.found.ids = p.found.ids)
    (hPlaces : p'.found.places = p.found.places) :
    p'.sources = p.sources ∧ p'.consumers = p.consumers := by
  have hInputs : p'.found.inputs.map (List.map Pin.place) = p.found.inputs.map (List.map Pin.place) :=
    congrArg Prod.fst hPlaces
  have hOuts : p'.found.outputs.map Pin.place = p.found.outputs.map Pin.place :=
    congrArg Prod.snd hPlaces
  constructor
  · have hSrcs : p'.found.inputs.mapM (RuleSet.boundarySource g') =
        p.found.inputs.mapM (RuleSet.boundarySource g) := by
      let sourceAt : List (Nat × Nat) → Except Fault (Option Pin) := fun places =>
        match places with
        | [] => .error .outOfBounds
        | place :: _ => .ok (g.source? place.1 place.2)
      have hBoth : ∀ h : Graph K, h.source? = g.source? →
          RuleSet.boundarySource h = sourceAt ∘ List.map Pin.place := by
        intro h hSrc
        funext pins
        rw [RuleSet.boundarySource_eq, hSrc]
        rfl
      rw [hBoth g' hSame.source?, hBoth g rfl, ← mapM_map, ← mapM_map, hInputs]
    rw [hDrawn'.sources, hDrawn.sources] at hSrcs
    exact map_injective_iff.mpr (Option.some_injective Pin) (Except.ok.inj hSrcs)
  · have hCovers : ∀ n, Slot.covers p'.found.nodes n = Slot.covers p.found.nodes n := by
      intro n
      have hAny : ∀ m : Match, Slot.covers m.nodes n = m.ids.any (· == n) := by
        intro m
        simp [Slot.covers, Match.ids, any_map, Function.comp_def]
      rw [hAny, hAny, hIds]
    have hBoth : ∀ (m : Match) (h : Graph K), h.targets = g.targets →
        (∀ n, Slot.covers m.nodes n = Slot.covers p.found.nodes n) →
        m.outputs.map (RuleSet.boundaryConsumers h m) = (m.outputs.map Pin.place).map (fun place =>
            (g.targets place.1 place.2).filter (fun t => !Slot.covers p.found.nodes t.node)) := by
      intro m h hTargets hSlots
      rw [map_map]
      apply map_congr_left
      intro pin _
      simp only [RuleSet.boundaryConsumers, hTargets, hSlots]
      rfl
    rw [hDrawn'.consumers, hDrawn.consumers, hBoth _ _ hSame.targets hCovers,
      hBoth _ _ rfl (fun _ => rfl), hOuts]

---- Results ----

variable {rs : RuleSet K} {p p' : Plan} {s s' : Splicing K} {g g' : Graph K}

theorem Plan.Splices.unique_layout (hSpl : p.Splices rs s) :
    ((s.layout p p.keeps).ops.map Node.id).Nodup :=
  (Splicing.sound_layout_nodes hSpl).unique

theorem Plan.Splices.essence_eq (hSpl : p.Splices rs s) (hSpl' : p'.Splices rs s')
    (hEss : s.host.essence = s'.host.essence) (hRule : p'.found.rule = p.found.rule)
    (hIds : p'.found.ids = p.found.ids) (hSrcs : p'.sources = p.sources)
    (hConsumers : p'.consumers = p.consumers) (hLay : (s.layout p p.keeps).Alike g)
    (hLay' : (s'.layout p' p'.keeps).Alike g') : g.essence = g'.essence := by
  have hSame : s'.rule = s.rule := by
    have hSome := hSpl'.rule
    rw [hRule, hSpl.rule] at hSome
    exact (Option.some.inj hSome).symm
  rcases essence_inj s.sound.unique s'.sound.unique hEss with
    ⟨hInputs, hOuts, hWires, hNext, hPerm⟩
  have hFresh : s'.fresh = s.fresh := by
    funext n
    rw [hSpl.fresh, hSpl'.fresh, hSame, hNext]
  have hCopy : s'.copyOf = s.copyOf := by
    funext node
    rw [Splicing.copyOf, Splicing.copyOf, hFresh]
  have hWiresOf : s'.wiresOf p' = s.wiresOf p := by
    funext w
    simp only [Splicing.wiresOf, Splicing.startPin, Splicing.endPins, hFresh, hSrcs, hConsumers]
  have hKeeps : p'.keeps = p.keeps := by
    funext n
    rw [Plan.keeps, Plan.keeps, hIds]
  rw [← essence_of_alike hLay hSpl.unique_layout, ← essence_of_alike hLay' hSpl'.unique_layout]
  apply essence_eq_of_perm hSpl.unique_layout
  · exact hInputs
  · exact hOuts
  · simp only [Splicing.layout, hWires, hKeeps, hSame, hWiresOf]
  · simp only [Splicing.layout, hNext, hSame]
  · have hKept : ∀ h : Graph K, (h.ops.filter (fun node => p.keeps node.id)).map Graph.essenceOf =
        (h.ops.map Graph.essenceOf).filter (fun node => p.keeps node.id) := by
      intro h
      rw [filter_map]
      rfl
    simp only [Splicing.layout, hKeeps, hSame, hCopy, map_append, hKept]
    exact (hPerm.filter _).append_right _

def Step.plain (s : Step) : Step :=
  { s with
    root := .number s.root.toNat
    removed := (s.removed.map Slot.toNat).map .number }

variable [Scalar K]

/- Whether a plan for a match that is found in a graph is carried out there. -/
structure RuleSet.Carries (rs : RuleSet K) (g : Graph K) (p : Plan) (step : Step)
    (g' : Graph K) : Prop where
  found : ∃ rule f, rs.Finds g p.found rule f
  secure : p.Secure rs g
  drawn : p.Drawn g
  yields : Yields (rs.carryOut p) g step g'

/-
  Whether a step can be done again in a graph: the match that
  it tells is found there, and putting the replacement in
  gives the same ids and touches the same nodes.
-/
def RuleSet.Repeats (rs : RuleSet K) (g : Graph K) (s : Step) (g' : Graph K) : Prop :=
  ∃ ms m step g₁, Yields (rs.findMatches none) g ms g₁ ∧
    (m ∈ ms ∧ m.rule = s.rule ∧ m.ids = s.removed.map Slot.toNat) ∧
    Yields (rs.apply m) g₁ step g' ∧ step.inserted = s.inserted ∧ step.touched = s.touched

namespace RuleSet

variable {c : Graph K} {step : Step}

theorem Carries.nextId_le (hCar : rs.Carries g p step g') (hS : g.Sound)
    (hAcy : g.Acyclic) : g.nextId ≤ g'.nextId := by
  rcases hCar.secure.exists_carryOut hS hAcy with ⟨s, g'', rfl, -, hLay, -, hDone⟩
  obtain ⟨-, rfl⟩ := hCar.yields.unique hDone
  rw [hLay.nextId]
  exact Nat.le_add_right _ _

theorem Carries.agree {p' : Plan} {step' : Step} {c' : Graph K} (hCar : rs.Carries g p step g')
    (hCar' : rs.Carries c p' step' c') (hS : g.Sound) (hAcy : g.Acyclic)
    (hS' : c.Sound) (hAcy' : c.Acyclic) (hEss : c.essence = g.essence)
    (hPlain : p'.found.plain = p.found.plain) :
    c'.essence = g'.essence ∧ step'.plain = step.plain := by
  have hRule : p'.found.rule = p.found.rule := congrArg (fun m => m.rule) hPlain
  have hRoot : p'.found.root.toNat = p.found.root.toNat := congrArg (fun m => m.root.toNat) hPlain
  have hIds : p'.found.ids = p.found.ids := by
    rw [← Match.ids_plain, hPlain, Match.ids_plain]
  have hPlaces : p'.found.places = p.found.places := by
    rw [← Match.places_plain, hPlain, Match.places_plain]
  rcases hCar.secure.exists_carryOut hS hAcy with
    ⟨s, g'', rfl, hSpl, hLay, -, hDone⟩
  obtain ⟨rfl, rfl⟩ := hCar.yields.unique hDone
  rcases hCar'.secure.exists_carryOut hS' hAcy' with
    ⟨s', c'', rfl, hSpl', hLay', -, hDone'⟩
  obtain ⟨rfl, rfl⟩ := hCar'.yields.unique hDone'
  rcases hCar.drawn.agree hCar'.drawn
    (resembles_of_essence s.sound.unique s'.sound.unique hEss.symm) hIds hPlaces with
    ⟨hSrcs, hConsumers⟩
  have hEnd := hSpl.essence_eq hSpl' hEss.symm hRule hIds hSrcs hConsumers hLay hLay'
  have hSame : s'.rule = s.rule := by
    have hSome := hSpl'.rule
    rw [hRule, hSpl.rule] at hSome
    exact (Option.some.inj hSome).symm
  have hInserted : idsSince s'.host.nextId c' = idsSince s.host.nextId g' := by
    rw [idsSince, idsSince, ← s'.host.nextId_essence, ← c'.nextId_essence, hEss, ← hEnd,
      nextId_essence, nextId_essence]
  refine ⟨hEnd.symm, ?_⟩
  have hRemoved : p'.found.nodes.map Slot.toNat = p.found.nodes.map Slot.toNat := hIds
  simp only [Step.plain, stepOf, hInserted, hRule, hRoot, hRemoved, hSame, Plan.sourceNodes,
    Plan.consumerNodes, hSrcs, hConsumers]

variable [Scalar.Ordered K]

theorem Compiled.sure_of_plan (hC : rs.Compiled) (hSea : g.Searchable) {m : Match}
    {rule : Rule K} {f : Nat → Nat} (hNames : rs.Names m rule f)
    (hPlan : Yields (rs.plan m) g p g') : p.Drawn g' ∧ ∃ rule f, rs.Finds g' p.found rule f := by
  rcases hC.plan_cases hSea hNames with
    ⟨g₁, hU, -, ⟨hFinds, p', hPlan', hFnd, -⟩ | ⟨-, hStale⟩⟩
  · obtain ⟨rfl, rfl⟩ := hPlan.unique hPlan'
    obtain rfl := hFnd
    exact ⟨drawn_of_plan hPlan, rule, f, hFinds.of_alike hU.1⟩
  · exact absurd hStale hPlan.not_fails

theorem Compiled.carries_of_apply (hC : rs.Compiled) (hSea : g.Searchable) {m : Match}
    (hFinds : ∃ rule f, rs.Finds g m rule f) (hApply : Yields (rs.apply m) g step g') :
    ∃ p g₁, g.Reranked g₁ ∧ p.found = m ∧ rs.Carries g₁ p step g' := by
  rcases hFinds with ⟨rule, f, hFinds⟩
  rcases hC.plan_cases hSea hFinds.toNames with
    ⟨g₁, hU, -, ⟨-, p, hPlan, rfl, hSecure⟩ | ⟨hNot, -⟩⟩
  · rcases yields_bind_iff.mp hApply with ⟨p', g₂, hPlan', hCommit⟩
    obtain ⟨rfl, rfl⟩ := hPlan'.unique hPlan
    refine ⟨p', g₂, (Reads.plan rs p'.found).reranked hPlan, rfl,
      ⟨rule, f, hFinds.of_alike hU.1⟩, hSecure, drawn_of_plan hPlan, ?_⟩
    rcases yields_bind_iff.mp hCommit with ⟨out, g₃, hRefresh, hCarry⟩
    rcases yields_bind_iff.mp hRefresh with ⟨_, _, hGet, hTest⟩
    rcases yields_get_iff.mp hGet with ⟨rfl, rfl⟩
    rw [if_pos hSecure.version.symm] at hTest
    rcases yields_pure_iff.mp hTest with ⟨rfl, rfl⟩
    exact hCarry
  · exact absurd hFinds hNot

theorem Carries.exists_repeats (hCar : rs.Carries g p step g') (hC : rs.Compiled)
    (hSea : g.Searchable) (hSea' : c.Searchable) (hEss : c.essence = g.essence) :
    ∃ c', rs.Repeats c step c' ∧ c'.essence = g'.essence := by
  rcases hCar.found with ⟨rule, f, hFinds⟩
  have hThere : rs.Finds c p.found rule f := hFinds.of_resembles
    (resembles_of_essence hSea.sound.unique hSea'.sound.unique hEss.symm)
  rcases hC.yields_findMatches hSea' none with ⟨c₁, hFnd, hSea₁, hU⟩
  rcases (hC.lists hSea'.sound).exists_plain_eq hThere with ⟨m, hM, hAgain, hPlain⟩
  have hHere := hAgain.of_alike hU.1
  rcases hC.exists_applies hSea₁ hHere with ⟨p', s', c', hApplies⟩
  have hY := hApplies.yields
  rcases hC.carries_of_apply hSea₁ ⟨rule, f, hHere⟩ hY with
    ⟨q, c₂, hRer, rfl, hCar'⟩
  have hHost : c₂.essence = g.essence := by
    rw [← hEss, essence_of_alike hU.1 hSea'.sound.unique,
      essence_of_alike hRer.unchanged.1 hSea₁.sound.unique]
  have hSea₂ := hSea₁.of_reranked hRer
  rcases hCar.agree hCar' hSea.sound hSea.acyclic hSea₂.sound hSea₂.acyclic
    hHost hPlain with ⟨hEnd, hStep⟩
  have hRule : q.found.rule = step.rule := by
    rcases carryOut_cases hCar.yields with ⟨_, _, _, -, -, -, rfl⟩
    exact congrArg (fun m => m.rule) hPlain
  have hIds : q.found.ids = step.removed.map Slot.toNat := by
    rcases carryOut_cases hCar.yields with ⟨_, _, _, -, -, -, rfl⟩
    rw [← Match.ids_plain, hPlain, Match.ids_plain]
    rfl
  exact ⟨c', ⟨_, q.found, _, c₁, hFnd, ⟨hM, hRule, hIds⟩, hY,
    congrArg (fun s => s.inserted) hStep, congrArg (fun s => s.touched) hStep⟩, hEnd⟩

theorem Repeats.exists_carries (hRepeats : rs.Repeats g step g') (hC : rs.Compiled)
    (hSea : g.Searchable) :
    ∃ p done g₁, g.Reranked g₁ ∧ rs.Carries g₁ p done g' ∧ done.rule = step.rule ∧
      done.removed.map Slot.toNat = step.removed.map Slot.toNat ∧
      done.inserted = step.inserted ∧ done.touched = step.touched := by
  rcases hRepeats with ⟨ms, m, done, g₁, hFnd, ⟨hM, hRule, hIds⟩, hApply, hInserted, hTouched⟩
  rcases hC.yields_findMatches hSea none with ⟨g₂, hFnd', -, hU⟩
  obtain ⟨rfl, rfl⟩ := hFnd.unique hFnd'
  have hRer := (Reads.findMatches rs none).reranked hFnd
  rcases mem_flatMap.mp hM with ⟨anchor, -, hThere⟩
  rcases (hC.finds_of_mem hSea.sound hThere).2.2 with ⟨rule, f, hFinds⟩
  rcases hC.carries_of_apply (hSea.of_reranked hRer)
    ⟨rule, f, hFinds.of_alike hU.1⟩ hApply with ⟨p, g₃, hPlanned, rfl, hCar⟩
  refine ⟨p, done, g₃, hRer.trans hPlanned, hCar, ?_, ?_, hInserted, hTouched⟩
  · rcases carryOut_cases hCar.yields with ⟨_, _, _, -, -, -, rfl⟩
    exact hRule
  · rcases carryOut_cases hCar.yields with ⟨_, _, _, -, -, -, rfl⟩
    exact hIds

theorem Repeats.of_essence (hRepeats : rs.Repeats g step g') (hC : rs.Compiled)
    (hSea : g.Searchable) (hSea' : c.Searchable) (hEss : c.essence = g.essence) :
    ∃ c', rs.Repeats c step c' ∧ c'.essence = g'.essence := by
  rcases hRepeats.exists_carries hC hSea with
    ⟨p, done, g₁, hRer, hCar, hRule, hRemoved, hInserted, hTouched⟩
  have hHost : c.essence = g₁.essence :=
    hEss.trans (essence_of_alike hRer.unchanged.1 hSea.sound.unique)
  rcases hCar.exists_repeats hC (hSea.of_reranked hRer) hSea' hHost with
    ⟨c', ⟨ms, m, again, c₁, hFnd, ⟨hM, hSame, hIds⟩, hApply, hInserted', hTouched'⟩, hEnd⟩
  exact ⟨c', ⟨ms, m, again, c₁, hFnd, ⟨hM, hSame.trans hRule, hIds.trans hRemoved⟩, hApply,
    hInserted'.trans hInserted, hTouched'.trans hTouched⟩, hEnd⟩

end RuleSet

end CircuitGraph
