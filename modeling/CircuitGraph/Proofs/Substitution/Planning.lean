import CircuitGraph.Proofs.Match.Live

/-
  What a plan joins.

  A plan for a live match has the places that feed the inputs
  of the occurrence, and for each of its outputs the places
  outside that it leads to.
-/

---- Sources ----

namespace CircuitGraph

open List

variable {K : Type}

/- Whether a plan has the places of a host at the boundary of an occurrence. -/
structure Plan.Joins (p : Plan) (pattern host : Graph K) (f : Nat → Nat) : Prop where
  sources : ∀ i < pattern.inputs.length, ∃ pin, p.sources[i]? = some pin ∧
    ∀ n j, pattern.Wired (inputId, i) (n, j) → host.Wired pin.place (f n, j)
  width : p.sources.length = pattern.inputs.length
  count : p.consumers.length = pattern.outputs.length
  consumers : ∀ j < pattern.outputs.length, ∃ pins, p.consumers[j]? = some pins ∧
    (pins.map Pin.place).Nodup ∧ ∀ d, d ∈ pins.map Pin.place ↔
      ∃ q, pattern.Wired q (outputId, j) ∧ host.Wired (f q.1, q.2) d ∧ ¬ pattern.InImage f d.1

namespace RuleSet

variable {rule : Rule K} {g : Graph K} {m : Match} {f : Nat → Nat}

section

variable (hUse : rule.Usable) (hS : g.Sound) (hOcc : rule.pattern.Occurs g f)
  (hStands : m.Stands rule.pattern f)

include hUse hS hOcc hStands

theorem exists_source {i : Nat} (hLt : i < rule.pattern.inputs.length) :
    ∃ pin src t, m.inputs[i]? = some [pin] ∧ g.source? pin.node pin.index = some src ∧
      g.carriedType? src = some t ∧ rule.replacement.inputs[i]? = some t ∧
      ∀ n j, rule.pattern.Wired (inputId, i) (n, j) → g.Wired src.place (f n, j) := by
  have hPat := hUse.pattern.sound
  rcases hUse.isPattern.exists_inputPin (congrArg Prod.fst hStands.places) hLt with
    ⟨q, pin, hTargets, hN, hPin, hPlace⟩
  have hEntry : rule.pattern.Wired (inputId, i) (q.node, q.index) :=
    Graph.wired_iff_mem_targets.mpr ⟨q, by rw [hTargets]; exact mem_singleton_self q, rfl⟩
  rcases hOcc.fed i q.node hN q.index hEntry with ⟨src, hW, -⟩
  rcases hS.wired_iff_source?.mp hW with ⟨srcPin, hSrc, rfl⟩
  rcases hS.wired_types hW with ⟨t, hOut, hIn⟩
  rcases hPat.wired_types hEntry with ⟨t', hOut', hIn'⟩
  have hSig := hPat.signatureOf_fitting hUse.isPattern hS hN (hOcc.kind q.node hN)
  have hSame : t = t' := by
    rw [Graph.inType?, hSig] at hIn
    exact eq_of_some hIn hIn'
  refine ⟨pin, srcPin, t, hPin, ?_, hOut, ?_, ?_⟩
  · rw [show pin.node = f q.node from congrArg Prod.fst hPlace,
      show pin.index = q.index from congrArg Prod.snd hPlace, hSrc]
  · rw [hUse.inputs, hSame]
    simpa [Graph.outType?] using hOut'
  · intro n j hOther
    rcases Graph.wired_iff_mem_targets.mp hOther with ⟨r, hTarget, hEq⟩
    rw [hTargets, mem_singleton] at hTarget
    subst hTarget
    rw [← show imagePlace f r = (f n, j) from imagePlace_of_place hEq]
    exact hW

theorem exists_sources : ∃ pins sources, m.inputs.mapM (boundarySource g) = .ok pins ∧
      pins.mapM (sourceType g) = .ok sources ∧
      sources.map Prod.snd = rule.replacement.inputs ∧
      ∀ i < rule.pattern.inputs.length, ∃ src, (sources.map Prod.fst)[i]? = some src ∧
        ∀ n j, rule.pattern.Wired (inputId, i) (n, j) → g.Wired src.place (f n, j) := by
  have hLen : m.inputs.length = rule.pattern.inputs.length := by
    simpa [Match.places, Graph.imageBoundary] using
      congrArg (fun places => places.1.length) hStands.places
  have hAt := fun i hLt => exists_source hUse hS hOcc hStands (i := i) hLt
  have hPins : ∀ ps ∈ m.inputs, ∃ y, boundarySource g ps = .ok y := by
    intro ps hM
    rcases getElem?_of_mem hM with ⟨i, hGet⟩
    rcases hAt i (hLen ▸ (lt_of_getElem? hGet)) with ⟨pin, src, t, hPin, -⟩
    obtain rfl := eq_of_some hGet hPin
    exact ⟨_, rfl⟩
  rcases exists_mapM_eq_ok hPins with ⟨pins, hPins⟩
  -- the pin found at each input
  have hFnd : ∀ i < rule.pattern.inputs.length, ∃ src t, pins[i]? = some (some src) ∧
      sourceType g (some src) = .ok (src, t) ∧ rule.replacement.inputs[i]? = some t ∧
      ∀ n j, rule.pattern.Wired (inputId, i) (n, j) → g.Wired src.place (f n, j) := by
    intro i hLt
    rcases hAt i hLt with ⟨pin, src, t, hPin, hSrc, hType, hInput, hFeeds⟩
    rcases getElem?_of_mapM hPins hPin with ⟨y, hY, hStep⟩
    rw [boundarySource, hSrc] at hStep
    obtain rfl := Except.ok.inj hStep
    exact ⟨src, t, hY, by simp [sourceType, hType], hInput, hFeeds⟩
  have hSrcs : ∀ pin ∈ pins, ∃ y, sourceType g pin = .ok y := by
    intro pin hM
    rcases getElem?_of_mem hM with ⟨i, hGet⟩
    have hLt := lt_of_getElem? hGet
    rw [length_of_mapM hPins, hLen] at hLt
    rcases hFnd i hLt with ⟨src, t, hPin, hStep, -⟩
    obtain rfl := eq_of_some hGet hPin
    exact ⟨_, hStep⟩
  rcases exists_mapM_eq_ok hSrcs with ⟨sources, hSrcs⟩
  have hEach : ∀ i < rule.pattern.inputs.length, ∃ src t, sources[i]? = some (src, t) ∧
      rule.replacement.inputs[i]? = some t ∧
      ∀ n j, rule.pattern.Wired (inputId, i) (n, j) → g.Wired src.place (f n, j) := by
    intro i hLt
    rcases hFnd i hLt with ⟨src, t, hPin, hStep, hInput, hFeeds⟩
    rcases getElem?_of_mapM hSrcs hPin with ⟨y, hY, hStep'⟩
    obtain rfl := eq_of_ok hStep hStep'
    exact ⟨src, t, hY, hInput, hFeeds⟩
  have hCount : sources.length = rule.pattern.inputs.length := by
    rw [length_of_mapM hSrcs, length_of_mapM hPins, hLen]
  refine ⟨pins, sources, hPins, hSrcs, ?_, fun i hLt => ?_⟩
  · refine ext_getElem? (fun i => ?_)
    rw [getElem?_map]
    by_cases hLt : i < rule.pattern.inputs.length
    · rcases hEach i hLt with ⟨src, t, hSrc, hInput, -⟩
      rw [hSrc, hInput]
      rfl
    · rw [getElem?_eq_none (by omega), getElem?_eq_none (by rw [hUse.inputs]; omega)]
      rfl
  · rcases hEach i hLt with ⟨src, t, hSrc, -, hFeeds⟩
    exact ⟨src, by rw [getElem?_map, hSrc]; rfl, hFeeds⟩

end

end RuleSet

---- Plans ----

namespace RuleSet

variable {rule : Rule K} {g : Graph K} {m : Match} {f : Nat → Nat}

theorem exists_consumers (hUse : rule.Usable) (hS : g.Sound)
    (hStands : m.Stands rule.pattern f) {j : Nat} (hLt : j < rule.pattern.outputs.length) :
    ∃ pins, (m.outputs.map (boundaryConsumers g m))[j]? = some pins ∧
      (pins.map Pin.place).Nodup ∧ ∀ d, d ∈ pins.map Pin.place ↔
        ∃ q, rule.pattern.Wired q (outputId, j) ∧ g.Wired (f q.1, q.2) d ∧
          ¬ rule.pattern.InImage f d.1 := by
  have hPat := hUse.pattern.sound
  rcases hUse.isPattern.exists_outputPin (congrArg Prod.snd hStands.places) hLt with
    ⟨q, pin, hSrc, hN, hPin, hPlace⟩
  have hExit : rule.pattern.Wired q.place (outputId, j) :=
    hPat.wired_iff_source?.mpr ⟨q, hSrc, rfl⟩
  refine ⟨boundaryConsumers g m pin, by rw [getElem?_map, hPin]; rfl, ?_, fun d => ?_⟩
  · exact (hS.targets_nodup _ _).sublist (filter_sublist.map _)
  · have hCovers : ∀ t, Slot.covers m.nodes t = true ↔ rule.pattern.InImage f t := by
      intro t
      rw [Slot.covers_iff]
      exact hStands.mem_ids_iff
    simp only [boundaryConsumers, mem_map, mem_filter, Bool.not_eq_true',
      ← Bool.not_eq_true, hCovers]
    rw [show pin.node = f q.node from congrArg Prod.fst hPlace,
      show pin.index = q.index from congrArg Prod.snd hPlace]
    constructor
    · rintro ⟨t, ⟨hTarget, hOut⟩, rfl⟩
      exact ⟨q.place, hExit, Graph.wired_iff_mem_targets.mpr ⟨t, hTarget, rfl⟩, hOut⟩
    · rintro ⟨r, hOther, hW, hOut⟩
      obtain rfl := hPat.source_unique hOther hExit
      rcases Graph.wired_iff_mem_targets.mp hW with ⟨t, hTarget, rfl⟩
      exact ⟨t, ⟨hTarget, hOut⟩, rfl⟩

variable [Scalar K] {rs : RuleSet K}

theorem exists_plan (hUse : rule.Usable) (hRule : rs.rules[m.rule]? = some rule)
    (hS : g.Sound) (hOcc : rule.pattern.Occurs g f) (hStands : m.Stands rule.pattern f)
    {g' : Graph K} (hLive : Yields (rs.isLive m) g true g') :
    ∃ p, Yields (rs.plan m) g p g' ∧ p.found = m ∧ p.version = g'.version ∧
      p.Joins rule.pattern g' f := by
  have hA := ((Reads.isLive rs m).unchanged hLive).1
  have hS' := hS.of_alike hA
  rcases exists_sources hUse hS' (hOcc.of_alike hA) hStands with
    ⟨pins, sources, hPins, hSrcs, hTypes, hFeeds⟩
  have hWidth : (sources.map Prod.fst).length = rule.pattern.inputs.length := by
    rw [length_map, ← length_map (f := Prod.snd), hTypes, hUse.inputs]
  have hCount : (m.outputs.map (boundaryConsumers g' m)).length = rule.pattern.outputs.length := by
    rw [length_map]
    exact hUse.isPattern.length_outputPins (congrArg Prod.snd hStands.places)
  refine ⟨⟨m, sources.map Prod.fst, m.outputs.map (boundaryConsumers g' m), g'.version⟩, ?_, rfl,
    rfl, hFeeds, hWidth, hCount, fun j hLt => exists_consumers hUse hS' hStands hLt⟩
  exact yields_plan_iff.mpr
    ⟨hLive, rule, pins, sources, rule_eq_ok_iff.mpr hRule, hPins, hSrcs, hTypes, rfl⟩

theorem Compiled.plan_spec (hC : rs.Compiled) (hS : g.Sound) {p : Plan} {g' : Graph K}
    (hPlan : Yields (rs.plan m) g p g') : g.Unchanged g' ∧ p.found = m ∧ p.version = g'.version ∧
      ∃ rule f, rs.rules[m.rule]? = some rule ∧ rule.Usable ∧ rule.pattern.Occurs g' f ∧
        m.Stands rule.pattern f ∧ p.Joins rule.pattern g' f := by
  have hU := (Reads.plan rs m).unchanged hPlan
  have hLive := (yields_plan_iff.mp hPlan).1
  rcases hC.occurs_of_isLive hS hLive with ⟨rule, f, hRule, hUse, hOcc, hStands⟩
  rcases exists_plan hUse hRule hS hOcc hStands hLive with
    ⟨p', hPlan', hFnd, hVer, hJoins⟩
  obtain ⟨rfl, -⟩ := hPlan.unique hPlan'
  exact ⟨hU, hFnd, hVer, rule, f, hRule, hUse, hOcc.of_alike hU.1, hStands, hJoins⟩

end RuleSet

end CircuitGraph
