import CircuitGraph.Proofs.Emission.Tracking
import CircuitGraph.Proofs.History.Calls

/-
  Circuits of graphs do what the graphs mean.

  If a graph is emitted in time, its circuit ends with the
  values that the graph gives, whatever true and false it is
  started on.

  Main declarations:
    * `Execution.Swaps`
    * `execute_toCircuit`
-/

---- Swaps ----

namespace CircuitGraph

open List

def Execution.Swaps {V : Type} {qubits : Nat} (E : Execution V qubits) : Prop :=
  ∀ j a s, E.run [⟨.swap, [.number j, .number a], [], none, none⟩] s =
    Function.update (Function.update s a (s j)) j (s a)

theorem Execution.Swaps.run_swapsBack {V : Type} {qubits : Nat} {E : Execution V qubits}
    (hSwaps : E.Swaps) (js lines : List Nat) (s : Nat → V) :
    (swapsBack js lines).2.map (E.run (swapsBack js lines).1 s) = lines.map s := by
  induction js generalizing lines s with
  | nil => rw [swapsBack, E.nil]
  | cons j js ih =>
    unfold swapsBack
    split
    · exact ih lines s
    · next a hLine =>
      split
      · exact ih lines s
      · next hNe =>
        dsimp only
        rw [← singleton_append, E.append, ih, exchange, map_map, hSwaps]
        apply map_congr_left
        intro n hM
        dsimp only [Function.comp]
        split
        · next hFirst => rw [Function.update_self, hFirst]
        · next hFirst =>
          split
          · next hSecond => rw [Function.update_of_ne hNe, Function.update_self, hSecond]
          · next hSecond => rw [Function.update_of_ne hSecond, Function.update_of_ne hFirst]

theorem runAll_swapsBack (qubits : Nat) (js lines : List Nat) (s : Nat → Bool) :
    (swapsBack js lines).2.map (Operation.runAll qubits (swapsBack js lines).1 s) = lines.map s :=
  Execution.Swaps.run_swapsBack (E := .classical qubits) (fun _ _ _ => rfl) js lines s

---- Circuits ----

namespace Graph

variable {K : Type} {g : Graph K}

theorem circuitShaped_iff : g.circuitShaped = true ↔
      g.inputs = g.outputs ∧ WireType.bool ∉ g.inputs ∧
        g.inputs.take (g.inputs.count .qubit) = List.replicate (g.inputs.count .qubit) .qubit := by
  simp [circuitShaped, and_assoc]

theorem carried_of_circuitShaped (hShaped : g.circuitShaped = true) :
    Carried (g.inputs.count .qubit) g.inputs ((List.range g.inputs.length).map Line.plain) := by
  rcases circuitShaped_iff.mp hShaped with ⟨-, hLin, hFront⟩
  -- All qubits stand in front, so that none is left behind them.
  have hBehind : WireType.qubit ∉ g.inputs.drop (g.inputs.count .qubit) := by
    have hCount : (g.inputs.take (g.inputs.count .qubit)).count .qubit +
        (g.inputs.drop (g.inputs.count .qubit)).count .qubit = g.inputs.count .qubit := by
      rw [← count_append, take_append_drop]
    rw [hFront, count_replicate_self] at hCount
    rw [← count_eq_zero]
    omega
  refine ⟨forall₂_iff_get.mpr ⟨by simp, fun i hL hR => ?_⟩, ?_⟩
  · rw [get_eq_getElem, get_eq_getElem, getElem_map, getElem_range]
    by_cases hFirst : i < g.inputs.count .qubit
    · have hTake : (g.inputs.take (g.inputs.count .qubit))[i]? = g.inputs[i]? :=
        getElem?_take_of_lt hFirst
      rw [hFront, getElem?_replicate_of_lt hFirst, getElem?_eq_getElem hL, Option.some_inj] at hTake
      rw [← hTake]
      exact hFirst
    · rw [Nat.not_lt] at hFirst
      have hM : g.inputs[i] ∈ g.inputs.drop (g.inputs.count .qubit) := by
        apply mem_of_getElem? (i := i - g.inputs.count .qubit)
        rw [getElem?_drop, Nat.add_sub_cancel' hFirst, getElem?_eq_getElem hL]
      cases hType : g.inputs[i] with
      | qubit => exact (hBehind (hType ▸ hM)).elim
      | bit => exact hFirst
      | bool => exact (hLin (hType ▸ getElem_mem hL)).elim
  · intro i j n hLine hLine'
    rw [getElem?_map] at hLine hLine'
    rcases Option.map_eq_some_iff.mp hLine with ⟨k, hPlace, hSame⟩
    rcases Option.map_eq_some_iff.mp hLine' with ⟨k', hPlace', hSame'⟩
    cases hSame
    cases hSame'
    have hIndex : ∀ i, (List.range g.inputs.length)[i]? = some n → i = n := by
      intro i hHere
      rcases List.getElem?_eq_some_iff.mp hHere with ⟨hBound, rfl⟩
      rw [getElem_range]
    rw [hIndex i hPlace, hIndex j hPlace']

theorem exists_of_toCircuit {c : Circuit} (hCircuit : g.toCircuit = .ok c) :
    g.circuitShaped = true ∧ ∃ ops outs,
      g.linearize (g.inputs.count .qubit) ((List.range g.inputs.length).map Line.plain) none =
        .ok (ops, outs) ∧
      (swapsBack (List.range (g.inputs.count .qubit)) (outs.map Line.number)).2 =
        List.range g.inputs.length ∧
      c.qubits = .whole (g.inputs.count .qubit) ∧
      c.ops = ops ++ (swapsBack (List.range (g.inputs.count .qubit)) (outs.map Line.number)).1 := by
  have hSize : g.inputs.count .qubit + (g.inputs.length - g.inputs.count .qubit) =
      g.inputs.length := Nat.add_sub_cancel' count_le_length
  rw [toCircuit] at hCircuit
  simp only [hSize] at hCircuit
  split at hCircuit
  · cases hCircuit
  · next hShaped =>
    refine ⟨by simpa using hShaped, ?_⟩
    rcases bind_eq_ok_iff.mp hCircuit with ⟨⟨ops, outs⟩, hEmit, hRest⟩
    split at hRest
    · cases hRest
    · next hBack =>
      cases hRest
      exact ⟨ops, outs, hEmit, not_not.mp hBack, rfl, rfl⟩

end Graph

theorem map_getD_range (xs : List Bool) :
    (List.range xs.length).map (fun n => xs.getD n false) = xs := by
  apply ext_getElem?
  intro i
  rw [getElem?_map]
  by_cases hBound : i < xs.length <;> simp [hBound]

/-
  The circuit of a graph that is emitted in time ends with the
  values that the graph gives.
-/
theorem execute_toCircuit
    {K : Type}
    {g : Graph K}
    {c : Circuit}
    {xs : List Bool}
    (hIntact : g.Intact)
    (hValid : g.validate = .ok ())
    (hCircuit : g.toCircuit = .ok c)
    (hTimely : g.timely (g.inputs.count .qubit) ((List.range g.inputs.length).map Line.plain) =
      true)
    (hLength : xs.length = g.inputs.length) :
    c.execute xs = g.meaning .classical xs := by
  rcases Graph.exists_of_toCircuit hCircuit with
    ⟨hShaped, ops, outs, hEmitted, hBack, hQubits, hOps⟩
  have hFormed : g.WellFormed := hIntact.validate_ok_iff.mp hValid
  have hComputes := hIntact.linearize_computes hFormed (Graph.carried_of_circuitShaped hShaped)
    hTimely hEmitted
  have hStart : readLines (fun n => xs.getD n false)
      ((List.range g.inputs.length).map Line.plain) = xs := by
    rw [readLines, map_map, ← hLength]
    exact map_getD_range xs
  have hCount : c.qubits.natural?.getD 0 = g.inputs.count .qubit := by
    rw [hQubits]
    rfl
  have hSwaps := runAll_swapsBack (g.inputs.count .qubit) (List.range (g.inputs.count .qubit))
    (outs.map Line.number)
    (Operation.runAll (g.inputs.count .qubit) ops (fun n => xs.getD n false))
  rw [hBack] at hSwaps
  calc c.execute xs
      = (List.range g.inputs.length).map (Operation.runAll (g.inputs.count .qubit) c.ops
          (fun n => xs.getD n false)) := by rw [Circuit.execute, hLength, hCount]
    _ = (outs.map Line.number).map (Operation.runAll (g.inputs.count .qubit) ops
          (fun n => xs.getD n false)) := by
        rw [← hSwaps, hOps]
        apply map_congr_left
        intro n hMem
        rw [Operation.runAll_append]
    _ = readLines (Operation.runAll (g.inputs.count .qubit) ops (fun n => xs.getD n false)) outs :=
        map_map
    _ = g.meaning .classical xs := by rw [← hComputes.values, hStart]

def wireCall (src dst : Nat × Nat) : GraphCall ℚ :=
  .connect ⟨.output, .whole src.1, .whole src.2⟩ ⟨.input, .whole dst.1, .whole dst.2⟩

def inverter : Graph ℚ :=
  (Graph.empty [.qubit] [.qubit]).after
    [.addNode .x [] none, wireCall (0, 0) (2, 0), wireCall (2, 0) (1, 0)]

/-
  Two qubits and a bit.  The bit is read, and the second qubit
  is inverted if it was set; the first qubit is measured into
  the bit.  The ids of the condition and of the measurement
  are 3 and 4, or the other way round.
-/
def readAndMeasure (conditional measure : Nat) : Graph ℚ :=
  (Graph.empty [.qubit, .qubit, .bit] [.qubit, .qubit, .bit]).after
    ([.addNode .readBit [] none] ++
      (if conditional < measure then
        [.addNode .conditional [] (some inverter), .addNode .measure [] none]
      else [.addNode .measure [] none, .addNode .conditional [] (some inverter)]) ++
      [wireCall (0, 2) (2, 0), wireCall (2, 0) (measure, 1), wireCall (0, 0) (measure, 0),
        wireCall (2, 1) (conditional, 0), wireCall (0, 1) (conditional, 1),
        wireCall (measure, 0) (1, 0), wireCall (conditional, 0) (1, 1),
        wireCall (measure, 1) (1, 2)])

/-
  Two qubits and a bit, with a body on all three under the
  condition that the bit is set.
-/
def underBit (body : Graph ℚ) : Graph ℚ :=
  (Graph.empty [.qubit, .qubit, .bit] [.qubit, .qubit, .bit]).after
    [.addNode .readBit [] none, .addNode .conditional [] (some body),
      wireCall (0, 2) (2, 0), wireCall (2, 1) (3, 0), wireCall (0, 0) (3, 1),
      wireCall (0, 1) (3, 2), wireCall (2, 0) (3, 3), wireCall (3, 0) (1, 0),
      wireCall (3, 1) (1, 1), wireCall (3, 2) (1, 2)]

def crossing : Graph ℚ :=
  (Graph.empty [.qubit, .qubit, .bit] [.qubit, .qubit, .bit]).after
    [wireCall (0, 0) (1, 1), wireCall (0, 1) (1, 0), wireCall (0, 2) (1, 2)]

def measureAndInvert : Graph ℚ :=
  (Graph.empty [.qubit, .qubit, .bit] [.qubit, .qubit, .bit]).after
    [.addNode .measure [] none, .addNode .x [] none, wireCall (0, 0) (2, 0),
      wireCall (0, 2) (2, 1), wireCall (0, 1) (3, 0), wireCall (2, 0) (1, 0),
      wireCall (3, 0) (1, 1), wireCall (2, 1) (1, 2)]

def GraphCall.Builds {K : Type} [Scalar K] : GraphCall K → Prop
  | addNode _ _ body => ∀ b, body = some b → b.Reachable
  | connect _ _ => True
  | _ => False

theorem Graph.Reachable.after_builds {K : Type} [Scalar K] {g : Graph K} (hReach : g.Reachable)
    {calls : List (GraphCall K)} (hBuilds : ∀ call ∈ calls, call.Builds) :
    (g.after calls).Reachable := by
  induction calls generalizing g with
  | nil => exact hReach
  | cons call calls ih =>
    refine ih ?_ (fun later hLater => hBuilds later (mem_cons_of_mem call hLater))
    have hCall := hBuilds call mem_cons_self
    cases call with
    | addNode kind params body =>
      rw [GraphCall.run, outcome_map_snd]
      exact hReach.addNode kind _ (.inr rfl) hCall
    | connect src dst =>
      rw [GraphCall.run, outcome_map_snd]
      exact hReach.connect src dst
    | _ => exact hCall.elim

theorem inverter_reachable : inverter.Reachable :=
  (Graph.Reachable.empty _ _).after_builds (by simp [GraphCall.Builds, wireCall])

theorem readAndMeasure_reachable (conditional measure : Nat) :
    (readAndMeasure conditional measure).Reachable := by
  refine (Graph.Reachable.empty _ _).after_builds ?_
  split <;> simp [GraphCall.Builds, wireCall, inverter_reachable]

theorem underBit_reachable {body : Graph ℚ} (hB : body.Reachable) : (underBit body).Reachable :=
  (Graph.Reachable.empty _ _).after_builds (by simp [GraphCall.Builds, wireCall, hB])

theorem crossing_reachable : crossing.Reachable :=
  (Graph.Reachable.empty _ _).after_builds (by simp [GraphCall.Builds, wireCall])

theorem measureAndInvert_reachable : measureAndInvert.Reachable :=
  (Graph.Reachable.empty _ _).after_builds (by simp [GraphCall.Builds, wireCall])

/- The condition comes first, and the circuit does what the graph means. -/
theorem execute_toCircuit_late_measurement :
    ∃ c, (readAndMeasure 3 4).Intact ∧ (readAndMeasure 3 4).validate = .ok () ∧
      (readAndMeasure 3 4).toCircuit = .ok c ∧
      (readAndMeasure 3 4).timely 2 [.plain 0, .plain 1, .plain 2] = true ∧
      c.execute [false, true, true] =
        (readAndMeasure 3 4).meaning .classical [false, true, true] := by
  have hIntact : (readAndMeasure 3 4).Intact := (readAndMeasure_reachable _ _).intact
  have hValid : (readAndMeasure 3 4).validate.toOption.any (fun _ => true) = true := by
    decide +kernel
  have hCircuit : (readAndMeasure 3 4).toCircuit.toOption.any (fun _ => true) = true := by
    decide +kernel
  rcases exists_of_toOption_any hValid with ⟨_, hValid, -⟩
  rcases exists_of_toOption_any hCircuit with ⟨c, hCircuit, -⟩
  have hTimely : (readAndMeasure 3 4).timely 2 [.plain 0, .plain 1, .plain 2] = true := by
    decide +kernel
  exact ⟨c, hIntact, hValid, hCircuit, hTimely,
    execute_toCircuit hIntact hValid hCircuit (by decide +kernel) (by decide +kernel)⟩

def Graph.Diverges {K : Type} (g : Graph K) (xs : List Bool) : Prop :=
  g.Intact ∧ g.validate = .ok () ∧ xs.length = g.inputs.length ∧
    ∃ c, g.toCircuit = .ok c ∧ c.execute xs ≠ g.meaning .classical xs

theorem Graph.Intact.diverges {K : Type} {g : Graph K} {xs : List Bool} (hI : g.Intact)
    (hValid : g.validate.toOption.any (fun _ => true) = true)
    (hLen : xs.length = g.inputs.length)
    (hCircuit : g.toCircuit.toOption.any (fun c => c.execute xs != g.meaning .classical xs) =
      true) : g.Diverges xs := by
  rcases exists_of_toOption_any hValid with ⟨_, hValid, -⟩
  rcases exists_of_toOption_any hCircuit with ⟨c, hCircuit, hOther⟩
  exact ⟨hI, hValid, hLen, c, hCircuit, bne_iff_ne.mp hOther⟩

/-
  Three ways to miss the time: the bit is measured into between
  the reading of it and the condition; a body crosses lines,
  which the circuit does under no condition; a body writes the
  bit of its own condition before it is done.
-/
theorem execute_toCircuit_ne_meaning :
    (readAndMeasure 4 3).Diverges [true, false, false] ∧
      (underBit crossing).Diverges [true, false, false] ∧
      (underBit measureAndInvert).Diverges [false, false, true] := by
  have hEarly : (readAndMeasure 4 3).Intact := (readAndMeasure_reachable _ _).intact
  have hCrossing : (underBit crossing).Intact :=
    (underBit_reachable crossing_reachable).intact
  have hMeasuring : (underBit measureAndInvert).Intact :=
    (underBit_reachable measureAndInvert_reachable).intact
  exact ⟨hEarly.diverges (by decide +kernel) (by decide +kernel) (by decide +kernel),
    hCrossing.diverges (by decide +kernel) (by decide +kernel) (by decide +kernel),
    hMeasuring.diverges (by decide +kernel) (by decide +kernel) (by decide +kernel)⟩

end CircuitGraph
