import CircuitGraph.Proofs.Match.Rule

/-
  Where a pattern occurs.

  A pattern occurs in a host under a map of its operations if
  kinds, parameters and wires agree, if every input of the
  pattern is fed from outside the image, and if what leaves
  the image leaves it at the outputs of the pattern.
-/

---- Occurrences ----

namespace CircuitGraph

open List

variable {K : Type} {n i m : Nat} {nodes : List Nat} {binding : List Slot} {pins : List Pin}

def imagePlace (f : Nat → Nat) (q : Pin) : Nat × Nat :=
  (f q.node, q.index)

theorem imagePlace_of_place {f : Nat → Nat} {q : Pin} (hPlace : q.place = (n, i)) :
    imagePlace f q = (f n, i) := by
  rw [imagePlace, show q.node = n from congrArg Prod.fst hPlace,
    show q.index = i from congrArg Prod.snd hPlace]

namespace Graph

def InImage (pattern : Graph K) (f : Nat → Nat) (m : Nat) : Prop :=
  ∃ n ∈ pattern.opIds, f n = m

def FedOutside (pattern host : Graph K) (f : Nat → Nat) : Prop :=
  ∀ i, ∀ m ∈ pattern.opIds, ∀ j, pattern.Wired (inputId, i) (m, j) →
    ∃ src, host.Wired src (f m, j) ∧ ¬ pattern.InImage f src.1

def ClosedOff (pattern host : Graph K) (f : Nat → Nat) : Prop :=
  ∀ n ∈ pattern.opIds, ∀ i, (∀ j, ¬ pattern.Wired (n, i) (outputId, j)) →
    ∀ dst, host.Wired (f n, i) dst → pattern.InImage f dst.1

/- Whether a map takes the operations of a pattern to a part of a host that is like it. -/
structure Occurs (pattern host : Graph K) (f : Nat → Nat) : Prop where
  operation : ∀ n ∈ pattern.opIds, f n ∈ host.opIds
  injective : ∀ n ∈ pattern.opIds, ∀ m ∈ pattern.opIds, f n = f m → n = m
  kind : ∀ n ∈ pattern.opIds, host.kindOf? (f n) = pattern.kindOf? n
  params : ∀ n ∈ pattern.opIds,
    paramsMatch (Param.values (pattern.paramsOf n)) (Param.values (host.paramsOf (f n))) = true
  wired : ∀ n ∈ pattern.opIds, ∀ m ∈ pattern.opIds, ∀ i j,
    pattern.Wired (n, i) (m, j) → host.Wired (f n, i) (f m, j)
  fed : pattern.FedOutside host f
  closed : pattern.ClosedOff host f

def imageBoundary (pattern : Graph K) (f : Nat → Nat) :
    List (List (Nat × Nat)) × List (Nat × Nat) :=
  ((List.range pattern.inputs.length).map (fun i =>
      (pattern.targets inputId i).map (imagePlace f)),
    (List.range pattern.outputs.length).filterMap (fun j =>
      (pattern.source? outputId j).map (imagePlace f)))

end Graph

---- Pins of Bindings ----

namespace Pattern

variable {f : Nat → Nat}

section

variable (hIds : idsOf binding = nodes.map f)

include hIds

theorem exists_pinAt {q : Pin} {s : Spot} (hSpot : spot nodes q = .ok s) :
    ∃ pin, pinAt binding s = .ok pin ∧ pin.place = imagePlace f q := by
  unfold spot at hSpot
  split at hSpot
  · rename_i var hFnd
    obtain rfl := Except.ok.inj hSpot
    rcases idxOf?_eq_some_iff.mp hFnd with ⟨hLt, hEq, -⟩
    have hN : nodes[var]? = some q.node := by
      rw [getElem?_eq_getElem hLt]
      simpa using hEq
    have hBound : binding[var]?.map Slot.toNat = some (f q.node) := by
      rw [← getElem?_idsOf, hIds, getElem?_map, hN, Option.map_some]
    rcases Option.map_eq_some_iff.mp hBound with ⟨owner, hOwner, hId⟩
    refine ⟨⟨owner, q.slot⟩, by simp [pinAt, hOwner], ?_⟩
    rw [Pin.place, Pin.node, hId]
    rfl
  · simp at hSpot

theorem exists_mapM_pinAt {spots : List Spot} (hSpots : pins.mapM (spot nodes) = .ok spots) :
    ∃ images, spots.mapM (pinAt binding) = .ok images ∧
      images.map Pin.place = pins.map (imagePlace f) := by
  induction mapM_eq_ok_iff.mp hSpots with
  | nil => exact ⟨[], rfl, rfl⟩
  | cons hHead hTail ih =>
    rcases exists_pinAt hIds hHead with ⟨pin, hPin, hPlace⟩
    rcases ih (mapM_eq_ok_iff.mpr hTail) with ⟨images, hImages, hPlaces⟩
    refine ⟨pin :: images, mapM_eq_ok_iff.mpr (.cons hPin (mapM_eq_ok_iff.mp hImages)), ?_⟩
    rw [map_cons, map_cons, hPlace, hPlaces]

theorem exists_inputPins {targets : Nat → List Pin} {places : List Nat} {spots : List (List Spot)}
    (hSpots : places.mapM (fun i => (targets i).mapM (spot nodes)) = .ok spots) :
    ∃ images, spots.mapM (fun ss => ss.mapM (pinAt binding)) = .ok images ∧
      images.map (fun pins => pins.map Pin.place) =
        places.map (fun i => (targets i).map (imagePlace f)) := by
  induction mapM_eq_ok_iff.mp hSpots with
  | nil => exact ⟨[], rfl, rfl⟩
  | cons hHead hTail ih =>
    rcases exists_mapM_pinAt hIds hHead with ⟨pins, hPins, hPlaces⟩
    rcases ih (mapM_eq_ok_iff.mpr hTail) with ⟨images, hImages, hRest⟩
    refine ⟨pins :: images, mapM_eq_ok_iff.mpr (.cons hPins (mapM_eq_ok_iff.mp hImages)), ?_⟩
    rw [map_cons, map_cons, hPlaces, hRest]

theorem exists_outputPins {pattern : Graph K} {places : List Nat} {spots : List Spot}
    (hSpots : places.mapM (outputSpot pattern nodes) = .ok spots) :
    ∃ images, spots.mapM (pinAt binding) = .ok images ∧ images.map Pin.place =
        places.filterMap (fun j => (pattern.source? outputId j).map (imagePlace f)) := by
  induction mapM_eq_ok_iff.mp hSpots with
  | nil => exact ⟨[], rfl, rfl⟩
  | @cons j s js ss hHead hTail ih =>
    unfold outputSpot at hHead
    split at hHead
    · rename_i q hSrc
      rcases exists_pinAt hIds hHead with ⟨pin, hPin, hPlace⟩
      rcases ih (mapM_eq_ok_iff.mpr hTail) with ⟨images, hImages, hPlaces⟩
      refine ⟨pin :: images, mapM_eq_ok_iff.mpr (.cons hPin (mapM_eq_ok_iff.mp hImages)), ?_⟩
      rw [map_cons, filterMap_cons, hSrc, hPlace, hPlaces]
      rfl
    · simp at hHead

end

---- Checks of the Boundary ----

variable {host : Graph K}

theorem fedFromOutside_singleton_iff (hS : host.Sound) {ids : List Nat} {pin : Pin} :
    fedFromOutside host ids [pin] = true ↔ ∃ src, host.Wired src pin.place ∧ src.1 ∉ ids := by
  unfold fedFromOutside
  rw [map_cons, map_nil]
  cases hSrc : host.source? pin.node pin.index with
  | none =>
    simp only [Bool.false_eq_true, false_iff]
    rintro ⟨src, hW, -⟩
    rcases hS.wired_iff_source?.mp hW with ⟨p, hFnd, -⟩
    rw [hSrc] at hFnd
    exact absurd hFnd (by simp)
  | some p =>
    have hW : host.Wired p.place pin.place := hS.wired_iff_source?.mpr ⟨p, hSrc, rfl⟩
    simp only [all_nil, Bool.true_and, Bool.not_eq_true', contains_eq_mem, decide_eq_false_iff_not]
    constructor
    · exact fun hOut => ⟨p.place, hW, hOut⟩
    · rintro ⟨src, hOther, hOut⟩
      rwa [hS.source_unique hOther hW] at hOut

theorem feedsOutside_iff {ids : List Nat} :
    feedsOutside host ids n i = true ↔ ∃ dst, host.Wired (n, i) dst ∧ dst.1 ∉ ids := by
  simp only [feedsOutside, any_eq_true, Bool.not_eq_true', contains_eq_mem, decide_eq_false_iff_not]
  constructor
  · rintro ⟨p, hMem, hOut⟩
    exact ⟨p.place, Graph.wired_iff_mem_targets.mpr ⟨p, hMem, rfl⟩, hOut⟩
  · rintro ⟨dst, hW, hOut⟩
    rcases Graph.wired_iff_mem_targets.mp hW with ⟨p, hMem, rfl⟩
    exact ⟨p, hMem, hOut⟩

theorem exists_isClosed (host : Graph K) (ids : List Nat) (exposed : List Pin) (nodes : List Nat)
    (f arity : Nat → Nat) :
    ∃ answer, isClosed host ids exposed (nodes.map f) (nodes.map arity) = .ok answer ∧
      (answer = true ↔ ∀ n ∈ nodes, ∀ i < arity n, (f n, i) ∉ exposed.map Pin.place →
        ∀ dst, host.Wired (f n, i) dst → dst.1 ∈ ids) := by
  induction nodes with
  | nil => exact ⟨true, rfl, by simp⟩
  | cons n nodes ih =>
    rcases ih with ⟨answer, hRest, hAnswer⟩
    have hLeaks : ((List.range (arity n)).any (fun i =>
        !exposed.any (Pin.of (f n) i).same && feedsOutside host ids (f n) i)) = true ↔
        ¬ ∀ i < arity n, (f n, i) ∉ exposed.map Pin.place →
          ∀ dst, host.Wired (f n, i) dst → dst.1 ∈ ids := by
      have hExposed : ∀ i, exposed.any (Pin.of (f n) i).same = true ↔
          (f n, i) ∈ exposed.map Pin.place := by
        intro i
        simp only [any_eq_true, Pin.same, beq_iff_eq, mem_map]
        exact exists_congr (fun q => and_congr_right (fun _ => eq_comm))
      simp only [any_eq_true, mem_range, Bool.and_eq_true, Bool.not_eq_true',
        ← Bool.not_eq_true, hExposed, feedsOutside_iff]
      push Not
      exact Iff.rfl
    simp only [map_cons, isClosed]
    split
    · rename_i hLeak
      refine ⟨false, rfl, ?_⟩
      simp only [Bool.false_eq_true, mem_cons, forall_eq_or_imp, false_iff, not_and]
      exact fun hFirst => absurd hFirst (hLeaks.mp hLeak)
    · rename_i hTight
      refine ⟨answer, hRest, ?_⟩
      rw [hLeaks, not_not] at hTight
      rw [hAnswer, forall_mem_cons]
      exact ⟨fun hLater => ⟨hTight, hLater⟩, fun hAll => hAll.2⟩

end Pattern

---- Operations That Fit ----

namespace Graph

variable {pattern host : Graph K}

theorem Sound.fits_iff (hS : pattern.Sound) (hMem : n ∈ pattern.opIds) :
    pattern.Fits host n m ↔ host.kindOf? m = pattern.kindOf? n ∧
      paramsMatch (Param.values (pattern.paramsOf n)) (Param.values (host.paramsOf m)) = true := by
  rcases mem_opIds_iff.mp hMem with ⟨node, hN, rfl⟩
  rw [Fits, Constraint.fits, Bool.and_eq_true, beq_iff_eq, hS.kindOf?_id hN, Option.getD_some]

theorem Sound.exists_fitting (hS : pattern.Sound) (hPat : pattern.IsPattern)
    (hMem : n ∈ pattern.opIds) (hKind : host.kindOf? m = pattern.kindOf? n) :
    ∃ node ∈ pattern.ops, ∃ image ∈ host.ops, node.id = n ∧ image.id = m ∧
      image.kind = node.kind ∧ node.kind.isContainer = false := by
  rcases mem_opIds_iff.mp hMem with ⟨node, hN, rfl⟩
  rw [hS.kindOf?_id hN] at hKind
  have hIn := (hS.nodes node hN).inner
  unfold kindOf? at hKind
  split at hKind
  · simp [← Option.some.inj hKind, Kind.isBoundary] at hIn
  · split at hKind
    · simp [← Option.some.inj hKind, Kind.isBoundary] at hIn
    · rcases Option.map_eq_some_iff.mp hKind with ⟨image, hImage, hEq⟩
      rcases op?_eq_some hImage with ⟨hMemHost, hId⟩
      exact ⟨node, hN, image, hMemHost, rfl, hId, hEq, hPat.gates node hN⟩

theorem Sound.signatureOf_fitting (hS : pattern.Sound) (hPat : pattern.IsPattern)
    (hHost : host.Sound) (hMem : n ∈ pattern.opIds) (hKind : host.kindOf? m = pattern.kindOf? n) :
    host.signatureOf m = pattern.signatureOf n := by
  rcases hS.exists_fitting hPat hMem hKind with
    ⟨node, hN, image, hImage, rfl, rfl, hSame, hGate⟩
  rw [hS.signatureOf_id hN, hHost.signatureOf_id hImage, Node.signature_gate hGate,
    Node.signature_gate (hSame ▸ hGate), hSame]

end Graph

---- The Boundary of a Binding ----

namespace Pattern.Describes

variable {p : Pattern} {pattern host : Graph K} {f : Nat → Nat}

theorem mem_nodes_iff (hDesc : p.Describes pattern) : n ∈ p.nodes ↔ n ∈ pattern.opIds :=
  hDesc.nodes.mem_iff

theorem mem_image_iff (hDesc : p.Describes pattern) : m ∈ p.nodes.map f ↔ pattern.InImage f m := by
  simp only [mem_map, hDesc.mem_nodes_iff]
  exact Iff.rfl

end Pattern.Describes

namespace Graph.IsPattern

variable {pattern : Graph K} {f : Nat → Nat}

section

variable (hPat : pattern.IsPattern)

include hPat

theorem exists_inputPin {pins : List (List Pin)}
    (hPins : pins.map (fun ps => ps.map Pin.place) = (pattern.imageBoundary f).1)
    (hLt : i < pattern.inputs.length) :
    ∃ q pin, pattern.targets inputId i = [q] ∧ q.node ∈ pattern.opIds ∧
      pins[i]? = some [pin] ∧ pin.place = imagePlace f q := by
  rcases hPat.entry i hLt with ⟨q, hTargets, hN⟩
  have hGet := congrArg (fun l => l[i]?) hPins
  simp only [imageBoundary, getElem?_map, getElem?_range hLt, Option.map_some, hTargets,
    map_cons, map_nil, Option.map_eq_some_iff] at hGet
  rcases hGet with ⟨ps, hAt, hPlaces⟩
  rcases map_eq_singleton_iff.mp hPlaces with ⟨pin, rfl, hPlace⟩
  exact ⟨q, pin, hTargets, hN, hAt, hPlace⟩

theorem isSome_outputPlace :
    ∀ j < pattern.outputs.length, ((pattern.source? outputId j).map (imagePlace f)).isSome := by
  intro j hLt
  rcases hPat.exit j hLt with ⟨q, hSrc, -⟩
  simp [hSrc]

theorem length_outputPins (hPins : pins.map Pin.place = (pattern.imageBoundary f).2) :
    pins.length = pattern.outputs.length := by
  rw [← length_map (f := Pin.place), hPins]
  exact length_filterMap_range hPat.isSome_outputPlace

theorem exists_outputPin (hPins : pins.map Pin.place = (pattern.imageBoundary f).2) {j : Nat}
    (hLt : j < pattern.outputs.length) :
    ∃ q pin, pattern.source? outputId j = some q ∧ q.node ∈ pattern.opIds ∧
      pins[j]? = some pin ∧ pin.place = imagePlace f q := by
  rcases hPat.exit j hLt with ⟨q, hSrc, hN⟩
  have hGet := congrArg (fun l => l[j]?) hPins
  simp only [imageBoundary, getElem?_map, getElem?_filterMap_range hPat.isSome_outputPlace hLt, hSrc,
    Option.map_some, Option.map_eq_some_iff] at hGet
  rcases hGet with ⟨pin, hAt, hPlace⟩
  exact ⟨q, pin, hSrc, hN, hAt, hPlace⟩

end

end Graph.IsPattern

namespace Pattern.Describes

variable {p : Pattern} {pattern host : Graph K} {f : Nat → Nat}

theorem all_fedFromOutside_iff (hDesc : p.Describes pattern) (hS : pattern.Sound)
    (hPat : pattern.IsPattern) (hHost : host.Sound) {pins : List (List Pin)}
    (hPins : pins.map (fun ps => ps.map Pin.place) = (pattern.imageBoundary f).1) :
    pins.all (fedFromOutside host (p.nodes.map f)) = true ↔ pattern.FedOutside host f := by
  have hLen : pins.length = pattern.inputs.length := by
    simpa [Graph.imageBoundary] using congrArg List.length hPins
  simp only [all_eq_true]
  constructor
  · intro hAll i m hMem j hW
    rcases hS.wired_types hW with ⟨t, hType, -⟩
    have hLt : i < pattern.inputs.length := by
      simpa [Graph.outType?] using (lt_of_getElem? hType)
    rcases hPat.exists_inputPin hPins hLt with ⟨q, pin, hTargets, -, hPin, hPlace⟩
    rcases Graph.wired_iff_mem_targets.mp hW with ⟨r, hTarget, hEq⟩
    rw [hTargets, mem_singleton] at hTarget
    subst hTarget
    have hFed := hAll _ (mem_of_getElem? hPin)
    rw [fedFromOutside_singleton_iff hHost, hPlace] at hFed
    rcases hFed with ⟨src, hSrc, hOut⟩
    rw [hDesc.mem_image_iff] at hOut
    exact ⟨src, imagePlace_of_place hEq ▸ hSrc, hOut⟩
  · intro hFed ps hMem
    rcases getElem?_of_mem hMem with ⟨i, hAt⟩
    have hLt : i < pattern.inputs.length := hLen ▸ (lt_of_getElem? hAt)
    rcases hPat.exists_inputPin hPins hLt with ⟨q, pin, hTargets, hN, hPin, hPlace⟩
    obtain rfl := eq_of_some hAt hPin
    have hW : pattern.Wired (inputId, i) (q.node, q.index) :=
      Graph.wired_iff_mem_targets.mpr ⟨q, by rw [hTargets]; exact mem_singleton_self q, rfl⟩
    rcases hFed i q.node hN q.index hW with ⟨src, hSrc, hOut⟩
    rw [fedFromOutside_singleton_iff hHost, hPlace]
    exact ⟨src, hSrc, fun hIn => hOut (hDesc.mem_image_iff.mp hIn)⟩

theorem mem_outputs_iff (hS : pattern.Sound) (hPat : pattern.IsPattern)
    (hInjective : ∀ n ∈ pattern.opIds, ∀ m ∈ pattern.opIds, f n = f m → n = m)
    (hPins : pins.map Pin.place = (pattern.imageBoundary f).2) (hMem : n ∈ pattern.opIds) :
    (f n, i) ∈ pins.map Pin.place ↔ ∃ j, pattern.Wired (n, i) (outputId, j) := by
  simp only [hPins, Graph.imageBoundary, mem_filterMap, mem_range, Option.map_eq_some_iff]
  constructor
  · rintro ⟨j, hLt, q, hSrc, hPlace⟩
    rcases hPat.exit j hLt with ⟨r, hOther, hN⟩
    obtain rfl := eq_of_some hSrc hOther
    have hEq := hInjective q.node hN n hMem (congrArg Prod.fst hPlace)
    have hIndex : q.index = i := congrArg Prod.snd hPlace
    exact ⟨j, hS.wired_iff_source?.mpr ⟨q, hSrc, Prod.ext hEq hIndex⟩⟩
  · rintro ⟨j, hW⟩
    rcases hS.wired_types hW with ⟨t, -, hType⟩
    rcases hS.wired_iff_source?.mp hW with ⟨q, hSrc, hPlace⟩
    refine ⟨j, ?_, q, hSrc, imagePlace_of_place hPlace⟩
    simpa [Graph.inType?] using (lt_of_getElem? hType)

section

variable (hDesc : p.Describes pattern) (hS : pattern.Sound) (hPat : pattern.IsPattern)
  (hHost : host.Sound)

include hDesc hS hPat hHost

theorem closedOff_iff (hKind : ∀ n ∈ pattern.opIds, host.kindOf? (f n) = pattern.kindOf? n)
    (hInjective : ∀ n ∈ pattern.opIds, ∀ m ∈ pattern.opIds, f n = f m → n = m)
    (hPins : pins.map Pin.place = (pattern.imageBoundary f).2) :
    (∀ n ∈ p.nodes, ∀ i < (pattern.signatureOf n).outputs.length,
      (f n, i) ∉ pins.map Pin.place → ∀ dst, host.Wired (f n, i) dst → dst.1 ∈ p.nodes.map f) ↔
      pattern.ClosedOff host f := by
  have hExposed : ∀ n ∈ pattern.opIds, ∀ i, (f n, i) ∉ pins.map Pin.place ↔
      ∀ j, ¬ pattern.Wired (n, i) (outputId, j) := by
    intro n hMem i
    rw [mem_outputs_iff hS hPat hInjective hPins hMem, not_exists]
  constructor
  · intro hAll n hMem i hIn dst hW
    -- a wire of the host leaves from a pin that the operation of the pattern has, too
    rcases hHost.wired_types hW with ⟨t, hType, -⟩
    have hLt := lt_of_getElem? hType
    rw [hS.signatureOf_fitting hPat hHost hMem (hKind n hMem)] at hLt
    exact hDesc.mem_image_iff.mp (hAll n (hDesc.mem_nodes_iff.mpr hMem) i hLt
      ((hExposed n hMem i).mpr hIn) dst hW)
  · intro hClosed n hMem i _ hIn dst hW
    have hMem := hDesc.mem_nodes_iff.mp hMem
    exact hDesc.mem_image_iff.mpr (hClosed n hMem i ((hExposed n hMem i).mp hIn) dst hW)

/-
  The check of the boundary of a binding never fails.  It
  tells whether the image is fed and closed off, and the match
  that it gives has the images of the pins at the boundary.
-/
theorem exists_boundary (hIds : idsOf binding = p.nodes.map f)
    (hKind : ∀ n ∈ pattern.opIds, host.kindOf? (f n) = pattern.kindOf? n)
    (hInjective : ∀ n ∈ pattern.opIds, ∀ m ∈ pattern.opIds, f n = f m → n = m) (rule : Nat)
    (root : Slot) : ∃ answer, p.boundary host rule root binding = .ok answer ∧
      (answer.isSome = true ↔ pattern.FedOutside host f ∧ pattern.ClosedOff host f) ∧
      ∀ m, answer = some m → m.rule = rule ∧ m.root = root ∧ m.nodes = binding ∧
        m.places = pattern.imageBoundary f := by
  rcases exists_inputPins hIds hDesc.inputs with ⟨inputs, hInputs, hInputPlaces⟩
  rcases exists_outputPins hIds hDesc.outputs with ⟨outputs, hOuts, hOutputPlaces⟩
  rcases exists_isClosed host (p.nodes.map f) outputs p.nodes f
    (fun n => (pattern.signatureOf n).outputs.length) with ⟨closed, hClosed, hMeans⟩
  have hFed := hDesc.all_fedFromOutside_iff hS hPat hHost hInputPlaces
  rw [hDesc.closedOff_iff hS hPat hHost hKind hInjective hOutputPlaces] at hMeans
  have hBinding : binding.map Slot.toNat = p.nodes.map f := hIds
  unfold boundary
  simp only [hBinding, hInputs, hOuts, hDesc.outArity, hClosed, bind, Except.bind, pure,
    Except.pure]
  by_cases hOut : inputs.all (fedFromOutside host (p.nodes.map f)) = true
  · cases closed with
    | true =>
      refine ⟨_, by rw [hOut]; rfl, by simp [hFed.mp hOut, hMeans.mp rfl], ?_⟩
      rintro m ⟨⟩
      exact ⟨rfl, rfl, rfl, Prod.ext hInputPlaces hOutputPlaces⟩
    | false =>
      refine ⟨none, by rw [hOut]; rfl, ?_, fun m hNone => by simp at hNone⟩
      simp only [Option.isSome_none, Bool.false_eq_true, false_iff, not_and]
      exact fun _ hTight => Bool.false_ne_true (hMeans.mpr hTight)
  · refine ⟨none, by rw [Bool.eq_false_iff.mpr hOut]; rfl, ?_, fun m hNone => by simp at hNone⟩
    simp only [Option.isSome_none, Bool.false_eq_true, false_iff, not_and]
    exact fun hAll _ => hOut (hFed.mpr hAll)

theorem satisfies_iff : Satisfies host (p.nodes.map f) 1 p.constraints ↔
      (∀ n ∈ pattern.opIds, f n ∈ host.opIds) ∧
      (∀ n ∈ pattern.opIds, ∀ m ∈ pattern.opIds, f n = f m → n = m) ∧
      (∀ n ∈ pattern.opIds, host.kindOf? (f n) = pattern.kindOf? n) ∧
      (∀ n ∈ pattern.opIds, paramsMatch (Param.values (pattern.paramsOf n))
        (Param.values (host.paramsOf (f n))) = true) ∧
      ∀ n ∈ pattern.opIds, ∀ m ∈ pattern.opIds, ∀ i j,
        pattern.Wired (n, i) (m, j) → host.Wired (f n, i) (f m, j) := by
  have hNodes : p.nodes.Nodup := hDesc.nodes.nodup_iff.mpr (sortIds_nodup _)
  rw [hDesc.meaning]
  simp only [hDesc.mem_nodes_iff]
  constructor
  · rintro ⟨hFits, hNodup, -, hW⟩
    have hBoth := fun n hMem => (hS.fits_iff hMem).mp (hFits n hMem)
    refine ⟨fun n hMem => ?_, fun n hN m hM hEq => ?_, fun n hMem => (hBoth n hMem).1,
      fun n hMem => (hBoth n hMem).2, fun n hN m hM i j hWire => ?_⟩
    · rcases hS.exists_fitting hPat hMem (hBoth n hMem).1 with
        ⟨_, _, image, hImage, _, hId, _⟩
      exact Graph.mem_opIds_iff.mpr ⟨image, hImage, hId⟩
    · exact inj_on_of_nodup_map hNodup (hDesc.mem_nodes_iff.mpr hN) (hDesc.mem_nodes_iff.mpr hM) hEq
    · rcases hWire with ⟨w, hMem, hSrc, hDst⟩
      have hFrom : w.src.node = n := congrArg Prod.fst hSrc
      have hTo : w.dst.node = m := congrArg Prod.fst hDst
      have hHeld := hW w hMem (hFrom ▸ hS.isOpId_of_mem_opIds hN) (hTo ▸ hS.isOpId_of_mem_opIds hM)
      rwa [hFrom, hTo, show w.src.index = i from congrArg Prod.snd hSrc,
        show w.dst.index = j from congrArg Prod.snd hDst] at hHeld
  · rintro ⟨hOperation, hInjective, hKind, hParams, hW⟩
    refine ⟨fun n hMem => (hS.fits_iff hMem).mpr ⟨hKind n hMem, hParams n hMem⟩,
      hNodes.map_on fun n hN m hM hEq => hInjective n (hDesc.mem_nodes_iff.mp hN) m
        (hDesc.mem_nodes_iff.mp hM) hEq, fun n hMem => ?_, fun w hMem hSrc hDst => ?_⟩
    · exact hHost.isOpId_of_mem_opIds (hOperation n (hDesc.mem_nodes_iff.mp (mem_of_mem_tail hMem)))
    · have hEnds := hS.edge_mem ⟨w, hMem, rfl, rfl⟩
      exact hW _ ((hS.mem_opIds_iff_isOpId hEnds.1).mpr hSrc) _
        ((hS.mem_opIds_iff_isOpId hEnds.2).mpr hDst) _ _ ⟨w, hMem, rfl, rfl⟩

theorem occurs_iff : pattern.Occurs host f ↔ Satisfies host (p.nodes.map f) 1 p.constraints ∧
      pattern.FedOutside host f ∧ pattern.ClosedOff host f := by
  rw [hDesc.satisfies_iff hS hPat hHost]
  constructor
  · intro hOcc
    exact ⟨⟨hOcc.operation, hOcc.injective, hOcc.kind, hOcc.params, hOcc.wired⟩,
      hOcc.fed, hOcc.closed⟩
  · rintro ⟨⟨hOperation, hInjective, hKind, hParams, hW⟩, hFed, hClosed⟩
    exact ⟨hOperation, hInjective, hKind, hParams, hW, hFed, hClosed⟩

end

end Pattern.Describes

---- Crossing the Boundary ----

variable {rule : Rule K} {host : Graph K} {f : Nat → Nat}

section

variable {a : Nat × Nat} {j : Nat} (hUse : rule.Usable) (hHost : host.Sound)
  (hOcc : rule.pattern.Occurs host f) (hMem : n ∈ rule.pattern.opIds)
  (hW : host.Wired a (f n, j))

include hUse hHost hOcc hMem hW

theorem Rule.Usable.wired_image_cases :
    (∃ i, rule.pattern.Wired (inputId, i) (n, j) ∧ ¬ rule.pattern.InImage f a.1) ∨
      ∃ m ∈ rule.pattern.opIds, ∃ k, rule.pattern.Wired (m, k) (n, j) ∧ a = (f m, k) := by
  have hPat := hUse.pattern.sound
  rcases hHost.wired_types hW with ⟨t, -, hIn⟩
  rw [Graph.inType?, hPat.signatureOf_fitting hUse.isPattern hHost hMem (hOcc.kind n hMem)] at hIn
  rcases hUse.patternFormed.complete.fed (n, j) t hIn with ⟨⟨m, k⟩, hFed⟩
  rcases hPat.edge_source hFed.edge with hInput | hOp
  · obtain rfl : m = inputId := hInput
    rcases hOcc.fed k n hMem j hFed with ⟨src, hSrc, hOut⟩
    left
    rw [hHost.source_unique hW hSrc]
    exact ⟨k, hFed, hOut⟩
  · exact .inr ⟨m, hOp, k, hFed, hHost.source_unique hW (hOcc.wired m hOp n hMem k j hFed)⟩

theorem Rule.Usable.exists_input (hOut : ¬ rule.pattern.InImage f a.1) :
    ∃ i, rule.pattern.Wired (inputId, i) (n, j) := by
  rcases hUse.wired_image_cases hHost hOcc hMem hW with ⟨i, hInput, -⟩ | ⟨m, hM, k, -, rfl⟩
  · exact ⟨i, hInput⟩
  · exact absurd ⟨m, hM, rfl⟩ hOut

end

theorem Graph.Occurs.exists_output {pattern : Graph K} (hOcc : pattern.Occurs host f) {k : Nat}
    {d : Nat × Nat} (hMem : n ∈ pattern.opIds) (hW : host.Wired (f n, k) d)
    (hOut : ¬ pattern.InImage f d.1) : ∃ j, pattern.Wired (n, k) (outputId, j) := by
  by_contra hNone
  push Not at hNone
  exact hOut (hOcc.closed n hMem k hNone d hW)

end CircuitGraph
