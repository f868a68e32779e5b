import CircuitGraph.Proofs.Decimal.Written
import CircuitGraph.Proofs.Description.RoundTrip
import CircuitGraph.Proofs.Emission.Behaviour

/-
  Fingerprints recognise graphs.

  Isomorphic graphs have the same fingerprint.  The other way
  round, suppose that different things never get the same
  digest.

  Main declarations:
    * `Uncollided`: digests that tell things apart
    * `fingerprint_of_isomorphic`
    * `isomorphic_of_fingerprint_eq`
-/

---- Isomorphic Graphs ----

namespace CircuitGraph

open List

/- An operation without a body has a first pin, and a wire into it feeds nothing else. -/
theorem Kind.exists_first {kind : Kind} (hIn : kind.isBoundary = false)
    (hFlat : kind.isContainer = false) :
    ∃ sig t, kind.signature? = some sig ∧ sig.inputs[0]? = some t ∧ t ≠ .bool := by
  cases kind <;> first
    | exact absurd hIn (by decide)
    | exact absurd hFlat (by decide)
    | exact ⟨_, _, rfl, rfl, by decide⟩

namespace Graph

/-
  Graphs that are isomorphic at every level have the same
  fingerprint, whatever the ids of their nodes are and in
  whatever order nodes and wires were added.
-/
theorem fingerprint_of_isomorphic
    {K : Type}
    {g h : Graph K}
    (hIso : g.Isomorphic h)
    (hLegible : Everywhere Legible g)
    (hLegible' : Everywhere Legible h) :
    ∃ print, g.fingerprint = .ok print ∧ h.fingerprint = .ok print := by
  rcases (hLegible.mono (fun _ => Legible.digestible)).exists_digestWith digest16 with ⟨d, hDigest⟩
  have hPrint : g.fingerprint = .ok d.hex := by
    rw [fingerprint, hDigest]
    rfl
  exact ⟨d.hex, hPrint, (hIso.fingerprint_eq hLegible hLegible').trans hPrint⟩

/- An operation on a qubit, added after another one that is taken out again. -/
def lateInverter : Graph ℚ :=
  (Graph.empty [.qubit] [.qubit]).after [.addNode .z [] none, .addNode .x [] none,
    .removeNode (.whole 2) false, wireCall (0, 0) (3, 0), wireCall (3, 0) (1, 0)]

theorem inverters_isomorphic : lateInverter.Isomorphic inverter := by
  have hOps : lateInverter.ops = [⟨3, .x, [], none, none⟩] := rfl
  have hOps' : inverter.ops = [⟨2, .x, [], none, none⟩] := rfl
  have hWires : lateInverter.wires = [⟨.of 0 0, .of 3 0⟩, ⟨.of 3 0, .of 1 0⟩] := rfl
  have hWires' : inverter.wires = [⟨.of 0 0, .of 2 0⟩, ⟨.of 2 0, .of 1 0⟩] := rfl
  have hNodes : lateInverter.nodeIds = [0, 1, 3] := by decide +kernel
  refine .intro (fun n => if n = 3 then 2 else n)
    ⟨by decide +kernel, rfl, rfl, by decide +kernel, fun node hN node' hN' _ => ?_, ?_⟩ ?_
  · rw [hOps, mem_singleton] at hN
    rw [hOps', mem_singleton] at hN'
    subst hN hN'
    exact ⟨rfl, rfl, rfl, rfl⟩
  · rintro ⟨a, i⟩ ⟨b, j⟩ hA hB
    rw [hNodes] at hA hB
    simp only [mem_cons, not_mem_nil, or_false] at hA hB
    simp only [Wired, hWires, hWires']
    rcases hA with rfl | rfl | rfl <;> rcases hB with rfl | rfl | rfl <;>
      simp [Pin.place, Pin.of, Pin.index, Pin.node, Slot.toNat]
  · intro node hN _ _ _ b _ hBody _
    rw [hOps, mem_singleton] at hN
    subst hN
    cases hBody

theorem lateInverter_intact : lateInverter.Intact := by
  refine .intro _ ((Reachable.empty _ _).intact.sound.after _).1 (fun node hN body hB => ?_)
  have hNone : ∀ node ∈ lateInverter.ops, node.body = none := by decide +kernel
  rw [hNone node hN] at hB
  cases hB

theorem inverters_valid : lateInverter.validate = .ok () ∧ inverter.validate = .ok () := by
  rcases exists_of_isOk (e := lateInverter.validate) (by decide +kernel) with ⟨⟨⟩, hLate⟩
  rcases exists_of_isOk (e := inverter.validate) (by decide +kernel) with ⟨⟨⟩, hValid⟩
  exact ⟨hLate, hValid⟩

theorem inverters_legible : Everywhere Legible lateInverter ∧ Everywhere Legible inverter := by
  have hLeg : ∀ g : Graph ℚ, g.Intact → g.validate = .ok () → (∀ node ∈ g.ops, node.body = none) →
      (∀ w ∈ g.wires, w.src.slot = .number w.src.index) → Everywhere Legible g := by
    intro g hI hValid hFlat hPlain
    have hF := hI.validate_ok_iff.mp hValid
    refine .intro ⟨hI.sound, hF.acyclic, fun _ => hF.owned, hPlain⟩ ?_
    intro node hN body hB
    rw [hFlat node hN] at hB
    cases hB
  exact ⟨hLeg _ lateInverter_intact inverters_valid.1 (by decide +kernel) (by decide +kernel),
    hLeg _ inverter_reachable.intact inverters_valid.2 (by decide +kernel) (by decide +kernel)⟩

theorem fingerprint_of_isomorphic_inverters :
    ∃ print, lateInverter.fingerprint = .ok print ∧ inverter.fingerprint = .ok print :=
  fingerprint_of_isomorphic inverters_isomorphic inverters_legible.1 inverters_legible.2

---- What a Digest Is Taken Of ----

/-
  What the digest of a node is taken of: the name of its kind,
  its parameters as they are written, the types at the inputs
  of the graph, and for every pin the digest of the node that
  feeds it with the place where the wire starts.
-/
structure Imprint where
  name : String
  params : String
  types : List String
  sources : List (Option (Digest × Nat))
  deriving DecidableEq

variable {K : Type}

def imprint (g : Graph K) (d : Nat → Digest) (n : Nat) : Imprint where
  name := ((g.kindOf? n).getD .input).name
  params := tupled ((Param.values (g.paramsOf n)).map Layout.value.write)
  types := if n = inputId then g.inputs.map WireType.name else []
  sources := (List.range (g.signatureOf n).inputs.length).map (fun i =>
    (g.source? n i).map (fun p => (d p.node, p.index)))

def imprints (g : Graph K) (digests : List (Nat × Digest)) : List (Digest × Imprint) :=
  digests.map (fun entry =>
    (entry.2, g.imprint (fun n => (valueOf? digests n).getD []) entry.1))

/-
  Whether nothing collides while the fingerprints of two graphs
  are taken: equal digests of nodes are taken of the same, and
  equal fingerprints of the same digests in order.
-/
structure Uncollided (g h : Graph K) : Prop where
  nodes : ∀ ds es, g.nodeDigests digest16 [] = .ok ds → h.nodeDigests digest16 [] = .ok es →
    ∀ x ∈ g.imprints ds ++ h.imprints es, ∀ y ∈ g.imprints ds ++ h.imprints es,
      x.1 = y.1 → x.2 = y.2
  whole : ∀ ds es, g.nodeDigests digest16 [] = .ok ds → h.nodeDigests digest16 [] = .ok es →
    g.fingerprint = h.fingerprint →
      (ds.map Prod.snd).mergeSort Digest.before = (es.map Prod.snd).mergeSort Digest.before

variable {g h : Graph K} {d d' : Nat → Digest} {n m : Nat}

theorem Sound.kind_cases (hS : g.Sound) (hN : n ∈ g.nodeIds) :
    n = inputId ∧ (g.kindOf? n).getD .input = .input ∨
      n = outputId ∧ (g.kindOf? n).getD .input = .output ∨
      ∃ node ∈ g.ops, node.id = n ∧ (g.kindOf? n).getD .input = node.kind ∧
        node.kind ≠ .input ∧ node.kind ≠ .output := by
  rcases mem_nodeIds_iff.mp hN with rfl | rfl | hOp
  · exact .inl ⟨rfl, rfl⟩
  · exact .inr (.inl ⟨rfl, rfl⟩)
  · rcases mem_opIds_iff.mp hOp with ⟨node, hNode, rfl⟩
    have hIn := (hS.nodes node hNode).inner
    refine .inr (.inr ⟨node, hNode, rfl, by rw [hS.kindOf?_id hNode]; rfl, ?_, ?_⟩) <;>
    · intro hKind
      rw [hKind] at hIn
      cases hIn

theorem Sound.same_name (hS : g.Sound) (hS' : h.Sound) (hN : n ∈ g.nodeIds)
    (hM : m ∈ h.nodeIds) (hName : (g.imprint d n).name = (h.imprint d' m).name) :
    n = inputId ∧ m = inputId ∨ n = outputId ∧ m = outputId ∨
      ∃ node ∈ g.ops, ∃ node' ∈ h.ops, node.id = n ∧ node'.id = m ∧ node'.kind = node.kind := by
  have hKind : (g.kindOf? n).getD .input = (h.kindOf? m).getD .input := by
    have hBoth := congrArg Kind.ofName? hName
    rw [imprint, imprint, Kind.ofName?_name, Kind.ofName?_name] at hBoth
    exact Option.some.inj hBoth
  rcases hS.kind_cases hN with
      ⟨hId, hHere⟩ | ⟨hId, hHere⟩ | ⟨node, hNode, hId, hHere, hIn⟩ <;>
    rcases hS'.kind_cases hM with
      ⟨hId', hThere⟩ | ⟨hId', hThere⟩ | ⟨node', hNode', hId', hThere, hIn'⟩ <;>
    rw [hHere, hThere] at hKind
  · exact .inl ⟨hId, hId'⟩
  · cases hKind
  · exact absurd hKind.symm hIn'.1
  · cases hKind
  · exact .inr (.inl ⟨hId, hId'⟩)
  · exact absurd hKind.symm hIn'.2
  · exact absurd hKind hIn.1
  · exact absurd hKind hIn.2
  · exact .inr (.inr ⟨node, hNode, node', hNode', hId, hId', hKind.symm⟩)

theorem Sound.same_source (hS : g.Sound) (hS' : h.Sound)
    (hSame : g.imprint d n = h.imprint d' m) {src : Nat × Nat} {i : Nat}
    (hW : g.Wired src (n, i)) :
    ∃ src', h.Wired src' (m, i) ∧ d' src'.1 = d src.1 ∧ src'.2 = src.2 := by
  rcases hS.wired_iff_source?.mp hW with ⟨p, hSrc, rfl⟩
  rcases hS.wired_types hW with ⟨t, -, hIn⟩
  have hLt : i < (g.signatureOf n).inputs.length := lt_of_getElem? hIn
  have hBoth := congrArg (fun imprint => imprint.sources[i]?) hSame
  have hLengths := congrArg (fun imprint => imprint.sources.length) hSame
  simp only [imprint, length_map, length_range] at hLengths
  simp only [imprint, getElem?_map, getElem?_range hLt,
    getElem?_range (hLengths ▸ hLt), Option.map_some, hSrc, Option.some_inj] at hBoth
  rcases Option.map_eq_some_iff.mp hBoth.symm with ⟨q, hSrc', hEq⟩
  rcases Prod.mk.inj hEq with ⟨hDigest, hIndex⟩
  exact ⟨q.place, hS'.wired_iff_source?.mpr ⟨q, hSrc', rfl⟩, hDigest, hIndex⟩

theorem Sound.digest_injective (hS : g.Sound) (hCom : g.Complete) (hAcy : g.Acyclic)
    (hFlat : ∀ node ∈ g.ops, node.kind.isContainer = false)
    (hClear : ∀ n ∈ g.nodeIds, ∀ m ∈ g.nodeIds, d n = d m → g.imprint d n = g.imprint d m)
    (hN : n ∈ g.nodeIds) (hM : m ∈ g.nodeIds) (hSame : d n = d m) : n = m := by
  induction n using (hS.wellFounded_edge hAcy).induction generalizing m with
  | _ n ih =>
    have hImprint := hClear n hN m hM hSame
    rcases hS.same_name hS hN hM (congrArg Imprint.name hImprint) with
      ⟨rfl, rfl⟩ | ⟨rfl, rfl⟩ | ⟨node, hNode, node', hNode', rfl, rfl, hKind⟩
    · rfl
    · rfl
    · rcases Kind.exists_first (hS.nodes node hNode).inner (hFlat node hNode) with
        ⟨sig, t, hSig, hFirst, hLin⟩
      have hIn : g.inType? (node.id, 0) = some t := by
        rw [inType?, hS.signatureOf_id hNode, Node.signature_gate (hFlat node hNode), hSig]
        exact hFirst
      rcases hCom.fed _ t hIn with ⟨src, hW⟩
      rcases hS.same_source hS hImprint hW with ⟨src', hW', hDigest, hIndex⟩
      have hNodes := ih src.1 hW.edge (hS.wired_mem hW).1 (hS.wired_mem hW').1 hDigest.symm
      obtain rfl : src = src' := Prod.ext hNodes hIndex.symm
      rcases hS.wired_types hW with ⟨t', hOut, hIn'⟩
      obtain rfl := eq_of_some hIn hIn'
      have hNotBool : g.outType? src ≠ some .bool := by
        rw [hOut]
        exact fun hBool => hLin (Option.some.inj hBool)
      exact congrArg Prod.fst (hS.target_unique hW hW' hNotBool)

---- Pairing Nodes off ----

theorem values_eq_of_written {ps qs : List Param} {k : Kind} (hL : ps.length = k.arity)
    (hR : qs.length = k.arity)
    (hText : tupled ((Param.values ps).map Layout.value.write) =
      tupled ((Param.values qs).map Layout.value.write)) : Param.values ps = Param.values qs := by
  have hArity : k.arity ≤ 1 := by cases k <;> decide
  rcases ps with _ | ⟨p, _ | ⟨p', ps⟩⟩ <;> rcases qs with _ | ⟨q, _ | ⟨q', qs⟩⟩ <;>
    simp only [length_nil, length_cons] at hL hR <;> try omega
  · rfl
  · have hWritten : Layout.value.write p.value = Layout.value.write q.value := by
      simpa [tupled, Param.values] using hText
    simp [Param.values, Layout.write_injective hWritten]

def nodeWith (h : Graph K) (d' : Nat → Digest) (digest : Digest) : Nat :=
  (h.nodeIds.find? (fun m => d' m == digest)).getD inputId

/- Two levels whose nodes are paired off by their digests. -/
structure Paired (g h : Graph K) (d d' : Nat → Digest) : Prop where
  sound : g.Sound
  sound' : h.Sound
  complete : g.Complete
  flat : ∀ node ∈ g.ops, node.kind.isContainer = false
  owned : ∀ node ∈ g.ops, node.enclosing = none
  owned' : ∀ node ∈ h.ops, node.enclosing = none
  apart : ∀ n ∈ g.nodeIds, ∀ m ∈ g.nodeIds, d n = d m → n = m
  apart' : ∀ n ∈ h.nodeIds, ∀ m ∈ h.nodeIds, d' n = d' m → n = m
  across : ∀ n ∈ g.nodeIds, ∀ m ∈ h.nodeIds, d n = d' m → g.imprint d n = h.imprint d' m
  found : ∀ n ∈ g.nodeIds, ∃ m ∈ h.nodeIds, d' m = d n
  onto : ∀ m ∈ h.nodeIds, ∃ n ∈ g.nodeIds, d n = d' m

namespace Paired

variable (hPair : Paired g h d d')

include hPair

theorem nodeWith_spec (hN : n ∈ g.nodeIds) :
    h.nodeWith d' (d n) ∈ h.nodeIds ∧ d' (h.nodeWith d' (d n)) = d n := by
  rcases hPair.found n hN with ⟨m, hM, hDigest⟩
  have hFnd : (h.nodeIds.find? (fun m => d' m == d n)).isSome := by
    rw [find?_isSome]
    exact ⟨m, hM, beq_iff_eq.mpr hDigest⟩
  rcases Option.isSome_iff_exists.mp hFnd with ⟨k, hK⟩
  rw [nodeWith, hK]
  exact ⟨mem_of_find?_eq_some hK, by simpa using find?_some hK⟩

theorem imprint_eq (hN : n ∈ g.nodeIds) : g.imprint d n = h.imprint d' (h.nodeWith d' (d n)) :=
  hPair.across n hN _ (hPair.nodeWith_spec hN).1 (hPair.nodeWith_spec hN).2.symm

theorem cases (hN : n ∈ g.nodeIds) :
    n = inputId ∧ h.nodeWith d' (d n) = inputId ∨ n = outputId ∧ h.nodeWith d' (d n) = outputId ∨
      ∃ node ∈ g.ops, ∃ node' ∈ h.ops,
        node.id = n ∧ node'.id = h.nodeWith d' (d n) ∧ node'.kind = node.kind :=
  hPair.sound.same_name hPair.sound' hN (hPair.nodeWith_spec hN).1
    (congrArg Imprint.name (hPair.imprint_eq hN))

theorem boundary : h.nodeWith d' (d inputId) = inputId ∧ h.nodeWith d' (d outputId) = outputId := by
  constructor
  · rcases hPair.cases (mem_nodeIds_iff.mpr (.inl rfl)) with
      ⟨-, hId⟩ | ⟨hNot, -⟩ | ⟨node, hN, -, -, hId, -⟩
    · exact hId
    · cases hNot
    · exact absurd hId (hPair.sound.id_ne hN).1
  · rcases hPair.cases (mem_nodeIds_iff.mpr (.inr (.inl rfl))) with
      ⟨hNot, -⟩ | ⟨-, hId⟩ | ⟨node, hN, -, -, hId, -⟩
    · cases hNot
    · exact hId
    · exact absurd hId (hPair.sound.id_ne hN).2

theorem inputs_eq : h.inputs = g.inputs := by
  have hSame := hPair.imprint_eq (mem_nodeIds_iff.mpr (.inl rfl))
  rw [hPair.boundary.1] at hSame
  have hNames : g.inputs.map WireType.name = h.inputs.map WireType.name := by
    simpa [imprint] using congrArg Imprint.types hSame
  refine (map_injective_iff.mpr (fun t t' hName => ?_) hNames).symm
  have hBoth := congrArg WireType.ofName? hName
  rw [WireType.ofName?_name, WireType.ofName?_name] at hBoth
  exact Option.some.inj hBoth

theorem outType?_eq (hN : n ∈ g.nodeIds) (hNot : n ≠ outputId) (i : Nat) :
    h.outType? (h.nodeWith d' (d n), i) = g.outType? (n, i) := by
  rcases hPair.cases hN with
    ⟨rfl, hId⟩ | ⟨rfl, -⟩ | ⟨node, hNode, node', hNode', rfl, hId, hKind⟩
  · rw [hId, outType?, outType?, signatureOf_inputId, signatureOf_inputId, hPair.inputs_eq]
  · exact absurd rfl hNot
  · have hFlat := hPair.flat node hNode
    rw [← hId, outType?, outType?, hPair.sound.signatureOf_id hNode,
      hPair.sound'.signatureOf_id hNode', Node.signature_gate hFlat,
      Node.signature_gate (hKind ▸ hFlat), hKind]

theorem wired_iff {a b : Nat × Nat} (hA : a.1 ∈ g.nodeIds) (hB : b.1 ∈ g.nodeIds) :
    h.Wired (h.nodeWith d' (d a.1), a.2) (h.nodeWith d' (d b.1), b.2) ↔ g.Wired a b := by
  rcases hPair.nodeWith_spec hA with ⟨hM, hDigest⟩
  have hSame := hPair.imprint_eq hB
  constructor
  · intro hW
    rcases hPair.sound'.same_source hPair.sound hSame.symm hW with
      ⟨src, hW', hSrc, hIndex⟩
    have hN := hPair.apart _ (hPair.sound.wired_mem hW').1 _ hA (hSrc.trans hDigest)
    rwa [show src = a from Prod.ext hN hIndex] at hW'
  · intro hW
    rcases hPair.sound.same_source hPair.sound' hSame hW with
      ⟨src, hW', hSrc, hIndex⟩
    have hN := hPair.apart' _ (hPair.sound'.wired_mem hW').1 _ hM (hSrc.trans hDigest.symm)
    rwa [show src = (h.nodeWith d' (d a.1), a.2) from Prod.ext hN hIndex] at hW'

theorem outputs_eq : h.outputs = g.outputs := by
  have hOutp : outputId ∈ g.nodeIds := mem_nodeIds_iff.mpr (.inr (.inl rfl))
  have hLengths := congrArg (fun imprint => imprint.sources.length) (hPair.imprint_eq hOutp)
  simp only [imprint, length_map, length_range, hPair.boundary.2, signatureOf_outputId] at hLengths
  refine ext_getElem hLengths.symm (fun i hL hR => ?_)
  have hIn : g.inType? (outputId, i) = some g.outputs[i] := by
    rw [inType?, signatureOf_outputId]
    exact getElem?_eq_getElem hR
  rcases hPair.complete.fed _ _ hIn with ⟨src, hW⟩
  have hSrc := (hPair.sound.wired_mem hW).1
  have hThere := (hPair.wired_iff hSrc hOutp).mpr hW
  rw [hPair.boundary.2] at hThere
  rcases hPair.sound.wired_types hW with ⟨t, hOut, hIn'⟩
  rcases hPair.sound'.wired_types hThere with ⟨t', hOut', hIn''⟩
  have hNot : src.1 ≠ outputId := fun hId => hPair.sound.not_edge_outputId _ (hId ▸ hW.edge)
  rw [hPair.outType?_eq hSrc hNot, hOut] at hOut'
  rw [inType?, signatureOf_outputId] at hIn''
  rw [hIn] at hIn'
  apply Option.some.inj
  rw [← getElem?_eq_getElem hL, hIn', hOut']
  exact hIn''

theorem renames : Renames (fun n => h.nodeWith d' (d n)) g h where
  boundary := by rw [Graph.signature, Graph.signature, hPair.inputs_eq, hPair.outputs_eq]
  input := hPair.boundary.1
  output := hPair.boundary.2
  onto := by
    have hInjective : ∀ n ∈ g.opIds, ∀ m ∈ g.opIds,
        h.nodeWith d' (d n) = h.nodeWith d' (d m) → n = m := by
      intro n hN m hM hSame
      have hN' := mem_nodeIds_of_op hN
      have hM' := mem_nodeIds_of_op hM
      refine hPair.apart n hN' m hM' ?_
      rw [← (hPair.nodeWith_spec hN').2, hSame, (hPair.nodeWith_spec hM').2]
    refine (perm_ext_iff_of_nodup (List.Nodup.map_on hInjective g.opIds_nodup)
      h.opIds_nodup).mpr (fun m => ?_)
    rw [mem_map]
    constructor
    · rintro ⟨n, hN, rfl⟩
      rcases hPair.cases (mem_nodeIds_of_op hN) with
        ⟨hId, -⟩ | ⟨hId, -⟩ | ⟨-, -, node', hNode', -, hId, -⟩
      · exact absurd hId (hPair.sound.ne_boundary hN).1
      · exact absurd hId (hPair.sound.ne_boundary hN).2
      · exact mem_opIds_iff.mpr ⟨node', hNode', hId⟩
    · intro hM
      have hM' := mem_nodeIds_of_op hM
      rcases hPair.onto m hM' with ⟨n, hN, hDigest⟩
      have hId : h.nodeWith d' (d n) = m := hPair.apart' _ (hPair.nodeWith_spec hN).1 m hM'
        ((hPair.nodeWith_spec hN).2.trans hDigest)
      rcases hPair.cases hN with ⟨-, hThere⟩ | ⟨-, hThere⟩ | ⟨node, hNode, -, -, rfl, -⟩
      · exact absurd (hId.symm.trans hThere) (hPair.sound'.ne_boundary hM).1
      · exact absurd (hId.symm.trans hThere) (hPair.sound'.ne_boundary hM).2
      · exact ⟨node.id, mem_opIds_of_mem hNode, hId⟩
  nodes := by
    intro node hNode node' hNode' hId
    have hMem := id_mem_nodeIds hNode
    rcases hPair.cases hMem with ⟨hNot, -⟩ | ⟨hNot, -⟩ | ⟨k, hK, k', hK', hIdK, hIdK', hKind⟩
    · exact absurd hNot (hPair.sound.id_ne hNode).1
    · exact absurd hNot (hPair.sound.id_ne hNode).2
    · obtain rfl := eq_of_key_eq hPair.sound.unique hK hNode hIdK
      obtain rfl := eq_of_key_eq hPair.sound'.unique hK' hNode' (hIdK'.trans hId.symm)
      have hOwn := hPair.sound.nodes k hK
      have hOwn' := hPair.sound'.nodes k' hK'
      have hFlat := hPair.flat k hK
      have hText := congrArg Imprint.params (hPair.imprint_eq hMem)
      simp only [imprint, ← hId, hPair.sound.paramsOf_id hK, hPair.sound'.paramsOf_id hK'] at hText
      refine ⟨hKind, values_eq_of_written hOwn'.params (hKind ▸ hOwn.params) hText.symm, ?_, ?_⟩
      · rw [hOwn.body_eq_none hFlat, hOwn'.body_eq_none (hKind ▸ hFlat)]
      · rw [hPair.owned k hK, hPair.owned' k' hK']
  wired := fun _ _ hA hB => hPair.wired_iff hA hB

end Paired

---- Graphs with the Same Fingerprint ----

theorem Sound.exists_imprints (hS : g.Sound) (hAcy : g.Acyclic) :
    ∃ ds d, g.nodeDigests digest16 [] = .ok ds ∧ (ds.map Prod.snd).Perm (g.nodeIds.map d) ∧
      ∀ n ∈ g.nodeIds, (d n, g.imprint d n) ∈ g.imprints ds := by
  have hOwn : ∀ n, ∃ own, g.ownMessage [] n = .ok own := fun n => ⟨_, rfl⟩
  rcases hS.exists_digests hAcy digest16 hOwn with ⟨d, ds, -, hDs, hPerm⟩
  have hKeys : (ds.map Prod.fst).Nodup := by
    rw [(hPerm.map Prod.fst).nodup_iff, map_map]
    simpa [Function.comp_def] using hS.nodeIds_nodup
  have hEntry : ∀ n ∈ g.nodeIds, (n, d n) ∈ ds :=
    fun n hN => hPerm.symm.subset (mem_map_of_mem hN)
  refine ⟨ds, d, hDs, by simpa [Function.comp_def] using hPerm.map Prod.snd, fun n hN => ?_⟩
  refine mem_map.mpr ⟨(n, d n), hEntry n hN, congrArg (Prod.mk (d n)) ?_⟩
  -- The digests of all sources are among those found.
  simp only [imprint, Imprint.mk.injEq, true_and]
  refine map_congr_left (fun i _ => Option.map_congr (fun p hSrc => ?_))
  have hW : g.Wired p.place (n, i) := hS.wired_iff_source?.mpr ⟨p, hSrc, rfl⟩
  rw [(valueOf?_eq_some_iff hKeys).mpr (hEntry p.node (hS.wired_mem hW).1)]
  rfl

/-
  If nothing collides, well-formed graphs without containers
  that have the same fingerprint are isomorphic.
-/
theorem isomorphic_of_fingerprint_eq
    {K : Type}
    {g h : Graph K}
    (hIntact : g.Intact)
    (hIntact' : h.Intact)
    (hValid : g.validate = .ok ())
    (hValid' : h.validate = .ok ())
    (hFlat : ∀ node ∈ g.ops, node.kind.isContainer = false)
    (hFlat' : ∀ node ∈ h.ops, node.kind.isContainer = false)
    (hClear : g.Uncollided h)
    (hPrint : g.fingerprint = h.fingerprint) :
    g.Isomorphic h := by
  have hFormed := hIntact.validate_ok_iff.mp hValid
  have hFormed' := hIntact'.validate_ok_iff.mp hValid'
  have hSound := hIntact.sound
  have hSound' := hIntact'.sound
  rcases hSound.exists_imprints hFormed.acyclic with ⟨ds, d, hDs, hPerm, hListed⟩
  rcases hSound'.exists_imprints hFormed'.acyclic with ⟨es, d', hEs, hPerm', hListed'⟩
  have hNodes := hClear.nodes ds es hDs hEs
  have hLeft : ∀ n ∈ g.nodeIds, (d n, g.imprint d n) ∈ g.imprints ds ++ h.imprints es :=
    fun n hN => mem_append_left _ (hListed n hN)
  have hRight : ∀ n ∈ h.nodeIds, (d' n, h.imprint d' n) ∈ g.imprints ds ++ h.imprints es :=
    fun n hN => mem_append_right _ (hListed' n hN)
  have hSorted := hClear.whole ds es hDs hEs hPrint
  have hDigests : (g.nodeIds.map d).Perm (h.nodeIds.map d') := by
    refine hPerm.symm.trans (.trans ?_ hPerm')
    refine (mergeSort_perm _ Digest.before).symm.trans (.trans (.of_eq hSorted) ?_)
    exact mergeSort_perm _ _
  have hPaired : Paired g h d d' :=
    { sound := hSound
      sound' := hSound'
      complete := hFormed.complete
      flat := hFlat
      owned := fun _ => hFormed.owned
      owned' := fun _ => hFormed'.owned
      apart := fun n hN m hM => hSound.digest_injective hFormed.complete hFormed.acyclic hFlat
        (fun n hN m hM => hNodes _ (hLeft n hN) _ (hLeft m hM)) hN hM
      apart' := fun n hN m hM => hSound'.digest_injective hFormed'.complete hFormed'.acyclic hFlat'
        (fun n hN m hM => hNodes _ (hRight n hN) _ (hRight m hM)) hN hM
      across := fun n hN m hM => hNodes _ (hLeft n hN) _ (hRight m hM)
      found := fun n hN => mem_map.mp (hDigests.subset (mem_map_of_mem hN))
      onto := fun m hM => mem_map.mp (hDigests.symm.subset (mem_map_of_mem hM)) }
  refine .intro _ hPaired.renames (fun node hNode _ _ _ b _ hBody _ => ?_)
  rw [(hSound.nodes node hNode).body_eq_none (hFlat node hNode)] at hBody
  cases hBody

theorem uncollided_inverters : lateInverter.Uncollided inverter := by
  have hCheck : ((lateInverter.nodeDigests digest16 []).toOption.bind (fun ds =>
      (inverter.nodeDigests digest16 []).toOption.map (fun es => decide (
        (∀ x ∈ lateInverter.imprints ds ++ inverter.imprints es,
          ∀ y ∈ lateInverter.imprints ds ++ inverter.imprints es, x.1 = y.1 → x.2 = y.2) ∧
        ds.map Prod.snd = es.map Prod.snd)))) = some true := by
    decide +kernel
  refine ⟨fun ds es hDs hEs => ?_, fun ds es hDs hEs _ => ?_⟩ <;> rw [hDs, hEs] at hCheck
  · exact (of_decide_eq_true (Option.some.inj hCheck)).1
  · rw [(of_decide_eq_true (Option.some.inj hCheck)).2]

theorem isomorphic_of_fingerprint_eq_inverters : lateInverter.Isomorphic inverter :=
  isomorphic_of_fingerprint_eq lateInverter_intact inverter_reachable.intact inverters_valid.1
    inverters_valid.2 (by decide +kernel) (by decide +kernel) uncollided_inverters
    (inverters_isomorphic.fingerprint_eq inverters_legible.1 inverters_legible.2).symm

end Graph

end CircuitGraph
