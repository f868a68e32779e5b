import CircuitGraph.Proofs.Graph.Sums
import CircuitGraph.Proofs.Reachable

/-
  Fingerprints of isomorphic graphs.

  The digests of the nodes of a level are the only solution of
  the equations that the wires give, so they do not depend on
  the order in which the nodes are visited.
-/

---- Digests in Order ----

namespace CircuitGraph

open List

variable {n : Nat}

namespace Digest

theorem before_iff (a b : Digest) : before a b = true ↔ a.map UInt8.toNat ≤ b.map UInt8.toNat := by
  rw [← idsBefore_iff, ← Bool.eq_iff_iff]
  induction a generalizing b with
  | nil => rfl
  | cons x a ih =>
    cases b with
    | nil => rfl
    | cons y b =>
      have hHead : (x == y) = (x.toNat == y.toNat) := by
        rw [Bool.eq_iff_iff, beq_iff_eq, beq_iff_eq, UInt8.toNat_inj]
      simp [before, idsBefore, ih, UInt8.lt_iff_toNat_lt, hHead]

theorem mergeSort_eq_of_perm {ds es : List Digest} (hPerm : ds.Perm es) :
    ds.mergeSort before = es.mergeSort before := by
  refine List.Perm.eq_of_pairwise (fun a b _ _ hL hR => ?_)
    (pairwise_mergeSort_of_key before_iff ds) (pairwise_mergeSort_of_key before_iff es) ?_
  · exact map_injective_iff.mpr (fun _ _ => UInt8.toNat_inj.mp) (le_antisymm hL hR)
  · exact (mergeSort_perm ds before).trans (hPerm.trans (mergeSort_perm es before).symm)

end Digest

---- Digests of a Level ----

namespace Graph

variable {K : Type} {g h : Graph K} {π : Nat → Nat}

def ownMessage (g : Graph K) (bodies : List (Nat × Except Fault Digest)) (n : Nat) :
    Except Fault (List UInt8) := do
  let nested ←
    match valueOf? bodies n with
    | some body => body.map (fun digest => Digest.ofText digest.hex)
    | none => pure []
  let params := tupled ((Param.values (g.paramsOf n)).map Layout.value.write)
  let types := if n = inputId then Digest.ofText (Fault.typeNames g.inputs) else []
  return Digest.ofText ((g.kindOf? n).getD .input).name ++ Digest.ofText params ++ nested ++ types

theorem nodeMessage_eq (g : Graph K) (bodies : List (Nat × Except Fault Digest))
    (digests : List (Nat × Digest)) (n : Nat) :
    g.nodeMessage bodies digests n = (g.ownMessage bodies n).map
      (· ++ (List.range (g.signatureOf n).inputs.length).flatMap (g.sourceMessage digests n)) := by
  unfold nodeMessage ownMessage
  cases valueOf? bodies n with
  | none => rfl
  | some body =>
    cases body with
    | error fault => rfl
    | ok digest => rfl

def sourceBytes (g : Graph K) (d : Nat → Digest) (n i : Nat) : List UInt8 :=
  match g.source? n i with
  | some p => d p.node ++ Digest.ofText p.slot.text
  | none => Digest.ofText "-" ++ Digest.ofText "-1"

def Digests (hash : List UInt8 → Digest) (g : Graph K) (bodies : List (Nat × Except Fault Digest))
    (d : Nat → Digest) : Prop :=
  ∀ n ∈ g.nodeIds, ∃ own, g.ownMessage bodies n = .ok own ∧
    d n = hash (own ++ (List.range (g.signatureOf n).inputs.length).flatMap (g.sourceBytes d n))

theorem Sound.exists_digests (hS : g.Sound) (hAcy : g.Acyclic) (hash : List UInt8 → Digest)
    {bodies : List (Nat × Except Fault Digest)}
    (hOwn : ∀ n, ∃ own, g.ownMessage bodies n = .ok own) :
    ∃ d digests, g.Digests hash bodies d ∧ g.nodeDigests hash bodies = .ok digests ∧
      digests.Perm (g.nodeIds.map (fun n => (n, d n))) := by
  let value (done : List (Nat × Digest)) (n : Nat) : Except Fault Digest :=
    (g.nodeMessage bodies done n).map hash
  have hStep : (fun (done : List (Nat × Digest)) n => do
      let message ← g.nodeMessage bodies done n
      return (n, hash message) :: done) =
      fun done n => do return (n, ← value done n) :: done := by
    funext done n
    simp only [value]
    cases g.nodeMessage bodies done n <;> rfl
  have hTotal : ∀ done n, ∃ a, value done n = .ok a := by
    intro done n
    rcases hOwn n with ⟨own, hHere⟩
    simp only [value, nodeMessage_eq, hHere]
    exact ⟨_, rfl⟩
  rcases hS.exists_values hAcy value hTotal with ⟨order, d, hOrder, hPerm, hRun, hValues⟩
  refine ⟨d, (order.map (fun n => (n, d n))).reverse, fun n hM => ?_, ?_, ?_⟩
  · rcases hValues n hM with ⟨done, hDone, hHere⟩
    rcases hOwn n with ⟨own, hMine⟩
    have hSrcs : g.sourceMessage done n = g.sourceBytes d n := by
      funext i
      unfold sourceMessage sourceBytes
      cases hSrc : g.source? n i with
      | none => rfl
      | some p =>
        have hW : g.Wired p.place (n, i) := hS.wired_iff_source?.mpr ⟨p, hSrc, rfl⟩
        have hBef := hDone p.node hW.edge
        simp only [hBef, Option.getD_some]
    simp only [value, nodeMessage_eq, hMine, hSrcs] at hHere
    exact ⟨own, hMine, (Except.ok.inj hHere).symm⟩
  · rw [nodeDigests, hOrder, hStep]
    exact hRun
  · exact (reverse_perm _).trans (hPerm.map _)

---- Digests under Renaming ----

/-
  A level whose nodes have digests: there is no cycle, and no
  nested graph leads back to a graph around it.
-/
structure Digestible (g : Graph K) : Prop where
  sound : g.Sound
  acyclic : g.Acyclic
  owned : ∀ node ∈ g.ops, node.enclosing = none

/-
  A level whose digests depend on nothing but its shape: there
  is no cycle, no nested graph leads back to a graph around it,
  and the places where wires start are spelled as numbers.
-/
structure Legible (g : Graph K) : Prop where
  sound : g.Sound
  acyclic : g.Acyclic
  owned : ∀ node ∈ g.ops, node.enclosing = none
  plain : ∀ w ∈ g.wires, w.src.slot = .number w.src.index

theorem Legible.digestible (hLeg : g.Legible) : g.Digestible :=
  ⟨hLeg.sound, hLeg.acyclic, hLeg.owned⟩

def SpelledAlike (π : Nat → Nat) (g h : Graph K) : Prop :=
  ∀ n ∈ g.nodeIds, ∀ i, (h.source? (π n) i).map (fun p => (p.node, p.slot)) =
    (g.source? n i).map (fun p => (π p.node, p.slot))

theorem Sound.boundary_notMem (hS : g.Sound) (hBd : n = inputId ∨ n = outputId) : n ∉ g.opIds :=
  fun hOp => hBd.elim (hS.ne_boundary hOp).1 (hS.ne_boundary hOp).2

namespace Renames

section

variable (hRen : Renames π g h)

include hRen

theorem signatureOf (hS : g.Sound) (hS' : h.Sound)
    (hBodies : ∀ node ∈ g.ops, ∀ node' ∈ h.ops, node'.id = π node.id →
      node'.body.map Graph.signature = node.body.map Graph.signature)
    (hM : n ∈ g.nodeIds) : h.signatureOf (π n) = g.signatureOf n := by
  have hBd := hRen.boundary
  simp only [Graph.signature, Signature.mk.injEq] at hBd
  rcases mem_nodeIds_iff.mp hM with rfl | rfl | hOp
  · rw [hRen.input, signatureOf_inputId, signatureOf_inputId, hBd.1]
  · rw [hRen.output, signatureOf_outputId, signatureOf_outputId, hBd.2]
  · rcases mem_opIds_iff.mp hOp with ⟨node, hN, rfl⟩
    rcases hRen.exists_node hN with ⟨node', hN', hId, hSame⟩
    have hIn : node'.boundary? = node.boundary? := by
      have hB := hBodies node hN node' hN' hId
      unfold Node.boundary?
      cases hOld : node.body with
      | none =>
        rw [hOld, Option.map_none, Option.map_eq_none_iff] at hB
        rw [hB]
        exact hSame.enclosing
      | some b =>
        rw [hOld, Option.map_some, Option.map_eq_some_iff] at hB
        rcases hB with ⟨b', hNew, hSig⟩
        rw [hNew]
        exact congrArg some hSig
    rw [← hId, hS.signatureOf_id hN, hS'.signatureOf_id hN', Node.signature,
      Node.signature, hSame.kind, hIn]

theorem spelledAlike (hLeg : g.Legible) (hLeg' : h.Legible) : SpelledAlike π g h := by
  intro n hMem i
  have hPlain : ∀ {k : Graph K}, k.Legible → ∀ {n i p}, k.source? n i = some p →
      p.slot = .number p.index := by
    intro k hLeg n i p hSrc
    rcases hLeg.sound.source?_iff.mp hSrc with ⟨w, hW, rfl, -⟩
    exact hLeg.plain w hW
  cases hSrc : g.source? n i with
  | some p =>
    have hWired : g.Wired p.place (n, i) := hLeg.sound.wired_iff_source?.mpr ⟨p, hSrc, rfl⟩
    have hThere := hRen.wired_of hLeg.sound hWired
    rcases hLeg'.sound.wired_iff_source?.mp hThere with ⟨q, hSrc', hPlace⟩
    have hN : q.node = π p.node := congrArg Prod.fst hPlace
    have hIndex : q.index = p.index := congrArg Prod.snd hPlace
    rw [hSrc', Option.map_some, Option.map_some, hN, hPlain hLeg hSrc, hPlain hLeg' hSrc', hIndex]
  | none =>
    rw [Option.map_none, Option.map_eq_none_iff]
    cases hSrc' : h.source? (π n) i with
    | none => rfl
    | some q =>
      have hWired : h.Wired q.place (π n, i) :=
        hLeg'.sound.wired_iff_source?.mpr ⟨q, hSrc', rfl⟩
      rcases hRen.exists_wired hLeg'.sound hWired with ⟨k, -, m, hM, -, hTarget, hWired'⟩
      obtain rfl := hRen.injective hLeg'.sound hM hMem hTarget
      rcases hLeg.sound.wired_iff_source?.mp hWired' with ⟨p, hFnd, -⟩
      rw [hSrc] at hFnd
      cases hFnd

theorem digest_eq (hDig : g.Digestible) (hA : SpelledAlike π g h)
    (hSignatures : ∀ n ∈ g.nodeIds, h.signatureOf (π n) = g.signatureOf n)
    {hash : List UInt8 → Digest} {bodies bodies' : List (Nat × Except Fault Digest)}
    (hOwn : ∀ n ∈ g.nodeIds, h.ownMessage bodies' (π n) = g.ownMessage bodies n)
    {d d' : Nat → Digest} (hDigests : g.Digests hash bodies d)
    (hDigests' : h.Digests hash bodies' d') (hM : n ∈ g.nodeIds) : d' (π n) = d n := by
  induction n using (hDig.sound.wellFounded_edge hDig.acyclic).induction with
  | _ n ih =>
    rcases hDigests n hM with ⟨own, hMine, hHere⟩
    rcases hDigests' (π n) (hRen.mem_nodeIds hM) with ⟨own', hMine', hHere'⟩
    rw [hOwn n hM, hMine] at hMine'
    have hSrcs : h.sourceBytes d' (π n) = g.sourceBytes d n := by
      funext i
      have hSame := hA n hM i
      unfold sourceBytes
      cases hSrc : g.source? n i with
      | none =>
        rw [hSrc, Option.map_none, Option.map_eq_none_iff] at hSame
        rw [hSame]
      | some p =>
        rw [hSrc, Option.map_some, Option.map_eq_some_iff] at hSame
        rcases hSame with ⟨q, hSrc', hBoth⟩
        have hW : g.Wired p.place (n, i) :=
          hDig.sound.wired_iff_source?.mpr ⟨p, hSrc, rfl⟩
        have hBef := ih p.node hW.edge (hDig.sound.wired_mem hW).1
        rcases Prod.mk.inj hBoth with ⟨hN, hSlot⟩
        simp only [hSrc', hN, hSlot, hBef]
    rw [hHere, hHere', hSignatures n hM, hSrcs, Except.ok.inj hMine']

theorem valueOf?_nested (hDig : g.Digestible) (hDig' : h.Digestible) {α : Type}
    {value : Graph K → α}
    (hBodies : ∀ node ∈ g.ops, ∀ node' ∈ h.ops, node'.id = π node.id →
      node'.body.map value = node.body.map value)
    (endless : α) (hM : n ∈ g.nodeIds) :
    valueOf? (h.nestedValues value endless) (π n) = valueOf? (g.nestedValues value endless) n := by
  have hNone : ∀ {k : Graph K}, k.Digestible → ∀ n, n = inputId ∨ n = outputId →
      valueOf? (k.nestedValues value endless) n = none :=
    fun hDig _ hBd =>
      valueOf?_nested_eq_none value endless (hDig.sound.boundary_notMem hBd)
  rcases mem_nodeIds_iff.mp hM with rfl | rfl | hOp
  · rw [hRen.input, hNone hDig _ (.inl rfl), hNone hDig' _ (.inl rfl)]
  · rw [hRen.output, hNone hDig _ (.inr rfl), hNone hDig' _ (.inr rfl)]
  · rcases mem_opIds_iff.mp hOp with ⟨node, hN, rfl⟩
    rcases hRen.exists_node hN with ⟨node', hN', hId, -⟩
    rw [← hId, hDig.sound.valueOf?_owned hDig.owned value endless hN,
      hDig'.sound.valueOf?_owned hDig'.owned value endless hN', hBodies node hN node' hN' hId]

/- Nodes that belong together say the same about themselves, if their nested graphs do. -/
theorem ownMessage_eq (hDig : g.Digestible) (hDig' : h.Digestible)
    {value : Graph K → Except Fault Digest}
    (hBodies : ∀ node ∈ g.ops, ∀ node' ∈ h.ops, node'.id = π node.id →
      node'.body.map value = node.body.map value)
    (endless : Except Fault Digest) (hM : n ∈ g.nodeIds) :
    h.ownMessage (h.nestedValues value endless) (π n) =
      g.ownMessage (g.nestedValues value endless) n := by
  have hS := hDig.sound
  have hS' := hDig'.sound
  have hInputs : h.inputs = g.inputs := congrArg Signature.inputs hRen.boundary
  have hInput : π n = inputId ↔ n = inputId := by
    constructor
    · intro hSame
      exact hRen.injective hS' hM (mem_nodeIds_iff.mpr (.inl rfl)) (hSame.trans hRen.input.symm)
    · rintro rfl
      exact hRen.input
  have hHead : (h.kindOf? (π n)).getD .input = (g.kindOf? n).getD .input ∧
      Param.values (h.paramsOf (π n)) = Param.values (g.paramsOf n) := by
    have hNone : ∀ {k : Graph K}, k.Sound → ∀ n, n = inputId ∨ n = outputId → k.paramsOf n = [] := by
      intro k hS n hBd
      have hOther := hS.boundary_notMem hBd
      rw [← isSome_op?_iff, Option.not_isSome_iff_eq_none] at hOther
      simp [Graph.paramsOf, hOther]
    rcases mem_nodeIds_iff.mp hM with rfl | rfl | hOp
    · rw [hRen.input, hNone hS _ (.inl rfl), hNone hS' _ (.inl rfl)]
      exact ⟨rfl, rfl⟩
    · rw [hRen.output, hNone hS _ (.inr rfl), hNone hS' _ (.inr rfl)]
      exact ⟨rfl, rfl⟩
    · rw [hRen.kindOf? hS hS' hOp]
      exact ⟨rfl, hRen.paramsOf hS hS' hOp⟩
  unfold ownMessage
  rw [hRen.valueOf?_nested hDig hDig' hBodies endless hM, hHead.1, hHead.2, hInputs]
  simp only [hInput]

end

end Renames

---- Whole Graphs ----

theorem Digestible.exists_ownMessage (hDig : g.Digestible) {value : Graph K → Except Fault Digest}
    (hValues : ∀ node ∈ g.ops, ∀ b, node.body = some b → ∃ d, value b = .ok d)
    (endless : Except Fault Digest) (n : Nat) :
    ∃ own, g.ownMessage (g.nestedValues value endless) n = .ok own := by
  unfold ownMessage
  cases hValue : valueOf? (g.nestedValues value endless) n with
  | none => exact ⟨_, rfl⟩
  | some result =>
    have hOp : n ∈ g.opIds := by
      by_contra hOther
      rw [valueOf?_nested_eq_none value endless hOther] at hValue
      cases hValue
    rcases mem_opIds_iff.mp hOp with ⟨node, hN, rfl⟩
    rw [hDig.sound.valueOf?_owned hDig.owned value endless hN] at hValue
    rcases Option.map_eq_some_iff.mp hValue with ⟨b, hB, rfl⟩
    rcases hValues node hN b hB with ⟨d, hDigest⟩
    rw [hDigest]
    exact ⟨_, rfl⟩

theorem digestWith_of_nodeDigests {hash : List UInt8 → Digest} {digests : List (Nat × Digest)}
    (hDigests : g.nodeDigests hash (g.nestedValues (digestWith hash) (.error .tooDeep)) =
      .ok digests) :
    g.digestWith hash = .ok (hash ((digests.map Prod.snd).mergeSort Digest.before).flatten) := by
  rw [digestWith, foldWith_eq]
  exact bind_eq_ok_iff.mpr ⟨digests, hDigests, rfl⟩

theorem Everywhere.exists_digestWith (hDig : Everywhere Digestible g)
    (hash : List UInt8 → Digest) : ∃ d, g.digestWith hash = .ok d := by
  induction hDig with
  | intro hHere _ ih =>
    rcases hHere.sound.exists_digests hHere.acyclic hash
      (hHere.exists_ownMessage ih (.error .tooDeep)) with ⟨d, digests, -, hDigests, -⟩
    exact ⟨_, digestWith_of_nodeDigests hDigests⟩

/-
  Whether a graph is another one whose nodes have other
  numbers, with the same spelling of all places, at every
  level.
-/
inductive Respelled : Graph K → Graph K → Prop where
  | intro {g h : Graph K} (π : Nat → Nat) (renames : Renames π g h) (alike : SpelledAlike π g h)
      (bodies : ∀ node ∈ g.ops, ∀ node' ∈ h.ops, node'.id = π node.id →
        ∀ b b', node.body = some b → node'.body = some b' → Respelled b b') :
      Respelled g h

namespace Respelled

theorem signature_eq (hSpd : g.Respelled h) : h.signature = g.signature := by
  cases hSpd with
  | intro _ hRen _ _ => exact hRen.boundary

theorem digestWith_eq (hSpd : g.Respelled h) (hDig : Everywhere Digestible g)
    (hDig' : Everywhere Digestible h) (hash : List UInt8 → Digest) :
    h.digestWith hash = g.digestWith hash := by
  induction hSpd with
  | @intro g h π hRen hA hBodies ih =>
    have hHere := hDig.here
    have hHere' := hDig'.here
    have hIn : ∀ {k : Graph K}, Everywhere Digestible k → ∀ node ∈ k.ops, ∀ b, node.body = some b →
        ∃ d, b.digestWith hash = .ok d :=
      fun hDig node hN b hB => (hDig.body hN hB).exists_digestWith hash
    -- nested graphs that belong together have the same digest and the same boundary
    have hNested : ∀ node ∈ g.ops, ∀ node' ∈ h.ops, node'.id = π node.id →
        node'.body.map (digestWith hash) = node.body.map (digestWith hash) ∧
          node'.body.map signature = node.body.map signature := by
      intro node hN node' hN' hId
      have hSame := hRen.nodes node hN node' hN' hId
      exact ⟨hSame.map_body (fun b b' hB hB' => ih node hN node' hN' hId b b' hB hB'
          (hDig.body hN hB) (hDig'.body hN' hB')),
        hSame.map_body (fun b b' hB hB' =>
          (hBodies node hN node' hN' hId b b' hB hB').signature_eq)⟩
    have hSignatures : ∀ n ∈ g.nodeIds, h.signatureOf (π n) = g.signatureOf n :=
      fun n hM => hRen.signatureOf hHere.sound hHere'.sound
        (fun node hN node' hN' hId => (hNested node hN node' hN' hId).2) hM
    rcases hHere.sound.exists_digests hHere.acyclic hash
      (hHere.exists_ownMessage (hIn hDig) (.error .tooDeep)) with
      ⟨d, digests, hSolved, hDigests, hPerm⟩
    rcases hHere'.sound.exists_digests hHere'.acyclic hash
      (hHere'.exists_ownMessage (hIn hDig') (.error .tooDeep)) with
      ⟨d', digests', hSolved', hDigests', hPerm'⟩
    have hSame : ∀ n ∈ g.nodeIds, d' (π n) = d n := by
      intro n hM
      exact hRen.digest_eq hHere hA hSignatures (fun n hM => hRen.ownMessage_eq hHere hHere'
          (fun node hN node' hN' hId => (hNested node hN node' hN' hId).1) _ hM)
        hSolved hSolved' hM
    have hListed : (digests'.map Prod.snd).Perm (digests.map Prod.snd) := by
      refine (hPerm'.map Prod.snd).trans (.trans ?_ (hPerm.map Prod.snd).symm)
      rw [map_map, map_map]
      refine (hRen.nodeIds_perm.map d').symm.trans (.of_eq ?_)
      rw [map_map]
      exact map_congr_left hSame
    rw [digestWith_of_nodeDigests hDigests, digestWith_of_nodeDigests hDigests',
      Digest.mergeSort_eq_of_perm hListed]

theorem fingerprint_eq (hSpd : g.Respelled h) (hDig : Everywhere Digestible g)
    (hDig' : Everywhere Digestible h) : h.fingerprint = g.fingerprint := by
  rw [fingerprint, fingerprint, hSpd.digestWith_eq hDig hDig']

end Respelled

namespace Isomorphic

theorem respelled (hIso : g.Isomorphic h) (hLeg : Everywhere Legible g)
    (hLeg' : Everywhere Legible h) : g.Respelled h := by
  induction hIso with
  | @intro g h π hRen hBodies ih =>
    refine .intro π hRen (hRen.spelledAlike hLeg.here hLeg'.here) ?_
    intro node hN node' hN' hId b b' hB hB'
    exact ih node hN node' hN' hId b b' hB hB' (hLeg.body hN hB) (hLeg'.body hN' hB')

theorem fingerprint_eq (hIso : g.Isomorphic h) (hLeg : Everywhere Legible g)
    (hLeg' : Everywhere Legible h) : h.fingerprint = g.fingerprint :=
  (hIso.respelled hLeg hLeg').fingerprint_eq (hLeg.mono (fun _ => Legible.digestible))
    (hLeg'.mono (fun _ => Legible.digestible))

end Isomorphic

end Graph

end CircuitGraph
