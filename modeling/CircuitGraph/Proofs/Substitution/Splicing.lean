import CircuitGraph.Proofs.Graph.Mirror
import CircuitGraph.Proofs.Match.Occurrence
import CircuitGraph.Substitution.Commit

/-
  Putting the replacement of a rule in place of an occurrence
  of its pattern.

  The result has the operations of the host outside the
  occurrence and copies of those of the replacement.
-/

---- Splicings ----

namespace CircuitGraph

open CircuitGraph.Graph

/-
  A rule, a host in which its pattern occurs, the places of
  the host that feed the inputs of the occurrence, and ids for
  the copies of the operations of the replacement, none of
  which the host has given out.
-/
structure Splicing (K : Type) where
  rule : Rule K
  host : Graph K
  image : Nat → Nat
  source : Nat → Nat × Nat
  fresh : Nat → Nat
  usable : rule.Usable
  sound : host.Sound
  occurs : rule.pattern.Occurs host image
  feeds : ∀ i n j, rule.pattern.Wired (inputId, i) (n, j) → host.Wired (source i) (image n, j)
  injective : ∀ n ∈ rule.replacement.opIds, ∀ m ∈ rule.replacement.opIds,
    fresh n = fresh m → n = m
  unissued : ∀ n ∈ rule.replacement.opIds, host.nextId ≤ fresh n

namespace Splicing

variable {K : Type} (s : Splicing K)

def Inside (n : Nat) : Prop :=
  s.rule.pattern.InImage s.image n

def start (a : Nat × Nat) : Nat × Nat :=
  if a.1 = inputId then s.source a.2 else (s.fresh a.1, a.2)

def Ends (b d : Nat × Nat) : Prop :=
  if b.1 = outputId then
    ∃ q, s.rule.pattern.Wired q (outputId, b.2) ∧ s.host.Wired (s.image q.1, q.2) d ∧ ¬ s.Inside d.1
  else d = (s.fresh b.1, b.2)

def copyOf (node : Node (Graph K)) : Node (Graph K) :=
  ⟨s.fresh node.id, node.kind, node.params, node.body.map Graph.copy, none⟩

/- What the boundary and the operations of the host become. -/
structure Members (g : Graph K) : Prop where
  inputs : g.inputs = s.host.inputs
  outputs : g.outputs = s.host.outputs
  ops : ∀ node, node ∈ g.ops ↔ (node ∈ s.host.ops ∧ ¬ s.Inside node.id) ∨
    ∃ r ∈ s.rule.replacement.ops, node = s.copyOf r

/- What the host becomes. -/
structure Result (g : Graph K) : Prop extends s.Members g where
  sound : g.Sound
  wired : ∀ a d, g.Wired a d ↔ (s.host.Wired a d ∧ ¬ s.Inside a.1 ∧ ¬ s.Inside d.1) ∨
    ∃ a' b', s.rule.replacement.Wired a' b' ∧ a = s.start a' ∧ s.Ends b' d

---- The Boundary of an Occurrence ----

variable {s : Splicing K}

theorem inside_image {n : Nat} (hM : n ∈ s.rule.pattern.opIds) : s.Inside (s.image n) :=
  ⟨n, hM, rfl⟩

theorem Inside.mem_opIds {n : Nat} (hIns : s.Inside n) : n ∈ s.host.opIds := by
  rcases hIns with ⟨m, hM, rfl⟩
  exact s.occurs.operation m hM

theorem not_inside_of_boundary {n : Nat} (hBd : n = inputId ∨ n = outputId) : ¬ s.Inside n := by
  intro hIns
  have hNe := s.sound.ne_boundary hIns.mem_opIds
  exact hBd.elim hNe.1 hNe.2

theorem exists_entry {i : Nat} (hLt : i < s.rule.pattern.inputs.length) :
    ∃ n ∈ s.rule.pattern.opIds, ∃ j, s.rule.pattern.Wired (inputId, i) (n, j) := by
  rcases s.usable.isPattern.entry i hLt with ⟨q, hTargets, hN⟩
  refine ⟨q.node, hN, q.index, wired_iff_mem_targets.mpr ⟨q, ?_, rfl⟩⟩
  rw [hTargets]
  exact List.mem_singleton_self q

theorem exists_exit {j : Nat} (hLt : j < s.rule.pattern.outputs.length) :
    ∃ n ∈ s.rule.pattern.opIds, ∃ k, s.rule.pattern.Wired (n, k) (outputId, j) := by
  rcases s.usable.isPattern.exit j hLt with ⟨q, hSrc, hN⟩
  exact ⟨q.node, hN, q.index, s.usable.pattern.sound.wired_iff_source?.mpr ⟨q, hSrc, rfl⟩⟩

theorem signatureOf_image {n : Nat} (hM : n ∈ s.rule.pattern.opIds) :
    s.host.signatureOf (s.image n) = s.rule.pattern.signatureOf n :=
  s.usable.pattern.sound.signatureOf_fitting s.usable.isPattern s.sound hM (s.occurs.kind n hM)

theorem outType?_image {n : Nat} (hM : n ∈ s.rule.pattern.opIds) (k : Nat) :
    s.host.outType? (s.image n, k) = s.rule.pattern.outType? (n, k) := by
  rw [Graph.outType?, signatureOf_image hM, Graph.outType?]

theorem source_spec {i : Nat} {t : WireType} (hType : s.rule.pattern.inputs[i]? = some t) :
    ¬ s.Inside (s.source i).1 ∧ s.host.outType? (s.source i) = some t := by
  rcases exists_entry (lt_of_getElem? hType) with ⟨n, hM, j, hW⟩
  have hFeeds := s.feeds i n j hW
  constructor
  · rcases s.occurs.fed i n hM j hW with ⟨src, hSrc, hOutside⟩
    rwa [s.sound.source_unique hFeeds hSrc]
  · rcases s.sound.wired_types hFeeds with ⟨t', hOut, hIn⟩
    rcases s.usable.pattern.sound.wired_types hW with ⟨t'', hOut'', hIn''⟩
    have hInputs : s.rule.pattern.outType? (inputId, i) = some t := by
      simpa [Graph.outType?] using hType
    rw [Graph.inType?, signatureOf_image hM] at hIn
    rw [hOut, ← hInputs, hOut'', ← hIn'', ← hIn]
    rfl

theorem wired_image_cases {a : Nat × Nat} {n j : Nat} (hM : n ∈ s.rule.pattern.opIds)
    (hW : s.host.Wired a (s.image n, j)) :
    (∃ i, s.rule.pattern.Wired (inputId, i) (n, j) ∧ a = s.source i) ∨
      ∃ m ∈ s.rule.pattern.opIds, ∃ k, s.rule.pattern.Wired (m, k) (n, j) ∧ a = (s.image m, k) := by
  rcases s.usable.wired_image_cases s.sound s.occurs hM hW with ⟨i, hFed, -⟩ | hIn
  · exact .inl ⟨i, hFed, s.sound.source_unique hW (s.feeds i n j hFed)⟩
  · exact .inr hIn

theorem mem_of_output {q : Nat × Nat} {j : Nat} (hW : s.rule.pattern.Wired q (outputId, j)) :
    q.1 ∈ s.rule.pattern.opIds := by
  have hPat := s.usable.pattern.sound
  rcases hPat.wired_types hW with ⟨t, -, hIn⟩
  have hLt : j < s.rule.pattern.outputs.length := by
    simpa [Graph.inType?] using (lt_of_getElem? hIn)
  rcases exists_exit hLt with ⟨n, hM, k, hExit⟩
  rwa [hPat.source_unique hW hExit]

theorem exists_consumer (hCom : s.host.Complete) {j : Nat} {t : WireType}
    (hType : s.rule.pattern.outputs[j]? = some t) (hLin : t ≠ .bool) :
    ∃ d, s.Ends (outputId, j) d := by
  have hPat := s.usable.pattern.sound
  rcases exists_exit (lt_of_getElem? hType) with ⟨n, hMem, k, hExit⟩
  have hOut : s.rule.pattern.outType? (n, k) = some t := by
    rcases hPat.wired_types hExit with ⟨t', hOut, hIn⟩
    rw [Graph.inType?, signatureOf_outputId] at hIn
    rw [hOut, ← hIn, hType]
  rcases hCom.used _ t ((outType?_image hMem k).trans hOut) hLin with ⟨d, hW⟩
  refine ⟨d, ?_⟩
  rw [Ends, if_pos rfl]
  refine ⟨(n, k), hExit, hW, fun hIns => ?_⟩
  -- otherwise the output would feed an operation of the pattern as well
  rcases hIns with ⟨m, hM, hImage⟩
  obtain ⟨d₁, j'⟩ := d
  obtain rfl : s.image m = d₁ := hImage
  rcases wired_image_cases hM hW with ⟨i, hInner, hEq⟩ | ⟨n', hN', k', hInner, hEq⟩
  · rcases hPat.wired_types hInner with ⟨t', hIn, -⟩
    rw [Graph.outType?, signatureOf_inputId] at hIn
    exact (source_spec hIn).1 (hEq ▸ inside_image hMem)
  · have hSame : n = n' := s.occurs.injective n hMem n' hN' (congrArg Prod.fst hEq)
    have hPin : k = k' := congrArg Prod.snd hEq
    subst hSame hPin
    have hLoop := hPat.target_unique hInner hExit (by simp [hOut, hLin])
    exact (hPat.ne_boundary hM).2 (congrArg Prod.fst hLoop)

---- Nodes of the Result ----

theorem fresh_notMem {n : Nat} (hM : n ∈ s.rule.replacement.opIds) :
    s.fresh n ∉ s.host.nodeIds := by
  have hUnissued := s.unissued n hM
  have hStarted := s.sound.started
  intro hOld
  rcases Graph.mem_nodeIds_iff.mp hOld with hEq | hEq | hOp
  · simp only [inputId, outputId] at hEq hStarted
    omega
  · omega
  · rcases Graph.mem_opIds_iff.mp hOp with ⟨node, hN, hId⟩
    have := s.sound.issued node hN
    omega

section

variable {node : Node (Graph K)} (hN : node ∈ s.rule.replacement.ops)

include hN

theorem boundary?_copyOf : (s.copyOf node).boundary? = node.boundary? := by
  unfold Node.boundary? copyOf
  cases node.body with
  | none => exact (s.usable.replacementFormed.owned hN).symm
  | some body => exact congrArg some (signature_copy body)

theorem signature_copyOf : (s.copyOf node).signature = node.signature := by
  unfold Node.signature
  rw [boundary?_copyOf hN]
  rfl

theorem sound_copyOf : (s.copyOf node).Sound := by
  have hS := s.usable.replacement.sound.nodes node hN
  refine ⟨hS.inner, hS.params, hS.body.trans ?_, .inr rfl⟩
  rw [Node.hasBody, Node.hasBody, boundary?_copyOf hN]

end

variable {g : Graph K}

theorem Members.mem_nodeIds_iff (hMembers : s.Members g) {n : Nat} :
    n ∈ g.nodeIds ↔ (n ∈ s.host.nodeIds ∧ ¬ s.Inside n) ∨
      ∃ m ∈ s.rule.replacement.opIds, s.fresh m = n := by
  simp only [Graph.mem_nodeIds_iff, Graph.mem_opIds_iff]
  constructor
  · rintro (hInput | hOutp | ⟨node, hN, rfl⟩)
    · exact .inl ⟨.inl hInput, not_inside_of_boundary (.inl hInput)⟩
    · exact .inl ⟨.inr (.inl hOutp), not_inside_of_boundary (.inr hOutp)⟩
    · rcases (hMembers.ops node).mp hN with ⟨hOld, hOut⟩ | ⟨r, hR, rfl⟩
      · exact .inl ⟨.inr (.inr ⟨node, hOld, rfl⟩), hOut⟩
      · exact .inr ⟨r.id, ⟨r, hR, rfl⟩, rfl⟩
  · rintro (⟨hInput | hOutp | ⟨node, hN, rfl⟩, hOut⟩ | ⟨m, ⟨r, hR, rfl⟩, rfl⟩)
    · exact .inl hInput
    · exact .inr (.inl hOutp)
    · exact .inr (.inr ⟨node, (hMembers.ops node).mpr (.inl ⟨hN, hOut⟩), rfl⟩)
    · exact .inr (.inr ⟨s.copyOf r, (hMembers.ops _).mpr (.inr ⟨r, hR, rfl⟩), rfl⟩)

theorem Members.signatureOf_outside (hMembers : s.Members g)
    (hNodes : ({ g with wires := [] } : Graph K).Sound) {n : Nat} (hM : n ∈ s.host.nodeIds)
    (hOut : ¬ s.Inside n) : g.signatureOf n = s.host.signatureOf n := by
  rcases Graph.mem_nodeIds_iff.mp hM with rfl | rfl | hOp
  · rw [signatureOf_inputId, signatureOf_inputId, hMembers.inputs]
  · rw [signatureOf_outputId, signatureOf_outputId, hMembers.outputs]
  · rcases Graph.mem_opIds_iff.mp hOp with ⟨node, hN, rfl⟩
    rw [s.sound.signatureOf_id hN]
    exact hNodes.signatureOf_id ((hMembers.ops node).mpr (.inl ⟨hN, hOut⟩))

theorem Members.signatureOf_fresh (hMembers : s.Members g)
    (hNodes : ({ g with wires := [] } : Graph K).Sound) {n : Nat}
    (hM : n ∈ s.rule.replacement.opIds) :
    g.signatureOf (s.fresh n) = s.rule.replacement.signatureOf n := by
  rcases Graph.mem_opIds_iff.mp hM with ⟨r, hR, rfl⟩
  rw [s.usable.replacement.sound.signatureOf_id hR, ← signature_copyOf hR]
  exact hNodes.signatureOf_id ((hMembers.ops _).mpr (.inr ⟨r, hR, rfl⟩))

namespace Result

theorem signatureOf_outside (hRes : s.Result g) {n : Nat} (hM : n ∈ s.host.nodeIds)
    (hOut : ¬ s.Inside n) : g.signatureOf n = s.host.signatureOf n :=
  hRes.toMembers.signatureOf_outside (hRes.sound.restrictWires (List.nil_sublist _)) hM hOut

theorem signatureOf_fresh (hRes : s.Result g) {n : Nat} (hM : n ∈ s.rule.replacement.opIds) :
    g.signatureOf (s.fresh n) = s.rule.replacement.signatureOf n :=
  hRes.toMembers.signatureOf_fresh (hRes.sound.restrictWires (List.nil_sublist _)) hM

theorem complete (hRes : s.Result g) (hCom : s.host.Complete) : g.Complete := by
  have hRep := s.usable.replacementFormed.complete
  -- a wire of the replacement of a linear type ends somewhere
  have hEnds : ∀ b t, s.rule.replacement.inType? b = some t → t ≠ .bool → ∃ d, s.Ends b d := by
    rintro ⟨m, j⟩ t hType hLin
    by_cases hOutp : m = outputId
    · subst hOutp
      rw [Graph.inType?, signatureOf_outputId, s.usable.outputs] at hType
      exact exists_consumer hCom hType hLin
    · exact ⟨(s.fresh m, j), by rw [Ends, if_neg hOutp]⟩
  have hUsed : ∀ a t, s.rule.replacement.outType? a = some t → t ≠ .bool →
      ∃ d, g.Wired (s.start a) d := by
    intro a t hType hLin
    rcases hRep.used a t hType hLin with ⟨b, hW⟩
    rcases s.usable.replacement.sound.wired_types hW with ⟨t', hOut, hIn⟩
    obtain rfl := eq_of_some hType hOut
    rcases hEnds b t hIn hLin with ⟨d, hEnd⟩
    exact ⟨d, (hRes.wired _ _).mpr (.inr ⟨a, b, hW, rfl, hEnd⟩)⟩
  constructor
  · rintro ⟨n, j⟩ t hType
    rcases hRes.mem_nodeIds_iff.mp (mem_nodeIds_of_inType? hType) with
      ⟨hMem, hOutside⟩ | ⟨m, hMem, rfl⟩
    · rw [Graph.inType?, hRes.signatureOf_outside hMem hOutside] at hType
      rcases hCom.fed (n, j) t hType with ⟨⟨u, k⟩, hW⟩
      by_cases hIns : s.Inside u
      · rcases hIns with ⟨m, hM, rfl⟩
        rcases s.occurs.exists_output hM hW hOutside with ⟨i, hOutp⟩
        rcases s.usable.pattern.sound.wired_types hOutp with ⟨t', -, hIn⟩
        rw [Graph.inType?, signatureOf_outputId, ← s.usable.outputs] at hIn
        rcases hRep.fed (outputId, i) t' (by simpa [Graph.inType?] using hIn) with ⟨a, hFed⟩
        refine ⟨s.start a, (hRes.wired _ _).mpr (.inr ⟨a, _, hFed, rfl, ?_⟩)⟩
        rw [Ends, if_pos rfl]
        exact ⟨(m, k), hOutp, hW, hOutside⟩
      · exact ⟨(u, k), (hRes.wired _ _).mpr (.inl ⟨hW, hIns, hOutside⟩)⟩
    · rw [Graph.inType?, hRes.signatureOf_fresh hMem] at hType
      rcases hRep.fed (m, j) t hType with ⟨a, hFed⟩
      refine ⟨s.start a, (hRes.wired _ _).mpr (.inr ⟨a, _, hFed, rfl, ?_⟩)⟩
      rw [Ends, if_neg (s.usable.replacement.sound.ne_boundary hMem).2]
  · rintro ⟨n, k⟩ t hType hLin
    rcases hRes.mem_nodeIds_iff.mp (mem_nodeIds_of_outType? hType) with
      ⟨hMem, hOutside⟩ | ⟨m, hMem, rfl⟩
    · rw [Graph.outType?, hRes.signatureOf_outside hMem hOutside] at hType
      rcases hCom.used (n, k) t hType hLin with ⟨⟨v, j⟩, hW⟩
      by_cases hIns : s.Inside v
      · rcases hIns with ⟨m, hM, rfl⟩
        rcases wired_image_cases hM hW with ⟨i, hInput, hEq⟩ | ⟨u, hU, k', -, hEq⟩
        · rcases s.usable.pattern.sound.wired_types hInput with ⟨t', hIn, -⟩
          rw [Graph.outType?, signatureOf_inputId] at hIn
          have hSame : s.host.outType? (n, k) = some t' := hEq ▸ (source_spec hIn).2
          obtain rfl := eq_of_some hSame hType
          have hUse := hUsed (inputId, i) t' (by simpa [Graph.outType?, s.usable.inputs] using hIn) hLin
          rw [start, if_pos rfl] at hUse
          exact hEq ▸ hUse
        · exact absurd (congrArg Prod.fst hEq ▸ inside_image hU) hOutside
      · exact ⟨(v, j), (hRes.wired _ _).mpr (.inl ⟨hW, hOutside, hIns⟩)⟩
    · rw [Graph.outType?, hRes.signatureOf_fresh hMem] at hType
      have hUse := hUsed (m, k) t hType hLin
      rwa [start, if_neg (s.usable.replacement.sound.ne_boundary hMem).1] at hUse

end Result

end Splicing

---- Paths in the Result ----

variable {K : Type}

namespace Splicing

variable (s : Splicing K)

def New (n : Nat) : Prop :=
  ∃ m ∈ s.rule.replacement.opIds, n = s.fresh m

def Old (n : Nat) : Prop :=
  n ∈ s.host.nodeIds ∧ ¬ s.Inside n

def Above (n : Nat) : Prop :=
  s.New n ∨ s.Old n ∧ ∃ t, s.Inside t ∧ Relation.TransGen s.host.Edge n t

def Below (n : Nat) : Prop :=
  s.New n ∨ s.Old n ∧ ∃ t, s.Inside t ∧ Relation.TransGen s.host.Edge t n

/- Whether a node of the result is a copy, or an output of the occurrence leads to it. -/
def Touched (n : Nat) : Prop :=
  s.New n ∨ s.Old n ∧ ∃ t, s.Inside t ∧ s.host.Edge t n

/- How a path of the result runs: inside the replacement, outside it, or across its boundary. -/
inductive Passes : Nat → Nat → Prop where
  | inner {a b : Nat} (hL : a ∈ s.rule.replacement.opIds)
      (hR : b ∈ s.rule.replacement.opIds)
      (hPath : Relation.TransGen s.rule.replacement.Edge a b) :
      Passes (s.fresh a) (s.fresh b)
  | outer {u v : Nat} (hL : s.Old u) (hR : s.Old v)
      (hPath : Relation.TransGen s.host.Edge u v) :
      Passes u v
  | across {u v : Nat} (hL : s.Above u) (hR : s.Below v) (hOne : s.Old u ∨ s.Old v) :
      Passes u v

variable {s}

theorem Old.not_new {n : Nat} (hOld : s.Old n) : ¬ s.New n := by
  rintro ⟨m, hM, rfl⟩
  exact fresh_notMem hM hOld.1

theorem Old.above {n : Nat} (hOld : s.Old n) (hAbove : s.Above n) :
    ∃ t, s.Inside t ∧ Relation.TransGen s.host.Edge n t :=
  hAbove.elim (fun hNew => absurd hNew hOld.not_new) And.right

theorem Old.below {n : Nat} (hOld : s.Old n) (hBelow : s.Below n) :
    ∃ t, s.Inside t ∧ Relation.TransGen s.host.Edge t n :=
  hBelow.elim (fun hNew => absurd hNew hOld.not_new) And.right

theorem new_of_above_below (hConv : s.host.Convex s.Inside) {n : Nat} (hAbove : s.Above n)
    (hBelow : s.Below n) : s.New n := by
  rcases hAbove with hNew | ⟨hOld, t, hT, hDown⟩
  · exact hNew
  · rcases hOld.below hBelow with ⟨u, hU, hUp⟩
    exact absurd hDown (hConv u n t hU hOld.2 hT hUp)

theorem start_cases {a b : Nat × Nat} (hW : s.rule.replacement.Wired a b) :
    (a.1 ∈ s.rule.replacement.opIds ∧ s.start a = (s.fresh a.1, a.2)) ∨
      (a.1 = inputId ∧ s.start a = s.source a.2 ∧ s.Old (s.start a).1 ∧
        ∃ n ∈ s.rule.pattern.opIds, ∃ j, s.rule.pattern.Wired (inputId, a.2) (n, j) ∧
          s.host.Wired (s.start a) (s.image n, j)) := by
  have hS := s.usable.replacement.sound
  rcases hS.edge_source hW.edge with hInput | hOp
  · right
    rcases hS.wired_types hW with ⟨t, hType, -⟩
    rw [Graph.outType?, hInput, signatureOf_inputId, s.usable.inputs] at hType
    rcases exists_entry (lt_of_getElem? hType) with ⟨n, hM, j, hEntry⟩
    have hFeeds := s.feeds _ _ _ hEntry
    rw [start, if_pos hInput]
    exact ⟨hInput, rfl, ⟨(s.sound.edge_mem hFeeds.edge).1, (source_spec hType).1⟩, n, hM, j,
      hEntry, hFeeds⟩
  · exact .inl ⟨hOp, by rw [start, if_neg (hS.ne_boundary hOp).1]⟩

theorem ends_cases {a b d : Nat × Nat} (hW : s.rule.replacement.Wired a b)
    (hEnds : s.Ends b d) : (b.1 ∈ s.rule.replacement.opIds ∧ d = (s.fresh b.1, b.2)) ∨
      (b.1 = outputId ∧ s.Old d.1 ∧ ∃ n ∈ s.rule.pattern.opIds, ∃ k,
        s.rule.pattern.Wired (n, k) (outputId, b.2) ∧ s.host.Wired (s.image n, k) d) := by
  have hS := s.usable.replacement.sound
  rcases hS.edge_target hW.edge with hOutp | hOp
  · right
    rw [Ends, if_pos hOutp] at hEnds
    rcases hEnds with ⟨⟨n, k⟩, hExit, hHost, hOut⟩
    exact ⟨hOutp, ⟨(s.sound.edge_mem hHost.edge).2, hOut⟩, n, mem_of_output hExit, k, hExit, hHost⟩
  · left
    rw [Ends, if_neg (hS.ne_boundary hOp).2] at hEnds
    exact ⟨hOp, hEnds⟩

namespace Passes

variable {u v w : Nat}

theorem trans (hConv : s.host.Convex s.Inside) (hL : s.Passes u v) (hR : s.Passes v w) :
    s.Passes u w := by
  cases hL with
  | @inner a b hA hB hFirst =>
    generalize hMid : s.fresh b = x at hR
    cases hR with
    | @inner c d hC hD hSecond =>
      obtain rfl := s.injective b hB c hC hMid
      exact .inner hA hD (hFirst.trans hSecond)
    | outer hOld => exact absurd ⟨b, hB, hMid.symm⟩ hOld.not_new
    | across hAbove hBelow hOne =>
      refine .across (.inl ⟨a, hA, rfl⟩) hBelow (.inr ?_)
      exact hOne.resolve_left (fun hOld => hOld.not_new ⟨b, hB, hMid.symm⟩)
  | outer hU hV hFirst =>
    cases hR with
    | @inner c d hC hD hSecond => exact absurd ⟨c, hC, rfl⟩ hV.not_new
    | outer hV' hW hSecond => exact .outer hU hW (hFirst.trans hSecond)
    | across hAbove hBelow hOne =>
      rcases hV.above hAbove with ⟨t, hT, hDown⟩
      exact .across (.inr ⟨hU, t, hT, hFirst.trans hDown⟩) hBelow (.inl hU)
  | across hAbove hBelow hOne =>
    cases hR with
    | @inner c d hC hD hSecond =>
      refine .across hAbove (.inl ⟨d, hD, rfl⟩) (.inl ?_)
      exact hOne.resolve_right (fun hOld => hOld.not_new ⟨c, hC, rfl⟩)
    | outer hV hW hSecond =>
      rcases hV.below hBelow with ⟨t, hT, hUp⟩
      exact .across hAbove (.inr ⟨hW, t, hT, hUp.trans hSecond⟩) (.inr hW)
    | across hAbove' hBelow' hOne' =>
      have hNew := new_of_above_below hConv hAbove' hBelow
      exact .across hAbove hBelow' (.inl (hOne.resolve_right (fun hOld => hOld.not_new hNew)))

theorem ne (hAcy : s.host.Acyclic) (hConv : s.host.Convex s.Inside) (hPasses : s.Passes u v) :
    u ≠ v := by
  cases hPasses with
  | @inner a b hA hB hPath =>
    intro hEq
    obtain rfl := s.injective a hA b hB hEq
    exact s.usable.replacementFormed.acyclic a hPath
  | outer _ _ hPath =>
    rintro rfl
    exact hAcy u hPath
  | across hAbove hBelow hOne =>
    rintro rfl
    exact (or_self_iff.mp hOne).not_new (new_of_above_below hConv hAbove hBelow)

end Passes

namespace Result

variable {g : Graph K}

section

variable (hRes : s.Result g)

include hRes

theorem passes_of_edge {u v : Nat} (hEdge : g.Edge u v) : s.Passes u v := by
  rcases edge_iff_wired.mp hEdge with ⟨i, j, hW⟩
  rcases (hRes.wired _ _).mp hW with ⟨hHost, hL, hR⟩ | ⟨a, b, hIn, hStart, hEnd⟩
  · have hEnds := s.sound.edge_mem hHost.edge
    exact .outer ⟨hEnds.1, hL⟩ ⟨hEnds.2, hR⟩ (.single hHost.edge)
  · obtain rfl : u = (s.start a).1 := congrArg Prod.fst hStart
    rcases ends_cases hIn hEnd with ⟨hB, hD⟩ | ⟨-, hOld, n, hM, k, -, hUp⟩
    · obtain rfl : v = s.fresh b.1 := congrArg Prod.fst hD
      rcases start_cases hIn with ⟨hA, hEq⟩ | ⟨-, -, hOld, n, hM, j, -, hDown⟩
      · rw [hEq]
        exact .inner hA hB (.single hIn.edge)
      · exact .across (.inr ⟨hOld, _, inside_image hM, .single hDown.edge⟩) (.inl ⟨b.1, hB, rfl⟩)
          (.inl hOld)
    · refine .across ?_ (.inr ⟨hOld, _, inside_image hM, .single hUp.edge⟩) (.inr hOld)
      rcases start_cases hIn with ⟨hA, hEq⟩ | ⟨-, -, hOld', n', hM', j', -, hDown⟩
      · exact .inl ⟨a.1, hA, by rw [hEq]⟩
      · exact .inr ⟨hOld', _, inside_image hM', .single hDown.edge⟩

theorem acyclic (hAcy : s.host.Acyclic) (hConv : s.host.Convex s.Inside) : g.Acyclic := by
  have hPasses : ∀ u v, Relation.TransGen g.Edge u v → s.Passes u v := by
    intro u v hPath
    induction hPath with
    | single hEdge => exact hRes.passes_of_edge hEdge
    | tail _ hEdge ih => exact ih.trans hConv (hRes.passes_of_edge hEdge)
  exact fun n hLoop => (hPasses n n hLoop).ne hAcy hConv rfl

theorem edge_or_touched {u v : Nat} (hEdge : g.Edge u v) : s.host.Edge u v ∨ s.Touched v := by
  rcases edge_iff_wired.mp hEdge with ⟨i, j, hW⟩
  rcases (hRes.wired _ _).mp hW with ⟨hHost, -, -⟩ | ⟨a, b, hIn, -, hEnd⟩
  · exact .inl hHost.edge
  · right
    rcases ends_cases hIn hEnd with ⟨hB, hD⟩ | ⟨-, hOld, n, hM, k, -, hUp⟩
    · exact .inl ⟨b.1, hB, congrArg Prod.fst hD⟩
    · exact .inr ⟨hOld, _, inside_image hM, hUp.edge⟩

theorem intact (hI : s.host.Intact) : g.Intact := by
  refine .intro g hRes.sound (fun node hN body hB => ?_)
  rcases (hRes.ops node).mp hN with ⟨hOld, -⟩ | ⟨r, hR, rfl⟩
  · exact hI.body hOld hB
  · rcases Option.map_eq_some_iff.mp hB with ⟨inner, hIn, rfl⟩
    exact (s.usable.replacement.body hR hIn).copy

theorem wellFormed (hF : s.host.WellFormed) (hAcy : g.Acyclic) : g.WellFormed := by
  refine .intro g (hRes.complete hF.complete) hAcy ?_ ?_
  · intro node hN
    rcases (hRes.ops node).mp hN with ⟨hOld, -⟩ | ⟨r, hR, rfl⟩
    · exact hF.owned hOld
    · rfl
  · intro node hN body hB
    rcases (hRes.ops node).mp hN with ⟨hOld, -⟩ | ⟨r, hR, rfl⟩
    · exact hF.body hOld hB
    · rcases Option.map_eq_some_iff.mp hB with ⟨inner, hIn, rfl⟩
      exact (s.usable.replacement.body hR hIn).wellFormed_copy
        (s.usable.replacementFormed.body hR hIn)

theorem of_alike {g' : Graph K} (hA : g.Alike g') : s.Result g' := by
  refine ⟨⟨hA.inputs.trans hRes.inputs, hA.outputs.trans hRes.outputs, fun node => ?_⟩,
    hRes.sound.of_alike hA, fun a d => ?_⟩
  · rw [hA.ops]
    exact hRes.ops node
  · rw [hA.wired_iff]
    exact hRes.wired a d

end

end Result

end Splicing

end CircuitGraph
