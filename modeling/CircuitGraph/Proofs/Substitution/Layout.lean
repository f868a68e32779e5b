import CircuitGraph.Proofs.Substitution.Planning
import CircuitGraph.Proofs.Substitution.Splicing

/-
  The graph that a plan leads to.

  The layout of a splicing lists the operations and the wires
  of the result one by one, in the order in which they are put
  in.
-/

---- Splicings of Plans ----

namespace CircuitGraph

open List CircuitGraph.Graph

variable {K : Type} {a d b : Nat × Nat}

def Splicing.ofPlan (rule : Rule K) (host : Graph K) (f : Nat → Nat) (p : Plan)
    (hUse : rule.Usable) (hS : host.Sound) (hOcc : rule.pattern.Occurs host f)
    (hJoins : p.Joins rule.pattern host f) : Splicing K where
  rule := rule
  host := host
  image := f
  source := fun i => (p.sources[i]?.map Pin.place).getD (0, 0)
  fresh := fun n => host.nextId + rule.replacement.opIds.idxOf n
  usable := hUse
  sound := hS
  occurs := hOcc
  feeds := by
    intro i n j hW
    rcases hUse.pattern.sound.wired_types hW with ⟨t, hType, -⟩
    have hLt : i < rule.pattern.inputs.length := by
      simpa [Graph.outType?] using (lt_of_getElem? hType)
    rcases hJoins.sources i hLt with ⟨pin, hPin, hFeeds⟩
    rw [hPin]
    exact hFeeds n j hW
  injective := by
    intro n hN m hM hEq
    exact (idxOf_inj hN).mp (Nat.add_left_cancel hEq)
  unissued := fun n _ => Nat.le_add_right _ _

/- Whether a plan has the pins that a splicing joins. -/
structure Plan.Serves (p : Plan) (s : Splicing K) : Prop where
  sources : ∀ i < s.rule.pattern.inputs.length,
    ∃ pin, p.sources[i]? = some pin ∧ pin.place = s.source i
  width : p.sources.length = s.rule.pattern.inputs.length
  count : p.consumers.length = s.rule.pattern.outputs.length
  consumers : ∀ j < s.rule.pattern.outputs.length, ∃ pins, p.consumers[j]? = some pins ∧
    (pins.map Pin.place).Nodup ∧ ∀ d, d ∈ pins.map Pin.place ↔ s.Ends (outputId, j) d

theorem Plan.Joins.serves {rule : Rule K} {host : Graph K} {f : Nat → Nat} {p : Plan}
    (hUse : rule.Usable) (hS : host.Sound) (hOcc : rule.pattern.Occurs host f)
    (hJoins : p.Joins rule.pattern host f) :
    p.Serves (.ofPlan rule host f p hUse hS hOcc hJoins) := by
  refine ⟨?_, hJoins.width, hJoins.count, ?_⟩
  · intro i hLt
    rcases hJoins.sources i hLt with ⟨pin, hPin, -⟩
    refine ⟨pin, hPin, ?_⟩
    simp [Splicing.ofPlan, hPin]
  · intro j hLt
    rcases hJoins.consumers j hLt with ⟨pins, hPins, hNodup, hMem⟩
    refine ⟨pins, hPins, hNodup, fun d => ?_⟩
    rw [hMem, Splicing.Ends, if_pos rfl]
    exact Iff.rfl

def Plan.keeps (p : Plan) (n : Nat) : Bool :=
  decide (n ∉ p.found.ids)

/- Whether a plan stands for a splicing, with the ids that come next. -/
structure Plan.Splices (rs : RuleSet K) (p : Plan) (s : Splicing K) : Prop where
  rule : rs.rules[p.found.rule]? = some s.rule
  stands : p.found.Stands s.rule.pattern s.image
  serves : p.Serves s
  fresh : ∀ n, s.fresh n = s.host.nextId + s.rule.replacement.opIds.idxOf n

namespace Plan.Splices

variable {rs : RuleSet K} {p : Plan} {s : Splicing K} (hSpl : p.Splices rs s)

include hSpl

theorem inside_iff {n : Nat} : s.Inside n ↔ n ∈ p.found.ids :=
  hSpl.stands.mem_ids_iff.symm

theorem keeps_iff (n : Nat) : p.keeps n = true ↔ ¬ s.Inside n := by
  rw [Plan.keeps, decide_eq_true_iff, hSpl.inside_iff]

/- The operations that do not stay are those of the occurrence. -/
theorem perm_removed : ((s.host.ops.filter (fun node => !p.keeps node.id)).map Node.id).Perm
      (s.rule.pattern.opIds.map s.image) := by
  have hIns : ∀ n, (!p.keeps n) = true ↔ s.Inside n := by
    intro n
    rw [Bool.not_eq_true', ← Bool.not_eq_true, hSpl.keeps_iff, not_not]
  refine (perm_ext_iff_of_nodup (s.sound.unique.sublist (filter_sublist.map _)) ?_).mpr ?_
  · exact List.Nodup.map_on (fun n hN m hM hEq => s.occurs.injective n hN m hM hEq)
      (Graph.opIds_nodup _)
  · intro n
    rw [mem_map, mem_map]
    constructor
    · rintro ⟨node, hMem, rfl⟩
      exact (hIns node.id).mp (mem_filter.mp hMem).2
    · rintro ⟨k, hK, rfl⟩
      rcases Graph.mem_opIds_iff.mp (s.occurs.operation k hK) with ⟨node, hNode, hId⟩
      exact ⟨node, mem_filter.mpr ⟨hNode, (hIns node.id).mpr ⟨k, hK, hId.symm⟩⟩, hId⟩

theorem fresh_lt {n : Nat} (hMem : n ∈ s.rule.replacement.opIds) :
    s.fresh n < s.host.nextId + s.rule.replacement.ops.length := by
  rw [hSpl.fresh, ← s.usable.replacement.sound.length_opIds]
  exact Nat.add_lt_add_left (idxOf_lt_length_iff.mpr hMem) _

end Plan.Splices

---- Layouts ----

namespace Splicing

variable (s : Splicing K) (p : Plan)

def startPin (src : Pin) : Pin :=
  if src.node = inputId then p.sources[src.index]?.getD src
  else ⟨.number (s.fresh src.node), src.slot⟩

def endPins (dst : Pin) : List Pin :=
  if dst.node = outputId then p.consumers[dst.index]?.getD []
  else [⟨.number (s.fresh dst.node), dst.slot⟩]

def wiresOf (w : Wire) : List Wire :=
  (s.endPins p w.dst).map (fun d => ⟨s.startPin p w.src, d⟩)

def layout (keep : Nat → Bool) : Graph K :=
  { s.host with
    ops := s.host.ops.filter (fun node => keep node.id) ++ s.rule.replacement.sortedOps.map s.copyOf
    wires := s.host.wires.filter (fun w => keep w.src.node && keep w.dst.node) ++
      s.rule.replacement.sortedWires.flatMap (s.wiresOf p)
    nextId := s.host.nextId + s.rule.replacement.ops.length }

variable {s p}

theorem mem_sortedWires_iff {g : Graph K} {w : Wire} : w ∈ g.sortedWires ↔ w ∈ g.wires :=
  mem_mergeSort

section

variable (hServes : p.Serves s) {w : Wire} (hMem : w ∈ s.rule.replacement.wires)

include hServes hMem

theorem exists_sourcePin (hInput : w.src.node = inputId) :
    ∃ pin, p.sources[w.src.index]? = some pin ∧ pin.place = s.source w.src.index := by
  rcases s.usable.replacement.sound.typed w hMem with ⟨t, hType, -⟩
  rw [Graph.outType?, show w.src.place.1 = inputId from hInput, signatureOf_inputId,
    s.usable.inputs] at hType
  exact hServes.sources _ (lt_of_getElem? hType)

theorem exists_consumerPins (hOutp : w.dst.node = outputId) :
    ∃ pins, p.consumers[w.dst.index]? = some pins ∧ (pins.map Pin.place).Nodup ∧
      ∀ d, d ∈ pins.map Pin.place ↔ s.Ends (outputId, w.dst.index) d := by
  rcases s.usable.replacement.sound.typed w hMem with ⟨t, -, hType⟩
  rw [Graph.inType?, show w.dst.place.1 = outputId from hOutp, signatureOf_outputId,
    s.usable.outputs] at hType
  exact hServes.consumers _ (lt_of_getElem? hType)

theorem place_startPin : (s.startPin p w.src).place = s.start w.src.place := by
  unfold startPin start
  by_cases hInput : w.src.node = inputId
  · rcases exists_sourcePin hServes hMem hInput with ⟨pin, hPin, hPlace⟩
    rw [if_pos hInput, if_pos (show w.src.place.1 = inputId from hInput), hPin]
    exact hPlace
  · rw [if_neg hInput, if_neg (show ¬ w.src.place.1 = inputId from hInput)]
    rfl

theorem place_endPins : ((s.endPins p w.dst).map Pin.place).Nodup ∧
      ∀ d, d ∈ (s.endPins p w.dst).map Pin.place ↔ s.Ends w.dst.place d := by
  unfold endPins
  by_cases hOutp : w.dst.node = outputId
  · rcases exists_consumerPins hServes hMem hOutp with ⟨pins, hPins, hNodup, hEnds⟩
    rw [if_pos hOutp, hPins]
    refine ⟨hNodup, fun d => (hEnds d).trans ?_⟩
    rw [show w.dst.place = (outputId, w.dst.index) from Prod.ext hOutp rfl]
  · rw [if_neg hOutp]
    refine ⟨nodup_singleton _, fun d => ?_⟩
    rw [Ends, if_neg (show ¬ w.dst.place.1 = outputId from hOutp)]
    rw [map_cons, map_nil, mem_singleton]
    exact Iff.rfl

end

section

variable {rs : RuleSet K} (hSpl : p.Splices rs s)

include hSpl

theorem wired_layout_iff :
    (s.layout p p.keeps).Wired a d ↔ (s.host.Wired a d ∧ ¬ s.Inside a.1 ∧ ¬ s.Inside d.1) ∨
      ∃ a' b', s.rule.replacement.Wired a' b' ∧ a = s.start a' ∧ s.Ends b' d := by
  have hServes := hSpl.serves
  simp only [Graph.Wired, layout, mem_append, mem_filter, Bool.and_eq_true, hSpl.keeps_iff,
    mem_flatMap, mem_sortedWires_iff, wiresOf, mem_map]
  constructor
  · rintro ⟨w, ⟨hMem, hOut⟩ | ⟨v, hMem, e, hEnd, rfl⟩, rfl, rfl⟩
    · exact .inl ⟨⟨w, hMem, rfl, rfl⟩, hOut⟩
    · refine .inr ⟨v.src.place, v.dst.place, ⟨v, hMem, rfl, rfl⟩, place_startPin hServes hMem, ?_⟩
      exact ((place_endPins hServes hMem).2 _).mp (mem_map_of_mem hEnd)
  · rintro (⟨⟨w, hMem, rfl, rfl⟩, hOut⟩ | ⟨a', b', ⟨v, hMem, rfl, rfl⟩, rfl, hEnds⟩)
    · exact ⟨w, .inl ⟨hMem, hOut⟩, rfl, rfl⟩
    · rcases mem_map.mp (((place_endPins hServes hMem).2 _).mpr hEnds) with ⟨e, hEnd, rfl⟩
      exact ⟨_, .inr ⟨v, hMem, e, hEnd, rfl⟩, place_startPin hServes hMem, rfl⟩

theorem members_layout : s.Members (s.layout p p.keeps) := by
  refine ⟨rfl, rfl, fun node => ?_⟩
  simp only [layout, mem_append, mem_filter, hSpl.keeps_iff, mem_map, mem_sortedOps_iff]
  refine or_congr Iff.rfl (exists_congr (fun r => and_congr_right (fun _ => ?_)))
  exact eq_comm

theorem sound_layout_nodes : ({ s.layout p p.keeps with wires := [] } : Graph K).Sound where
  nodes := by
    intro node hMem
    rcases ((members_layout hSpl).ops node).mp hMem with ⟨hOld, -⟩ | ⟨r, hR, rfl⟩
    · exact s.sound.nodes node hOld
    · exact sound_copyOf hR
  unique := by
    simp only [layout, map_append, map_map]
    refine nodup_append.mpr ⟨s.sound.unique.sublist (filter_sublist.map _), ?_, ?_⟩
    · have hIds : (s.rule.replacement.sortedOps.map Node.id).Nodup :=
        ((mergeSort_perm _ _).map Node.id).nodup_iff.mpr s.usable.replacement.sound.unique
      refine List.Nodup.map_on ?_ (List.Nodup.of_map Node.id hIds)
      intro r hR q hQ hEq
      exact inj_on_of_nodup_map hIds hR hQ (s.injective _
        (Graph.mem_opIds_of_mem (mem_sortedOps_iff.mp hR)) _
        (Graph.mem_opIds_of_mem (mem_sortedOps_iff.mp hQ)) hEq)
    · intro n hOld m hNew hEq
      rcases mem_map.mp hOld with ⟨node, hN, rfl⟩
      rcases mem_map.mp hNew with ⟨r, hR, rfl⟩
      have hLow := s.sound.issued node (mem_filter.mp hN).1
      have hHigh := s.unissued r.id (Graph.mem_opIds_of_mem (mem_sortedOps_iff.mp hR))
      have hSame : node.id = s.fresh r.id := hEq
      omega
  operation := by
    intro node hMem
    rcases ((members_layout hSpl).ops node).mp hMem with ⟨hOld, -⟩ | ⟨r, hR, rfl⟩
    · exact s.sound.operation node hOld
    · have hHigh := s.unissued r.id (Graph.mem_opIds_of_mem hR)
      have hStarted := s.sound.started
      simp only [outputId] at hStarted
      exact isOpId_iff.mpr (show 2 ≤ s.fresh r.id by omega)
  issued := by
    intro node hMem
    rcases ((members_layout hSpl).ops node).mp hMem with ⟨hOld, -⟩ | ⟨r, hR, rfl⟩
    · exact Nat.lt_of_lt_of_le (s.sound.issued node hOld) (Nat.le_add_right _ _)
    · exact hSpl.fresh_lt (Graph.mem_opIds_of_mem hR)
  started := Nat.lt_of_lt_of_le s.sound.started (Nat.le_add_right _ _)
  typed := by simp
  single := by simp
  linear := by simp

end

---- Wires of a Layout ----

variable {s : Splicing K} {g : Graph K}

theorem start_injective {a' b' : Nat × Nat} (hL : s.rule.replacement.Wired a b)
    (hR : s.rule.replacement.Wired a' b') (hEq : s.start a = s.start a')
    (hLin : s.rule.replacement.outType? a ≠ some .bool) : a = a' := by
  rcases start_cases hL with ⟨hA, hStart⟩ | ⟨hInput, hStart, hOld, n, hN, j, hEntry, hFeeds⟩
  · rcases start_cases hR with ⟨hA', hStart'⟩ | ⟨-, -, hOld', -⟩
    · rw [hStart, hStart'] at hEq
      exact Prod.ext (s.injective _ hA _ hA' (Prod.mk.inj hEq).1) (Prod.mk.inj hEq).2
    · rw [← hEq, hStart] at hOld'
      exact absurd ⟨a.1, hA, rfl⟩ hOld'.not_new
  · rcases start_cases hR with ⟨hA', hStart'⟩ | ⟨hInput', hStart', -, n', hN', j', hEntry', hFeeds'⟩
    · rw [hEq, hStart'] at hOld
      exact absurd ⟨a'.1, hA', rfl⟩ hOld.not_new
    · -- both are inputs of the pattern that one place feeds
      have hType : s.host.outType? (s.start a) ≠ some .bool := by
        rcases s.usable.replacement.sound.wired_types hL with ⟨t, hOut, -⟩
        have hInputs := hOut
        rw [Graph.outType?, hInput, signatureOf_inputId, s.usable.inputs] at hInputs
        rwa [hStart, (source_spec hInputs).2, ← hOut]
      have hSame := s.sound.target_unique hFeeds (hEq ▸ hFeeds') hType
      obtain rfl := s.occurs.injective n hN n' hN' (congrArg Prod.fst hSame)
      obtain rfl : j = j' := congrArg Prod.snd hSame
      have hIndex := congrArg Prod.snd (s.usable.pattern.sound.source_unique hEntry hEntry')
      exact Prod.ext (hInput.trans hInput'.symm) hIndex

theorem ends_unique {d' : Nat × Nat} (hW : s.rule.replacement.Wired a b)
    (hLin : s.rule.replacement.outType? a ≠ some .bool) (hL : s.Ends b d)
    (hR : s.Ends b d') : d = d' := by
  rcases ends_cases hW hL with ⟨hB, hD⟩ | ⟨hOutp, -, n, hN, k, hExit, hOut⟩
  · rcases ends_cases hW hR with ⟨-, hD'⟩ | ⟨hOutp, -⟩
    · rw [hD, hD']
    · exact absurd hOutp (s.usable.replacement.sound.ne_boundary hB).2
  · rcases ends_cases hW hR with ⟨hB, -⟩ | ⟨-, -, n', hN', k', hExit', hOut'⟩
    · exact absurd hOutp (s.usable.replacement.sound.ne_boundary hB).2
    · have hSame := s.usable.pattern.sound.source_unique hExit hExit'
      obtain rfl : n = n' := congrArg Prod.fst hSame
      obtain rfl : k = k' := congrArg Prod.snd hSame
      refine s.sound.target_unique hOut hOut' ?_
      rcases s.usable.replacement.sound.wired_types hW with ⟨t, hType, hIn⟩
      rcases s.usable.pattern.sound.wired_types hExit with ⟨t', hType', hIn'⟩
      rw [Graph.inType?, hOutp, signatureOf_outputId, s.usable.outputs] at hIn
      rw [Graph.inType?, signatureOf_outputId, hIn] at hIn'
      rw [outType?_image hN, hType', ← hIn', ← hType]
      exact hLin

theorem ends_disjoint {a' b' : Nat × Nat} (hL : s.rule.replacement.Wired a b)
    (hRight : s.rule.replacement.Wired a' b') (hEnds : s.Ends b d) (hEnds' : s.Ends b' d) :
    b = b' := by
  rcases ends_cases hL hEnds with ⟨hB, rfl⟩ | ⟨hOutp, hOld, n, hN, k, hExit, hOut⟩
  · rcases ends_cases hRight hEnds' with ⟨hB', hEq⟩ | ⟨-, hOld', -⟩
    · exact Prod.ext (s.injective _ hB _ hB' (Prod.mk.inj hEq).1) (Prod.mk.inj hEq).2
    · exact absurd ⟨b.1, hB, rfl⟩ hOld'.not_new
  · rcases ends_cases hRight hEnds' with ⟨hB', rfl⟩ | ⟨hOutp', -, n', hN', k', hExit', hOut'⟩
    · exact absurd ⟨b'.1, hB', rfl⟩ hOld.not_new
    · have hSame := s.sound.source_unique hOut hOut'
      obtain rfl := s.occurs.injective n hN n' hN' (congrArg Prod.fst hSame)
      obtain rfl : k = k' := congrArg Prod.snd hSame
      rcases s.usable.pattern.sound.wired_iff_source?.mp hExit with ⟨q, hQ, hPlace⟩
      rcases s.usable.pattern.sound.wired_iff_source?.mp hExit' with ⟨r, hR, hPlace'⟩
      exact Prod.ext (hOutp.trans hOutp'.symm)
        (s.usable.isPattern.distinct _ _ q r hQ hR (hPlace.trans hPlace'.symm))

section

variable
  (hMembers : s.Members g)
  (hNodes : ({ g with wires := [] } : Graph K).Sound)

include hMembers hNodes

theorem outType?_start (hW : s.rule.replacement.Wired a b) :
    g.outType? (s.start a) = s.rule.replacement.outType? a := by
  rcases start_cases hW with ⟨hA, hStart⟩ | ⟨hInput, hStart, hOld, -⟩
  · rw [hStart, Graph.outType?, hMembers.signatureOf_fresh hNodes hA, Graph.outType?]
  · rcases s.usable.replacement.sound.wired_types hW with ⟨t, hOut, -⟩
    have hType := hOut
    rw [Graph.outType?, hInput, signatureOf_inputId, s.usable.inputs] at hType
    rw [Graph.outType?, hMembers.signatureOf_outside hNodes hOld.1 hOld.2, hOut, hStart]
    exact (source_spec hType).2

theorem inType?_of_ends (hW : s.rule.replacement.Wired a b) (hEnds : s.Ends b d) :
    g.inType? d = s.rule.replacement.inType? b := by
  rcases ends_cases hW hEnds with ⟨hB, hD⟩ | ⟨hOutp, hOld, n, hN, k, hExit, hOut⟩
  · rw [hD, Graph.inType?, hMembers.signatureOf_fresh hNodes hB, Graph.inType?]
  · rcases s.usable.pattern.sound.wired_types hExit with ⟨t, hType, hIn⟩
    rcases s.sound.wired_types hOut with ⟨t', hType', hIn'⟩
    rw [outType?_image hN, hType] at hType'
    rw [Graph.inType?, signatureOf_outputId] at hIn
    rw [Graph.inType?, hMembers.signatureOf_outside hNodes hOld.1 hOld.2, Graph.inType?, hOutp,
      signatureOf_outputId, s.usable.outputs, hIn, hType']
    exact hIn'

theorem wired_spec (hW : (s.host.Wired a d ∧ ¬ s.Inside a.1 ∧ ¬ s.Inside d.1) ∨
      ∃ a' b', s.rule.replacement.Wired a' b' ∧ a = s.start a' ∧ s.Ends b' d) :
    (∃ t, g.outType? a = some t ∧ g.inType? d = some t) ∧
      (g.outType? a ≠ some .bool → ∀ e, (s.host.Wired a e ∧ ¬ s.Inside a.1 ∧ ¬ s.Inside e.1) ∨
        (∃ a' b', s.rule.replacement.Wired a' b' ∧ a = s.start a' ∧ s.Ends b' e) → d = e) := by
  -- a place of the host that keeps a wire feeds no input of the occurrence
  have hMixed : ∀ {a' b' e : Nat × Nat}, s.host.Wired (s.start a') e → ¬ s.Inside e.1 →
      s.rule.replacement.Wired a' b' → g.outType? (s.start a') ≠ some .bool → False := by
    intro a' b' e hHost hOutside hInner hLin
    have hMem := (s.sound.edge_mem hHost.edge).1
    rcases start_cases hInner with ⟨hA, hStart⟩ | ⟨-, -, hOld, n, hN, j, -, hFeeds⟩
    · rw [hStart] at hMem
      exact fresh_notMem hA hMem
    · rw [Graph.outType?, hMembers.signatureOf_outside hNodes hOld.1 hOld.2] at hLin
      rw [s.sound.target_unique hHost hFeeds hLin] at hOutside
      exact hOutside (inside_image hN)
  rcases hW with ⟨hHost, hA, hD⟩ | ⟨a', b', hInner, rfl, hEnds⟩
  · have hMem := s.sound.edge_mem hHost.edge
    constructor
    · rcases s.sound.wired_types hHost with ⟨t, hOut, hIn⟩
      refine ⟨t, ?_, ?_⟩
      · rw [Graph.outType?, hMembers.signatureOf_outside hNodes hMem.1 hA]
        exact hOut
      · rw [Graph.inType?, hMembers.signatureOf_outside hNodes hMem.2 hD]
        exact hIn
    · rintro hLin e (⟨hOther, -, -⟩ | ⟨a', b', hInner, rfl, -⟩)
      · rw [Graph.outType?, hMembers.signatureOf_outside hNodes hMem.1 hA] at hLin
        exact s.sound.target_unique hHost hOther hLin
      · exact (hMixed hHost hD hInner hLin).elim
  · constructor
    · rcases s.usable.replacement.sound.wired_types hInner with ⟨t, hOut, hIn⟩
      exact ⟨t, (outType?_start hMembers hNodes hInner).trans hOut,
        (inType?_of_ends hMembers hNodes hInner hEnds).trans hIn⟩
    · rintro hLin e (⟨hHost, -, hE⟩ | ⟨a'', b'', hOther, hEq, hEnds'⟩)
      · exact (hMixed hHost hE hInner hLin).elim
      · rw [outType?_start hMembers hNodes hInner] at hLin
        obtain rfl := start_injective hInner hOther hEq hLin
        obtain rfl := s.usable.replacement.sound.target_unique hInner hOther hLin
        exact ends_unique hInner hLin hEnds hEnds'

end

variable {rs : RuleSet K} {p : Plan} (hSpl : p.Splices rs s)

include hSpl

theorem single_layout : ((s.layout p p.keeps).wires.map (fun w => w.dst.place)).Nodup := by
  have hServes := hSpl.serves
  have hS := s.usable.replacement.sound
  have hSort : s.rule.replacement.sortedWires.Nodup :=
    (mergeSort_perm _ _).nodup_iff.mpr hS.wires_nodup
  simp only [layout, map_append, map_flatMap]
  refine nodup_append.mpr ⟨s.sound.single.sublist (filter_sublist.map _), ?_, ?_⟩
  · refine nodup_flatMap.mpr ⟨fun w hMem => ?_, hSort.pairwise_of_forall_ne ?_⟩
    · simp only [wiresOf, map_map]
      exact (place_endPins hServes (mem_sortedWires_iff.mp hMem)).1
    · intro v hV w hW hNe d hL hR
      simp only [wiresOf, map_map] at hL hR
      have hV := mem_sortedWires_iff.mp hV
      have hW := mem_sortedWires_iff.mp hW
      refine hNe (hS.wire_eq_of_dst hV hW ?_)
      exact ends_disjoint ⟨v, hV, rfl, rfl⟩ ⟨w, hW, rfl, rfl⟩
        (((place_endPins hServes hV).2 d).mp hL) (((place_endPins hServes hW).2 d).mp hR)
  · -- what the occurrence led to was fed by it only
    intro d hOld e hNew hEq
    subst hEq
    rcases mem_map.mp hOld with ⟨v, hV, rfl⟩
    rcases mem_flatMap.mp hNew with ⟨w, hW, hEnd⟩
    simp only [wiresOf, map_map] at hEnd
    have hW := mem_sortedWires_iff.mp hW
    have hEnds := ((place_endPins hServes hW).2 _).mp hEnd
    rcases mem_filter.mp hV with ⟨hV, hOutside⟩
    rw [Bool.and_eq_true, hSpl.keeps_iff, hSpl.keeps_iff] at hOutside
    have hWired : s.host.Wired v.src.place v.dst.place := ⟨v, hV, rfl, rfl⟩
    rcases ends_cases ⟨w, hW, rfl, rfl⟩ hEnds with ⟨hB, hD⟩ | ⟨-, -, n, hN, k, -, hOut⟩
    · rw [hD] at hWired
      exact fresh_notMem hB (s.sound.edge_mem hWired.edge).2
    · have hSame : v.src.node = s.image n :=
        congrArg Prod.fst (s.sound.source_unique hWired hOut)
      exact hOutside.1 (hSame ▸ inside_image hN)

theorem result_layout : s.Result (s.layout p p.keeps) := by
  have hNodes := sound_layout_nodes hSpl
  have hMembers := members_layout hSpl
  have hSingle := single_layout hSpl
  have hWired := fun a d => wired_layout_iff hSpl (a := a) (d := d)
  refine ⟨hMembers, { hNodes with typed := ?_, single := hSingle, linear := ?_ }, hWired⟩
  · intro w hMem
    exact (wired_spec hMembers hNodes ((hWired _ _).mp ⟨w, hMem, rfl, rfl⟩)).1
  · intro v hV w hW hSrc hLin
    refine eq_of_key_eq hSingle hV hW ?_
    refine (wired_spec hMembers hNodes ((hWired _ _).mp ⟨v, hV, rfl, rfl⟩)).2 hLin _ ?_
    exact (hWired _ _).mp ⟨w, hW, hSrc.symm, rfl⟩

end Splicing

theorem Plan.Splices.result {rs : RuleSet K} {p : Plan} {s : Splicing K} (hSpl : p.Splices rs s)
    {g : Graph K} (hLay : (s.layout p p.keeps).Alike g) : s.Result g :=
  (Splicing.result_layout hSpl).of_alike hLay

end CircuitGraph
