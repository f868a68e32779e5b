import CircuitGraph.Proofs.Graph.Change
import CircuitGraph.Proofs.Match.Occurrence
import CircuitGraph.Substitution.Plan

/-
  What is known of live matches.

  To find matches and to tell whether a match is live changes
  no more of a graph than the ranks that it keeps.
-/

---- Edits That Read ----

namespace CircuitGraph

open List

variable {K : Type} {α : Type}

def Reads [Scalar K] (e : Edit K α) : Prop :=
  ∀ g : Graph K, Keeps g.Reranked e

namespace Reads

variable [Scalar K] {β : Type} {e : Edit K α} {f : α → Edit K β}

theorem reranked (hReads : Reads e) {g g' : Graph K} {a : α} (hY : Yields e g a g') :
    g.Reranked g' :=
  (hReads g).of_yields hY .refl

theorem reranked_of_fails (hReads : Reads e) {g g' : Graph K} {fault : Fault}
    (hFails : Fails e g fault g') : g.Reranked g' := by
  have hAfter := hReads g g .refl
  rwa [hFails] at hAfter

theorem unchanged (hReads : Reads e) {g g' : Graph K} {a : α} (hY : Yields e g a g') :
    g.Unchanged g' :=
  (hReads.reranked hY).unchanged

theorem unchanged_of_fails (hReads : Reads e) {g g' : Graph K} {fault : Fault}
    (hFails : Fails e g fault g') : g.Unchanged g' :=
  (hReads.reranked_of_fails hFails).unchanged

theorem of_pure (a : α) : Reads (pure a : Edit K α) :=
  fun _ => .of_pure a

theorem throw_bind (fault : Fault) : Reads ((throw fault : Edit K α) >>= f) :=
  fun _ _ hRer => hRer

theorem of_get : Reads (get : Edit K (Graph K)) :=
  fun _ => .of_get

theorem ofExcept (r : Except Fault α) : Reads (Edit.ofExcept r : Edit K α) :=
  fun _ => .ofExcept r

theorem bind (hFirst : Reads e) (hThen : ∀ a, Reads (f a)) : Reads (e >>= f) :=
  fun g => (hFirst g).bind (fun a => hThen a g)

theorem topologicalRanks : Reads (Graph.topologicalRanks : Edit K (List (Nat × K))) :=
  fun _ _ hRer => hRer.tail rfl

theorem isConvex (nodes : List Nat) : Reads (Graph.isConvex nodes : Edit K Bool) := by
  unfold Graph.isConvex
  split
  · exact of_pure true
  · exact topologicalRanks.bind (fun _ => of_get.bind (fun _ => of_pure _))

theorem complete (p : Pattern) (rule : Nat) (root : Slot) (binding : List Slot) :
    Reads (p.complete rule root binding : Edit K (Option Match)) := by
  refine of_get.bind (fun _ => (ofExcept _).bind (fun found => ?_))
  cases found with
  | none => exact of_pure none
  | some m =>
    refine (isConvex _).bind (fun convex => ?_)
    cases convex
    · exact of_pure none
    · exact of_pure (some m)

theorem isLive (rs : RuleSet K) (m : Match) : Reads (rs.isLive m) := by
  refine of_get.bind (fun g => ?_)
  split
  · exact of_pure false
  · refine (ofExcept _).bind (fun p => (ofExcept _).bind (fun traced => ?_))
    cases traced
    · exact of_pure false
    · exact (complete p m.rule m.root m.nodes).bind (fun _ => of_pure _)

theorem plan (rs : RuleSet K) (m : Match) : Reads (rs.plan m) := by
  unfold RuleSet.plan
  refine (isLive rs m).bind (fun live => ?_)
  split
  · exact throw_bind _
  · refine of_get.bind (fun g => (ofExcept _).bind (fun rule => (ofExcept _).bind (fun pins =>
      (ofExcept _).bind (fun sources => ?_))))
    dsimp only
    split
    · exact throw_bind _
    · exact of_pure _

theorem completeAll (rs : RuleSet K) (anchor : Slot) (bindings : List (Nat × List Slot)) :
    Reads (rs.completeAll anchor bindings) := by
  induction bindings with
  | nil => exact of_pure []
  | cons entry rest ih =>
    exact (ofExcept _).bind (fun p => (complete p entry.1 anchor entry.2).bind (fun _ =>
      ih.bind (fun _ => of_pure _)))

theorem matchesAt (rs : RuleSet K) (anchor : Slot) : Reads (rs.matchesAt anchor) :=
  of_get.bind (fun _ => completeAll rs anchor _)

theorem matchesAtAll (rs : RuleSet K) (anchors : List Slot) : Reads (rs.matchesAtAll anchors) := by
  induction anchors with
  | nil => exact of_pure []
  | cons anchor rest ih =>
    exact (matchesAt rs anchor).bind (fun _ => ih.bind (fun _ => of_pure _))

theorem findMatches (rs : RuleSet K) (among : Option (List Slot)) : Reads (rs.findMatches among) :=
  of_get.bind (fun _ => matchesAtAll rs _)

end Reads

---- Live Matches ----

theorem exists_map_eq {xs ys : List Nat} (hNodup : xs.Nodup) (hLen : xs.length = ys.length) :
    ∃ f : Nat → Nat, xs.map f = ys := by
  refine ⟨fun x => ys.getD (xs.idxOf x) 0, ext_getElem (by simpa using hLen) ?_⟩
  intro i hLt hLt'
  rw [getElem_map, hNodup.idxOf_getElem i (by simpa using hLt),
    getD_eq_getElem?_getD, getElem?_eq_getElem hLt', Option.getD_some]

theorem Graph.Occurs.of_alike {pattern g g' : Graph K} {f : Nat → Nat}
    (hOcc : pattern.Occurs g f) (hA : g.Alike g') : pattern.Occurs g' f := by
  have hBare : ∀ h : Graph K, pattern.Occurs h.bare f = pattern.Occurs h f := fun h =>
    propext ⟨fun o => ⟨o.operation, o.injective, o.kind, o.params, o.wired, o.fed, o.closed⟩,
      fun o => ⟨o.operation, o.injective, o.kind, o.params, o.wired, o.fed, o.closed⟩⟩
  rwa [hA.congr (fun h => pattern.Occurs h f) hBare]

/- Whether a match stands for the image of a pattern under a map. -/
structure Match.Stands (m : Match) (pattern : Graph K) (f : Nat → Nat) : Prop where
  ids : m.ids.Perm (pattern.opIds.map f)
  places : m.places = pattern.imageBoundary f

theorem Match.Stands.mem_ids_iff {m : Match} {pattern : Graph K} {f : Nat → Nat}
    (hStands : m.Stands pattern f) {n : Nat} : n ∈ m.ids ↔ pattern.InImage f n := by
  rw [hStands.ids.mem_iff, mem_map]
  exact Iff.rfl

namespace Pattern

variable {p : Pattern} {pattern g : Graph K}

theorem le_length_of_retraces {nodes : List Slot} {n : Nat} (hN : n ≤ nodes.length)
    {cs : List Constraint} (hRoot : ∀ c ∈ cs, c.isRoot = false)
    (hTr : retraces g nodes (nodes.take n) cs = .ok true) : boundAfter n cs ≤ nodes.length := by
  induction cs generalizing n with
  | nil => exact hN
  | cons c cs ih =>
    have hRest : ∀ c ∈ cs, c.isRoot = false := fun d hM => hRoot d (mem_cons_of_mem _ hM)
    have hTake : (nodes.take n).length = n := length_take_of_le hN
    rw [boundAfter_cons]
    cases c with
    | root kind params => simp [Constraint.isRoot] at hRoot
    | link var side index other target =>
      rw [retraces] at hTr
      split at hTr
      · simp at hTr
      · simp at hTr
      · rename_i binding hExt
        split at hExt
        · simp at hExt
        · obtain rfl := Option.some.inj (Except.ok.inj hExt)
          exact ih hN hRest hTr
    | follow var side index target kind params =>
      rw [retraces] at hTr
      simp only [hTake] at hTr
      by_cases hLt : n < nodes.length
      · simp only [getElem?_eq_getElem hLt] at hTr
        split at hTr
        · simp at hTr
        · simp at hTr
        · rename_i binding hExt
          split at hExt
          · obtain rfl := Option.some.inj (Except.ok.inj hExt)
            rw [← take_succ_eq_append_getElem hLt] at hTr
            exact ih hLt hRest hTr
          · simp at hExt
      · simp [getElem?_eq_none (Nat.le_of_not_lt hLt)] at hTr

theorem length_le_of_isClosed {ids : List Nat} {exposed : List Pin} {nodes arities : List Nat}
    (hClosed : isClosed g ids exposed nodes arities = .ok true) :
    nodes.length ≤ arities.length := by
  induction nodes generalizing arities with
  | nil => exact Nat.zero_le _
  | cons n ns ih =>
    cases arities with
    | nil => simp [isClosed] at hClosed
    | cons arity arities =>
      simp only [isClosed] at hClosed
      split at hClosed
      · simp at hClosed
      · exact Nat.succ_le_succ (ih hClosed)

theorem isClosed_of_boundary {rule : Nat} {root : Slot} {binding : List Slot} {m : Match}
    (hBd : p.boundary g rule root binding = .ok (some m)) :
    isClosed g (idsOf binding) m.outputs (idsOf binding) p.outArity = .ok true := by
  unfold boundary at hBd
  rcases bind_eq_ok_iff.mp hBd with ⟨inputs, -, hRest⟩
  split at hRest
  · simp [pure, Except.pure] at hRest
  · rcases bind_eq_ok_iff.mp hRest with ⟨outputs, -, hRest⟩
    rcases bind_eq_ok_iff.mp hRest with ⟨closed, hClosed, hRest⟩
    split at hRest
    · rename_i hTrue
      simp only [pure, Except.pure, Except.ok.injEq, Option.some.injEq] at hRest
      subst hRest hTrue
      exact hClosed
    · simp [pure, Except.pure] at hRest

/- A binding can be traced again if it is long enough and meets the constraints. -/
theorem Describes.retraces_iff (hDesc : p.Describes pattern) (hS : g.Sound)
    {nodes : List Slot} : retraces g nodes [] p.constraints = .ok true ↔
      p.nodes.length ≤ nodes.length ∧ Satisfies g (idsOf nodes) 1 p.constraints := by
  rcases hDesc.root with ⟨kind, params, rest, hCons, hRest⟩
  have hBound := hDesc.bound
  rw [hCons, boundAfter_cons] at hBound
  change boundAfter 1 rest = p.nodes.length at hBound
  have hPos : 0 < p.nodes.length := hBound ▸ le_boundAfter 1 rest
  simp only [hCons, Satisfies, Constraint.bound, Constraint.Holds, getElem?_idsOf]
  cases nodes with
  | nil => simp [retraces]
  | cons s tail =>
    have hStart : retraces g (s :: tail) [] (.root kind params :: rest) = .ok true ↔
        Constraint.fits g kind params s.toNat = true ∧
          retraces g (s :: tail) ((s :: tail).take 1) rest = .ok true := by
      rw [retraces]
      cases hFits : Constraint.fits g kind params s.toNat <;> simp [hFits]
    rw [hStart]
    simp only [getElem?_cons_zero, Option.map_some, Option.some.injEq, exists_eq_left']
    constructor
    · rintro ⟨hFits, hTr⟩
      have hLen := le_length_of_retraces (by simp) hRest hTr
      exact ⟨hBound ▸ hLen, hFits, (hS.retraces_take_iff Nat.one_pos hRest hLen).mp hTr⟩
    · rintro ⟨hLen, hFits, hSatisfies⟩
      exact ⟨hFits, (hS.retraces_take_iff Nat.one_pos hRest (hBound ▸ hLen)).mpr hSatisfies⟩

end Pattern

namespace RuleSet

variable {rs : RuleSet K} {g : Graph K}

theorem pattern_eq_ok_iff {i : Nat} {p : Pattern} :
    rs.pattern i = .ok p ↔ rs.patterns[i]? = some p := by
  unfold pattern
  cases rs.patterns[i]? <;> simp

theorem rule_eq_ok_iff {i : Nat} {rule : Rule K} :
    rs.rule i = .ok rule ↔ rs.rules[i]? = some rule := by
  unfold RuleSet.rule
  cases rs.rules[i]? <;> simp

variable [Scalar K]

theorem yields_complete_some_iff {p : Pattern} {rule : Nat} {root : Slot} {binding : List Slot}
    {m : Match} {g' : Graph K} : Yields (p.complete rule root binding) g (some m) g' ↔
      p.boundary g rule root binding = .ok (some m) ∧
        Yields (Graph.isConvex (idsOf binding)) g true g' := by
  unfold Pattern.complete
  constructor
  · intro hCom
    have hBound := hCom.get_bind
    rcases hBound.ofExcept_bind with ⟨found, hFnd, hRegion⟩
    cases found with
    | none => simp at hRegion
    | some m' =>
      rcases yields_bind_iff.mp hRegion with ⟨convex, t, hConv, hReturn⟩
      cases convex with
      | false => simp at hReturn
      | true =>
        obtain ⟨hSome, rfl⟩ := yields_pure_iff.mp hReturn
        exact ⟨hFnd.trans (congrArg Except.ok hSome.symm), hConv⟩
  · rintro ⟨hBd, hConv⟩
    exact .bind rfl (.bind (.ofExcept hBd) (.bind hConv rfl))

variable {m : Match} {p : Plan} {h : Graph K}

theorem yields_isLive_true_iff : Yields (rs.isLive m) g true h ↔ m.ids.all g.hasNode = true ∧
      ∃ pattern m', rs.pattern m.rule = .ok pattern ∧
        Pattern.retraces g m.nodes [] pattern.constraints = .ok true ∧
        pattern.boundary g m.rule m.root m.nodes = .ok (some m') ∧ m.same m' = true ∧
        Yields (Graph.isConvex m.ids) g true h := by
  unfold isLive
  constructor
  · intro hLive
    have hRest := hLive.get_bind
    split at hRest
    · simp at hRest
    rename_i hThere
    rcases hRest.ofExcept_bind with ⟨pattern, hPat, hTrace⟩
    rcases yields_bind_iff.mp hTrace with ⟨traced, _, hTracing, hFind⟩
    obtain ⟨hTr, rfl⟩ := Edit.yields_ofExcept_iff.mp hTracing
    cases traced with
    | false => simp at hFind
    | true =>
      rcases yields_bind_iff.mp hFind with ⟨found, t, hCom, hAnswer⟩
      obtain ⟨hSame, rfl⟩ := yields_pure_iff.mp hAnswer
      cases found with
      | none => cases hSame
      | some m' =>
        rcases yields_complete_some_iff.mp hCom with ⟨hBd, hConv⟩
        exact ⟨by simpa using hThere, pattern, m', hPat, hTr, hBd, hSame.symm, hConv⟩
  · rintro ⟨hThere, pattern, m', hPat, hTr, hBd, hSame, hConv⟩
    refine .bind rfl ?_
    rw [if_neg (by simp [hThere])]
    exact .bind (.ofExcept hPat) (.bind (.ofExcept hTr) (yields_bind_iff.mpr ⟨some m', h,
      yields_complete_some_iff.mpr ⟨hBd, hConv⟩, yields_pure_iff.mpr ⟨hSame.symm, rfl⟩⟩))

theorem yields_plan_iff : Yields (rs.plan m) g p h ↔ Yields (rs.isLive m) g true h ∧
      ∃ rule pins sources, rs.rule m.rule = .ok rule ∧
        m.inputs.mapM (boundarySource h) = .ok pins ∧ pins.mapM (sourceType h) = .ok sources ∧
        sources.map Prod.snd = rule.replacement.inputs ∧
        p = ⟨m, sources.map Prod.fst, m.outputs.map (boundaryConsumers h m), h.version⟩ := by
  unfold plan
  constructor
  · intro hPlan
    rcases yields_bind_iff.mp hPlan with ⟨live, t, hLive, hAfter⟩
    cases live with
    | false =>
      rcases yields_bind_iff.mp hAfter with ⟨_, _, hThrow, -⟩
      exact absurd hThrow not_yields_throw
    | true =>
      have hGot := hAfter.get_bind
      rcases hGot.ofExcept_bind with ⟨rule, hRule, hRuled⟩
      rcases yields_bind_iff.mp hRuled with ⟨pins, _, hFnd, hFed⟩
      obtain ⟨hPins, rfl⟩ := Edit.yields_ofExcept_iff.mp hFnd
      rcases hFed.ofExcept_bind with ⟨sources, hSrcs, hTyped⟩
      by_cases hTypes : sources.map Prod.snd = rule.replacement.inputs
      · simp only [hTypes, ne_eq, not_true_eq_false, if_false] at hTyped
        obtain ⟨rfl, rfl⟩ := yields_pure_iff.mp hTyped
        exact ⟨hLive, rule, pins, sources, hRule, hPins, hSrcs, hTypes, rfl⟩
      · simp [hTypes] at hTyped
  · rintro ⟨hLive, rule, pins, sources, hRule, hPins, hSrcs, hTypes, rfl⟩
    refine .bind hLive (yields_bind_iff.mpr ⟨h, h, rfl, yields_bind_iff.mpr
        ⟨rule, h, .ofExcept hRule, yields_bind_iff.mpr
          ⟨pins, h, .ofExcept hPins, yields_bind_iff.mpr ⟨sources, h, .ofExcept hSrcs, ?_⟩⟩⟩⟩)
    simp [hTypes]

theorem Compiled.occurs_of_isLive (hC : rs.Compiled) (hS : g.Sound)
    (hLive : Yields (rs.isLive m) g true h) :
    ∃ rule f, rs.rules[m.rule]? = some rule ∧ rule.Usable ∧ rule.pattern.Occurs g f ∧
      m.Stands rule.pattern f := by
  rcases yields_isLive_true_iff.mp hLive with ⟨-, p, m', hPat, hTr, hBd, hSame, -⟩
  rcases hC.getElem?_pattern (pattern_eq_ok_iff.mp hPat) with ⟨rule, hRule, hUse, hDesc⟩
  have hPatternSound := hUse.pattern.sound
  rcases (hDesc.retraces_iff hS).mp hTr with ⟨hLow, hSatisfies⟩
  have hHigh := Pattern.length_le_of_isClosed (Pattern.isClosed_of_boundary hBd)
  simp only [hDesc.outArity, length_map, idsOf] at hHigh
  have hNodes : p.nodes.Nodup := hDesc.nodes.nodup_iff.mpr (sortIds_nodup _)
  have hLen : p.nodes.length = (idsOf m.nodes).length := by
    rw [idsOf, length_map]
    exact Nat.le_antisymm hLow hHigh
  rcases exists_map_eq hNodes hLen with ⟨f, hMap⟩
  rw [← hMap] at hSatisfies
  have hParts := (hDesc.satisfies_iff hPatternSound hUse.isPattern hS).mp hSatisfies
  rcases hDesc.exists_boundary hPatternSound hUse.isPattern hS hMap.symm hParts.2.2.1
    hParts.2.1 m.rule m.root with ⟨answer, hAnswer, hMeans, hMatch⟩
  obtain rfl := eq_of_ok hAnswer hBd
  refine ⟨rule, f, hRule, hUse, ?_, ?_, ?_⟩
  · exact (hDesc.occurs_iff hPatternSound hUse.isPattern hS).mpr ⟨hSatisfies, hMeans.mp rfl⟩
  · have hPerm := hDesc.nodes.map f
    rwa [hMap] at hPerm
  · simp only [Match.same, Bool.and_eq_true, beq_iff_eq] at hSame
    rw [hSame.2]
    exact (hMatch m' rfl).2.2.2

end RuleSet

end CircuitGraph
