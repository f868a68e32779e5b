import CircuitGraph.Proofs.Match.Rule
import CircuitGraph.Proofs.Scalar
import CircuitGraph.Proofs.Sorting

/-
  What the trie of a rule set finds.

  Patterns share the branches of a trie where their
  constraints are the same, and constraints that are the same
  extend a binding in the same ways.
-/

---- The Same Parameters ----

namespace CircuitGraph

open List

namespace Doubles

open Float.Model

theorem eq_or_zero_of_compare {x y : UnpackedFloat} (hEq : x.compare y = some .eq) :
    x = y ∨ ∃ s s', x = .zero s ∧ y = .zero s' := by
  cases x with
  | notANumber => cases hEq
  | zero s =>
    cases y with
    | notANumber => cases hEq
    | zero s' => exact .inr ⟨s, s', rfl, rfl⟩
    | infinity s' => cases s' <;> cases hEq
    | finite s' m' e' h' => cases s' <;> cases hEq
  | infinity s =>
    cases y with
    | notANumber => cases s <;> cases hEq
    | zero s' => cases s <;> cases hEq
    | infinity s' => cases s <;> cases s' <;> first | exact .inl rfl | cases hEq
    | finite s' m' e' h' => cases s <;> cases s' <;> cases hEq
  | finite s m e h =>
    cases y with
    | notANumber => cases s <;> cases hEq
    | zero s' => cases s <;> cases hEq
    | infinity s' => cases s <;> cases s' <;> cases hEq
    | finite s' m' e' h' =>
      have hSame : s = s' ∧ (compare e e').then (compare m m') = .eq := by
        cases s <;> cases s'
        · exact ⟨rfl, Ordering.swap_eq_iff_eq_swap.mp (Option.some.inj hEq)⟩
        · cases hEq
        · cases hEq
        · exact ⟨rfl, Option.some.inj hEq⟩
      obtain ⟨rfl, hBoth⟩ := hSame
      rw [Ordering.then_eq_eq, compare_eq_iff_eq, compare_eq_iff_eq] at hBoth
      obtain ⟨rfl, rfl⟩ := hBoth
      exact .inl rfl

def near (x y : UnpackedFloat) : Bool :=
  x.beq y || (!x.isInf && !y.isInf &&
    (pack (pack (UnpackedFloat.sub Format.binary64 x y)).unpack.abs).unpack.le
      (1e-9 : Float).toModel.unpack)

theorem nearlyEqual_eq (a b : Float) :
    nearlyEqual a b = near a.toModel.unpack b.toModel.unpack := by
  unfold nearlyEqual near
  congr 1
  congr 1
  change decide (Float.le _ _ = true) = _
  rw [Float.le, Bool.decide_eq_true]
  change decide (Float.Model.le _ _ = true) = _
  rw [Bool.decide_eq_true]
  rfl

theorem near_zero (s s' : UnpackedFloat.Sign) (y : UnpackedFloat) :
    near (.zero s) y = near (.zero s') y := by
  cases y with
  | zero t =>
    have hNear : ∀ s, near (.zero s) (.zero t) = true := fun _ => rfl
    rw [hNear s, hNear s']
  | notANumber => rfl
  | infinity t => cases t <;> rfl
  | finite t m e h => cases t <;> rfl

end Doubles

namespace Param

variable {p q : Param} {ps qs : List Param}

theorem nearlyEqual_of_same (hSame : p.same q = true) (b : Float) :
    nearlyEqual p.value b = nearlyEqual q.value b := by
  rw [Doubles.nearlyEqual_eq, Doubles.nearlyEqual_eq]
  rw [same, Bool.or_eq_true] at hSame
  rcases hSame with hEq | hNaN
  · have hCompare : p.value.toModel.unpack.compare q.value.toModel.unpack = some .eq :=
      beq_iff_eq.mp hEq
    rcases Doubles.eq_or_zero_of_compare hCompare with hUnpack | ⟨s, s', hL, hR⟩
    · rw [hUnpack]
    · rw [hL, hR, Doubles.near_zero s s']
  · simp only [Bool.and_eq_true] at hNaN
    have hUndefined : ∀ x : Float, x.isNaN = true → x.toModel.unpack = .notANumber := by
      intro x hX
      change x.toModel.unpack.isNaN = true at hX
      cases hUnpack : x.toModel.unpack with
      | notANumber => rfl
      | _ => rw [hUnpack] at hX; cases hX
    rw [hUndefined _ hNaN.1.2, hUndefined _ hNaN.2]

theorem paramsMatch_of_allSame (hSame : allSame ps qs = true) (bs : List Float) :
    paramsMatch (values ps) bs = paramsMatch (values qs) bs := by
  induction ps generalizing qs bs with
  | nil =>
    cases qs with
    | nil => rfl
    | cons q qs => simp [allSame] at hSame
  | cons p ps ih =>
    cases qs with
    | nil => simp [allSame] at hSame
    | cons q qs =>
      simp only [allSame, Bool.and_eq_true] at hSame
      cases bs with
      | nil => rfl
      | cons b bs =>
        simp only [values, map_cons, paramsMatch, nearlyEqual_of_same hSame.1]
        exact congrArg _ (ih hSame.2 bs)

end Param

namespace Constraint

variable {K : Type}

theorem fits_of_allSame {g : Graph K} {kind : Kind} {ps qs : List Param}
    (hSame : Param.allSame ps qs = true) : fits g kind ps = fits g kind qs := by
  funext n
  rw [fits, fits, Param.paramsMatch_of_allSame hSame]

theorem advance_of_same {g : Graph K} {c d : Constraint} (hSame : c.same d = true)
    (binding : List Slot) : c.advance g binding = d.advance g binding := by
  cases c with
  | root kind params =>
    cases d with
    | root kind' params' =>
      simp only [same, Bool.and_eq_true, beq_iff_eq] at hSame
      simp only [advance, hSame.1, fits_of_allSame hSame.2]
    | follow => simp [same] at hSame
    | link => simp [same] at hSame
  | follow var side index target kind params =>
    cases d with
    | root => simp [same] at hSame
    | follow var' side' index' target' kind' params' =>
      simp only [same, Bool.and_eq_true, beq_iff_eq] at hSame
      rcases hSame with ⟨⟨⟨⟨⟨rfl, rfl⟩, rfl⟩, hTarget⟩, rfl⟩, hParams⟩
      simp only [advance, hTarget, fits_of_allSame hParams]
    | link => simp [same] at hSame
  | link var side index other target =>
    cases d with
    | root => simp [same] at hSame
    | follow => simp [same] at hSame
    | link var' side' index' other' target' =>
      simp only [same, Bool.and_eq_true, beq_iff_eq] at hSame
      rcases hSame with ⟨⟨⟨⟨rfl, rfl⟩, rfl⟩, rfl⟩, hTarget⟩
      simp only [advance, hTarget]

end Constraint

---- Inserting Patterns ----

namespace Trie

variable {K : Type} {g : Graph K}

theorem insertRule_perm (rank : Nat → Nat) (rule : Nat) (rules : List Nat) :
    (insertRule rank rule rules).Perm (rule :: rules) := by
  induction rules with
  | nil => exact .refl _
  | cons r rules ih =>
    unfold insertRule
    split
    · exact .refl _
    · exact (ih.cons r).trans (.swap rule r rules)

theorem bindingsAll_alterBranch_perm {c : Constraint} {change : Trie → Trie}
    {extra : List Slot → List (Nat × List Slot)}
    (hChange : ∀ t b, ((change t).bindings g b).Perm (extra b ++ t.bindings g b))
    (binding : List Slot) (branches : List (Constraint × Trie)) :
    (bindingsAll g binding (alterBranch c change branches)).Perm
      ((c.advance g binding).flatMap extra ++ bindingsAll g binding branches) := by
  have hFlat : ∀ (bs : List (List Slot)) (t : Trie),
      (bs.flatMap (fun b => (change t).bindings g b)).Perm
        (bs.flatMap extra ++ bs.flatMap (fun b => t.bindings g b)) := by
    intro bs t
    exact (List.Perm.flatMap_left bs (fun b _ => hChange t b)).trans
      (List.flatMap_append_perm bs extra (fun b => t.bindings g b)).symm
  induction branches with
  | nil =>
    have hEmpty : (c.advance g binding).flatMap (fun b => empty.bindings g b) = [] :=
      flatMap_eq_nil_iff.mpr (fun _ _ => rfl)
    simpa [alterBranch, bindingsAll, hEmpty] using hFlat (c.advance g binding) empty
  | cons branch rest ih =>
    obtain ⟨d, t⟩ := branch
    unfold alterBranch
    split
    · rename_i hSame
      simp only [bindingsAll, Constraint.advance_of_same hSame]
      exact ((hFlat _ t).append_right _).trans (by simp)
    · simp only [bindingsAll]
      exact (ih.append_left _).trans (by
        simpa only [append_assoc] using perm_append_comm.append_right _)

theorem bindings_insert_perm (rank : Nat → Nat) (rule : Nat) (cs : List Constraint) (t : Trie)
    (binding : List Slot) : ((t.insert rank rule cs).bindings g binding).Perm
      ((bindingsAlong g binding cs).map (fun b => (rule, b)) ++ t.bindings g binding) := by
  induction cs generalizing t binding with
  | nil =>
    cases t with
    | state rules branches =>
      simp only [insert, bindings, bindingsAlong, map_cons, map_nil, cons_append,
        nil_append, ← append_assoc]
      exact ((insertRule_perm rank rule rules).map _).append_right _
  | cons c cs ih =>
    cases t with
    | state rules branches =>
      simp only [insert, bindings, bindingsAlong, map_flatMap]
      refine ((bindingsAll_alterBranch_perm ih binding branches).append_left _).trans ?_
      simpa only [append_assoc] using perm_append_comm.append_right _

end Trie

namespace RuleSet

variable {K : Type}

theorem fst_buildTrie (ranks : List Nat) (patterns : List Pattern) :
    (buildTrie ranks patterns).1 =
      patterns.zipIdx.foldl (fun t x => t.insert (rankOf ranks) x.2 x.1.constraints) .empty :=
  (foldl_hom (Prod.fst : Trie × Nat → Trie)
    (fun _ _ => rfl : ∀ built x, _ = (addPattern ranks built x).1)).symm

theorem bindings_buildTrie_perm (g : Graph K) (ranks : List Nat) (patterns : List Pattern)
    (binding : List Slot) : ((buildTrie ranks patterns).1.bindings g binding).Perm
      (patterns.zipIdx.flatMap (fun x =>
        (bindingsAlong g binding x.1.constraints).map (fun b => (x.2, b)))) := by
  have hFold : ∀ (xs : List (Pattern × Nat)) (t : Trie),
      ((xs.foldl (fun t x => t.insert (rankOf ranks) x.2 x.1.constraints) t).bindings g binding).Perm
        (t.bindings g binding ++ xs.flatMap (fun x =>
          (bindingsAlong g binding x.1.constraints).map (fun b => (x.2, b)))) := by
    intro xs
    induction xs with
    | nil => simp
    | cons x xs ih =>
      intro t
      rw [foldl_cons, flatMap_cons, ← append_assoc]
      exact (ih _).trans (((Trie.bindings_insert_perm _ _ _ t binding).trans
        perm_append_comm).append_right _)
  simpa [fst_buildTrie, Trie.empty, Trie.bindings, Trie.bindingsAll] using
    hFold patterns.zipIdx Trie.empty

theorem mem_bindings_buildTrie_iff {g : Graph K} {ranks : List Nat} {patterns : List Pattern}
    {binding b : List Slot} {i : Nat} : (i, b) ∈ (buildTrie ranks patterns).1.bindings g binding ↔
      ∃ p, patterns[i]? = some p ∧ b ∈ bindingsAlong g binding p.constraints := by
  rw [(bindings_buildTrie_perm g ranks patterns binding).mem_iff]
  simp only [mem_flatMap, mem_map, Prod.mk.injEq, Prod.exists, mem_zipIdx_iff_getElem?]
  constructor
  · rintro ⟨p, j, hPat, b', hWalk, rfl, rfl⟩
    exact ⟨p, hPat, hWalk⟩
  · rintro ⟨p, hPat, hWalk⟩
    exact ⟨p, i, hPat, b, hWalk, rfl, rfl⟩

end RuleSet

---- Each Binding Once ----

variable {K : Type}

namespace Graph.Sound

variable {g : Graph K}

theorem farPins_nodup (hS : g.Sound) (n i : Nat) (side : Side) :
    ((Constraint.farPins g n i side).map Pin.place).Nodup := by
  cases side with
  | input =>
    rw [Constraint.farPins]
    cases g.source? n i <;> simp
  | output => exact hS.targets_nodup n i

theorem advance_nodup (hS : g.Sound) (c : Constraint) (binding : List Slot) :
    ((c.advance g binding).map idsOf).Nodup := by
  cases c with
  | root kind params =>
    rw [Constraint.advance]
    split <;> simp
  | link var side index other target =>
    rw [Constraint.advance]
    split
    · cases side <;> dsimp only <;> split <;> simp
    · simp
  | follow var side index target kind params =>
    rw [Constraint.advance]
    split
    · simp
    · rename_i s _
      -- Pins with one number at different places are at different operations.
      rw [map_map, List.Nodup, pairwise_map]
      have hApart := pairwise_map.mp (hS.farPins_nodup s.toNat index side)
      refine (hApart.sublist filter_sublist).imp_of_mem (fun {p q} hL hR hPlace hIds => ?_)
      simp only [mem_filter, Bool.and_eq_true, beq_iff_eq] at hL hR
      have hIndex : p.index = q.index := hL.2.1.1.1.trans hR.2.1.1.1.symm
      have hN : p.node = q.node := by simpa [idsOf, Pin.node] using hIds
      exact hPlace (Prod.ext hN hIndex)

theorem bindingsAlong_nodup (hS : g.Sound) {binding : List Slot} (hSome : binding ≠ [])
    (cs : List Constraint) : ((bindingsAlong g binding cs).map idsOf).Nodup := by
  induction cs generalizing binding with
  | nil => simp [bindingsAlong]
  | cons c cs ih =>
    have hMid : ∀ mid ∈ c.advance g binding, mid ≠ [] ∧ mid.length = c.bound binding.length := by
      intro mid hM
      have hLen := ((hS.exists_advance_iff hSome).mp ⟨mid, hM, rfl⟩).2.1
      rw [length_idsOf] at hLen
      refine ⟨fun hNil => ?_, hLen⟩
      have hPos := length_pos_iff.mpr hSome
      have hBound := le_bound binding.length c
      rw [hNil, length_nil] at hLen
      omega
    rw [bindingsAlong, map_flatMap, nodup_flatMap]
    refine ⟨fun mid hM => ih (hMid mid hM).1, ?_⟩
    refine (pairwise_map.mp (hS.advance_nodup c binding)).imp_of_mem ?_
    intro a b hL hR hApart ids hA hB
    -- What is found from a binding starts with it, and both bindings are equally long.
    rcases mem_map.mp hA with ⟨x, hX, rfl⟩
    rcases mem_map.mp hB with ⟨y, hY, hEq⟩
    have hPre := ((hS.exists_bindingsAlong_iff (hMid a hL).1).mp ⟨x, hX, rfl⟩).1
    have hOther := ((hS.exists_bindingsAlong_iff (hMid b hR).1).mp ⟨y, hY, hEq⟩).1
    have hLen : (idsOf a).length = (idsOf b).length := by
      rw [length_idsOf, length_idsOf, (hMid a hL).2, (hMid b hR).2]
    exact hApart ((prefix_of_prefix_length_le hPre hOther hLen.le).eq_of_length hLen)

end Graph.Sound

namespace RuleSet

theorem bindings_buildTrie_nodup {g : Graph K} (hS : g.Sound) (ranks : List Nat)
    (patterns : List Pattern) {binding : List Slot} (hSome : binding ≠ []) :
    (((buildTrie ranks patterns).1.bindings g binding).map (fun x => (x.1, idsOf x.2))).Nodup := by
  rw [((bindings_buildTrie_perm g ranks patterns binding).map _).nodup_iff, map_flatMap,
    nodup_flatMap]
  constructor
  · rintro ⟨p, i⟩ -
    have hWalk := (hS.bindingsAlong_nodup hSome p.constraints).map
      (fun _ _ hEq => (Prod.mk.inj hEq).2 : Function.Injective (Prod.mk i))
    rw [map_map] at hWalk ⊢
    exact hWalk
  · have hIndices : patterns.zipIdx.Pairwise (fun x y => x.2 ≠ y.2) := by
      rw [← pairwise_map (f := Prod.snd) (R := (· ≠ ·)), zipIdx_map_snd]
      exact nodup_range'
    refine hIndices.imp (fun {x y} hApart ids hL hR => ?_)
    simp only [mem_map] at hL hR
    rcases hL with ⟨_, ⟨b, -, rfl⟩, rfl⟩
    rcases hR with ⟨_, ⟨c, -, rfl⟩, hEq⟩
    exact hApart (congrArg Prod.fst hEq).symm

end RuleSet

---- Roots ----

namespace Trie

theorem rootKind?_of_same {c d : Constraint} (hSame : c.same d = true) :
    c.rootKind? = d.rootKind? := by
  cases c <;> cases d <;> simp_all [Constraint.same, Constraint.rootKind?]

def rootKinds (t : Trie) : List (Option Kind) :=
  t.children.map (fun branch => branch.1.rootKind?)

theorem mem_rootKinds_alterBranch {c : Constraint} {change : Trie → Trie}
    {branches : List (Constraint × Trie)} {kind : Option Kind} :
    kind ∈ (alterBranch c change branches).map (fun branch => branch.1.rootKind?) ↔
      kind = c.rootKind? ∨ kind ∈ branches.map (fun branch => branch.1.rootKind?) := by
  induction branches with
  | nil => simp [alterBranch]
  | cons branch rest ih =>
    obtain ⟨d, t⟩ := branch
    unfold alterBranch
    split
    · rename_i hSame
      simp [rootKind?_of_same hSame]
    · rw [map_cons, mem_cons, ih, map_cons, mem_cons]
      exact or_left_comm

theorem mem_rootKinds_insert {rank : Nat → Nat} {rule : Nat} {cs : List Constraint} {t : Trie}
    {kind : Option Kind} : kind ∈ (t.insert rank rule cs).rootKinds ↔
      cs.head?.map Constraint.rootKind? = some kind ∨ kind ∈ t.rootKinds := by
  cases t with
  | state rules branches =>
    cases cs with
    | nil => simp [insert, rootKinds, children]
    | cons c cs =>
      rw [insert, rootKinds, children, mem_rootKinds_alterBranch]
      simp [rootKinds, children, eq_comm]

end Trie

namespace RuleSet

theorem rootKind?_mem_buildTrie {ranks : List Nat} {patterns : List Pattern} {p : Pattern}
    (hM : p ∈ patterns) {c : Constraint} {cs : List Constraint}
    (hCons : p.constraints = c :: cs) :
    c.rootKind? ∈ (buildTrie ranks patterns).1.rootKinds := by
  have hFold : ∀ (xs : List (Pattern × Nat)) (t : Trie),
      (c.rootKind? ∈ t.rootKinds ∨ ∃ x ∈ xs, x.1 = p) →
      c.rootKind? ∈
        (xs.foldl (fun t x => t.insert (rankOf ranks) x.2 x.1.constraints) t).rootKinds := by
    intro xs
    induction xs with
    | nil => simp
    | cons x xs ih =>
      intro t hStart
      refine ih _ ?_
      rw [Trie.mem_rootKinds_insert]
      rcases hStart with hThere | ⟨y, hY, rfl⟩
      · exact .inl (.inr hThere)
      · rcases mem_cons.mp hY with rfl | hRest
        · exact .inl (.inl (by rw [hCons]; rfl))
        · exact .inr ⟨y, hRest, rfl⟩
  rw [fst_buildTrie]
  refine hFold patterns.zipIdx .empty (.inr ?_)
  rcases mem_iff_getElem?.mp hM with ⟨i, hGet⟩
  exact ⟨(p, i), mem_zipIdx_iff_getElem?.mpr hGet, rfl⟩

end RuleSet

---- The Order of Bindings ----

namespace Ranking

theorem arranged_perm (rules : List (Value × Nat)) : (arranged rules).Perm rules := by
  unfold arranged
  split
  · exact Sorting.arrange_perm _ _
  · exact mergeSort_perm _ _

theorem order_perm (priorities : List Value) :
    (order priorities).Perm (List.range priorities.length) := by
  have hNumbers := (arranged_perm priorities.zipIdx).map Prod.snd
  rwa [zipIdx_map_snd, ← range_eq_range'] at hNumbers

end Ranking

namespace RuleSet

variable {rs : RuleSet K}

theorem rankOf_ranks {priorities : List Value} {i : Nat} (hLt : i < priorities.length) :
    rankOf (Ranking.ranks priorities) i = (Ranking.order priorities).idxOf i := by
  simp [rankOf, Ranking.ranks, hLt]

theorem rankOf_ranks_inj {priorities : List Value} {i j : Nat} (hL : i < priorities.length)
    (hR : j < priorities.length)
    (hEq : rankOf (Ranking.ranks priorities) i = rankOf (Ranking.ranks priorities) j) : i = j := by
  rw [rankOf_ranks hL, rankOf_ranks hR] at hEq
  exact (idxOf_inj ((Ranking.order_perm _).mem_iff.mpr (by simpa using hL))).mp hEq

theorem Compiled.mem_bindingsAt_iff (hC : rs.Compiled) {g : Graph K} {anchor : Slot}
    {i : Nat} {b : List Slot} : (i, b) ∈ rs.bindingsAt g anchor ↔
      ∃ p, rs.patterns[i]? = some p ∧ b ∈ bindingsAlong g [anchor] p.constraints := by
  rw [bindingsAt, mem_mergeSort, hC.trie, mem_bindings_buildTrie_iff]

def bindingKey (rs : RuleSet K) (x : Nat × List Slot) : List Nat :=
  rankOf rs.ranks x.1 :: idsOf x.2

theorem Compiled.bindingsAt_pairwise (hC : rs.Compiled) {g : Graph K} (hS : g.Sound)
    (anchor : Slot) :
    (rs.bindingsAt g anchor).Pairwise (fun x y => rs.bindingKey x < rs.bindingKey y) := by
  have hBef : ∀ x y, rs.bindingBefore x y = true ↔ rs.bindingKey x ≤ rs.bindingKey y :=
    fun _ _ => idsBefore_iff
  have hSort : (rs.bindingsAt g anchor).Pairwise (fun x y => rs.bindingKey x ≤ rs.bindingKey y) :=
    pairwise_mergeSort_of_key hBef _
  have hApart : ((rs.bindingsAt g anchor).map (fun x => (x.1, idsOf x.2))).Nodup := by
    rw [bindingsAt, ((mergeSort_perm _ _).map _).nodup_iff, hC.trie]
    exact bindings_buildTrie_nodup hS _ _ (by simp)
  refine (hSort.and (pairwise_map.mp hApart)).imp_of_mem ?_
  rintro ⟨i, b⟩ ⟨j, c⟩ hL hR ⟨hLe, hNe⟩
  refine lt_of_le_of_ne hLe (fun hEq => hNe ?_)
  rcases cons_eq_cons.mp hEq with ⟨hRank, hIds⟩
  rcases hC.mem_bindingsAt_iff.mp hL with ⟨p, hP, -⟩
  rcases hC.mem_bindingsAt_iff.mp hR with ⟨q, hQ, -⟩
  have hI := hC.length ▸ (lt_of_getElem? hP)
  have hJ := hC.length ▸ (lt_of_getElem? hQ)
  rw [hC.ranks] at hRank
  exact Prod.ext (rankOf_ranks_inj (by simpa using hI) (by simpa using hJ) hRank) hIds

end RuleSet

end CircuitGraph
