import CircuitGraph.Match.Find
import CircuitGraph.Proofs.Graph.Sound
import CircuitGraph.Proofs.Running

/-
  What constraints say about the operations bound to variables.

  Whether a binding meets a list of constraints can be told
  without extending it step by step: every constraint is a
  condition on the ids bound so far.
-/

---- Conditions on Ids ----

namespace CircuitGraph

open List

variable {K : Type}
variable {g : Graph K} {ids : List Nat} {n : Nat} {cs : List Constraint} {c : Constraint}
  {binding : List Slot}

def Graph.Joined (g : Graph K) : Side → Nat × Nat → Nat × Nat → Prop
  | .input, near, far => g.Wired far near
  | .output, near, far => g.Wired near far

namespace Constraint

def bound (n : Nat) : Constraint → Nat
  | follow .. => n + 1
  | _ => n

/- What a constraint says about the ids of the variables, of which `n` are bound before it. -/
def Holds (g : Graph K) (ids : List Nat) (n : Nat) : Constraint → Prop
  | root kind params => ∃ m, ids[0]? = some m ∧ fits g kind params m = true
  | follow var side index target kind params =>
    var < n ∧ ∃ m u, ids[var]? = some m ∧ ids[n]? = some u ∧
      g.Joined side (m, index) (u, target.toNat) ∧ isOpId u = true ∧ u ∉ ids.take n ∧
      fits g kind params u = true
  | link var side index other target =>
    var < n ∧ other < n ∧ ∃ m u, ids[var]? = some m ∧ ids[other]? = some u ∧
      g.Joined side (m, index) (u, target.toNat)

def isRoot : Constraint → Bool
  | root .. => true
  | _ => false

/- The kind that a constraint asks for. -/
def kind? : Constraint → Option Kind
  | root kind _ | follow _ _ _ _ kind _ => some kind
  | link .. => none

end Constraint

def Satisfies (g : Graph K) (ids : List Nat) : Nat → List Constraint → Prop
  | _, [] => True
  | n, c :: cs => c.Holds g ids n ∧ Satisfies g ids (c.bound n) cs

def boundAfter (n : Nat) (cs : List Constraint) : Nat :=
  cs.foldl Constraint.bound n

@[simp] theorem boundAfter_nil (n : Nat) : boundAfter n [] = n :=
  rfl

@[simp] theorem boundAfter_cons (n : Nat) (c : Constraint) (cs : List Constraint) :
    boundAfter n (c :: cs) = boundAfter (c.bound n) cs :=
  rfl

theorem le_bound (n : Nat) (c : Constraint) : n ≤ c.bound n := by
  cases c <;> simp [Constraint.bound]

theorem le_boundAfter (n : Nat) (cs : List Constraint) : n ≤ boundAfter n cs := by
  induction cs generalizing n with
  | nil => exact Nat.le_refl n
  | cons c cs ih => exact Nat.le_trans (le_bound n c) (ih _)

theorem boundAfter_append (n : Nat) (cs ds : List Constraint) :
    boundAfter n (cs ++ ds) = boundAfter (boundAfter n cs) ds :=
  foldl_append

theorem Constraint.holds_prefix_iff {all : List Nat} (hPre : ids <+: all) (hSome : 0 < n)
    (hLen : c.bound n ≤ ids.length) : c.Holds g ids n ↔ c.Holds g all n := by
  have hGet : ∀ i < ids.length, all[i]? = ids[i]? := by
    rcases hPre with ⟨rest, rfl⟩
    intro i hLt
    exact getElem?_append_left hLt
  have hN : n ≤ ids.length := Nat.le_trans (le_bound n c) hLen
  cases c with
  | root kind params =>
    simp only [Holds, hGet 0 (by omega)]
  | follow var side index target kind params =>
    have hTake : all.take n = ids.take n := by
      rcases hPre with ⟨rest, rfl⟩
      rw [take_append_of_le_length hN]
    simp only [Holds, hTake, hGet n hLen]
    refine and_congr_right (fun hVar => ?_)
    simp only [hGet var (by omega)]
  | link var side index other target =>
    simp only [Holds]
    refine and_congr_right (fun hVar => and_congr_right (fun hOther => ?_))
    simp only [hGet var (by omega), hGet other (by omega)]

---- Extending Bindings ----

def idsOf (binding : List Slot) : List Nat :=
  binding.map Slot.toNat

@[simp] theorem length_idsOf (binding : List Slot) : (idsOf binding).length = binding.length :=
  length_map _

theorem getElem?_idsOf (binding : List Slot) (i : Nat) :
    (idsOf binding)[i]? = binding[i]?.map Slot.toNat :=
  getElem?_map

namespace Graph.Sound

theorem joined_iff (hS : g.Sound) {side : Side} {m index : Nat} {far : Nat × Nat} :
    g.Joined side (m, index) far ↔ ∃ p ∈ Constraint.farPins g m index side, p.place = far := by
  cases side with
  | input =>
    simp only [Joined, Constraint.farPins, Option.mem_toList]
    exact hS.wired_iff_source?
  | output => exact wired_iff_mem_targets

theorem linked_iff (hS : g.Sound) {src dst : Nat × Nat} :
    Constraint.linked g src dst = true ↔ g.Wired src dst := by
  rw [Constraint.linked, Option.any_eq_true]
  simp only [beq_iff_eq]
  exact hS.wired_iff_source?.symm

theorem idsOf_prefix_iff {P : List Nat → Prop} :
    (idsOf binding <+: ids ∧ ids.length = binding.length ∧ P ids) ↔
      idsOf binding = ids ∧ P (idsOf binding) := by
  constructor
  · rintro ⟨hPre, hLen, hP⟩
    obtain rfl := hPre.eq_of_length (by rw [length_idsOf, hLen])
    exact ⟨rfl, hP⟩
  · rintro ⟨rfl, hP⟩
    exact ⟨prefix_refl _, length_idsOf _, hP⟩

theorem exists_advance_iff (hS : g.Sound) (hSome : binding ≠ []) :
    (∃ b ∈ c.advance g binding, idsOf b = ids) ↔
      idsOf binding <+: ids ∧ ids.length = c.bound binding.length ∧
        c.Holds g ids binding.length := by
  cases c with
  | root kind params =>
    rw [show Constraint.bound _ _ = binding.length from rfl,
      idsOf_prefix_iff (P := fun ids => Constraint.Holds g ids _ _)]
    rcases binding with _ | ⟨s, rest⟩
    · exact absurd rfl hSome
    · by_cases hFits : Constraint.fits g kind params s.toNat = true <;>
        simp [Constraint.advance, Constraint.Holds, idsOf, hFits]
  | link var side index other target =>
    rw [show Constraint.bound _ _ = binding.length from rfl,
      idsOf_prefix_iff (P := fun ids => Constraint.Holds g ids _ _)]
    simp only [Constraint.advance, Constraint.Holds, getElem?_idsOf]
    rcases hNear : binding[var]? with _ | s
    · simp
    · rcases hFar : binding[other]? with _ | t
      · simp
      · have hVar := lt_of_getElem? hNear
        have hOther := lt_of_getElem? hFar
        have hEither : ∀ linked : Bool,
            (linked = true ↔ g.Joined side (s.toNat, index) (t.toNat, target.toNat)) →
            ((∃ b ∈ (if linked then [binding] else []), idsOf b = ids) ↔
              idsOf binding = ids ∧ var < binding.length ∧ other < binding.length ∧
                ∃ m u, some s.toNat = some m ∧ some t.toNat = some u ∧
                  g.Joined side (m, index) (u, target.toNat)) := by
          intro linked hJoined
          simp only [mem_ite_nil_right, mem_singleton, Option.some.injEq, hVar, hOther, true_and]
          constructor
          · rintro ⟨b, ⟨hLinked, rfl⟩, rfl⟩
            exact ⟨rfl, s.toNat, t.toNat, rfl, rfl, hJoined.mp hLinked⟩
          · rintro ⟨rfl, m, u, rfl, rfl, hW⟩
            exact ⟨binding, ⟨hJoined.mpr hW, rfl⟩, rfl⟩
        cases side <;> exact hEither _ hS.linked_iff
  | follow var side index target kind params =>
    simp only [Constraint.advance, Constraint.Holds, Constraint.bound]
    constructor
    · rintro ⟨b, hM, rfl⟩
      rcases hNear : binding[var]? with _ | s
      · simp [hNear] at hM
      · simp only [hNear, mem_map, mem_filter, Bool.and_eq_true, beq_iff_eq,
          Bool.not_eq_true', ← Bool.not_eq_true, Slot.covers_iff] at hM
        rcases hM with ⟨p, ⟨hFar, ⟨⟨hIndex, hOp⟩, hNew⟩, hFits⟩, rfl⟩
        have hVar := lt_of_getElem? hNear
        refine ⟨by simp [idsOf], by simp, hVar, s.toNat, p.node, ?_, ?_, ?_, hOp, ?_, hFits⟩
        · rw [getElem?_idsOf, getElem?_append_left hVar, hNear]
          rfl
        · rw [getElem?_idsOf, getElem?_concat_length]
          rfl
        · exact hS.joined_iff.mpr ⟨p, hFar, by rw [← hIndex]; rfl⟩
        · simpa [idsOf] using hNew
    · rintro ⟨⟨rest, rfl⟩, hLen, hVar, m, u, hNear, hLast, hJoined, hOp, hNew, hFits⟩
      rw [getElem?_append_left (by simpa using hVar), getElem?_idsOf,
        Option.map_eq_some_iff] at hNear
      rcases hNear with ⟨s, hNear, rfl⟩
      rcases hS.joined_iff.mp hJoined with ⟨p, hFar, hPlace⟩
      have hN : p.node = u := congrArg Prod.fst hPlace
      have hIndex : p.index = target.toNat := congrArg Prod.snd hPlace
      have hRest : rest = [u] := by
        have hOne : rest.length = 1 := by simpa using hLen
        rcases length_eq_one_iff.mp hOne with ⟨v, rfl⟩
        rw [getElem?_append_right (by simp)] at hLast
        simpa using hLast
      subst hRest
      refine ⟨binding ++ [p.owner], ?_, ?_⟩
      · simp only [hNear, mem_map, mem_filter, Bool.and_eq_true, beq_iff_eq,
          Bool.not_eq_true', ← Bool.not_eq_true, Slot.covers_iff]
        refine ⟨p, ⟨hFar, ⟨⟨hIndex, hN ▸ hOp⟩, ?_⟩, hN ▸ hFits⟩, rfl⟩
        rw [hN]
        simpa [idsOf] using hNew
      · simp only [idsOf, map_append, map_cons, map_nil]
        rw [← hN]
        rfl

end Graph.Sound

---- Walking along Constraints ----

def bindingsAlong (g : Graph K) (binding : List Slot) : List Constraint → List (List Slot)
  | [] => [binding]
  | c :: cs => (c.advance g binding).flatMap (fun b => bindingsAlong g b cs)

namespace Graph.Sound

/- A walk finds exactly the bindings that meet the constraints. -/
theorem exists_bindingsAlong_iff (hS : g.Sound) (hSome : binding ≠ []) :
    (∃ b ∈ bindingsAlong g binding cs, idsOf b = ids) ↔
      idsOf binding <+: ids ∧ ids.length = boundAfter binding.length cs ∧
        Satisfies g ids binding.length cs := by
  induction cs generalizing binding with
  | nil =>
    simp only [bindingsAlong, mem_singleton, exists_eq_left, boundAfter_nil, Satisfies, and_true]
    constructor
    · rintro rfl
      exact ⟨prefix_refl _, length_idsOf _⟩
    · rintro ⟨hPre, hLen⟩
      exact hPre.eq_of_length (by rw [length_idsOf, hLen])
  | cons c cs ih =>
    have hPos : 0 < binding.length := length_pos_iff.mpr hSome
    simp only [bindingsAlong, mem_flatMap, boundAfter_cons, Satisfies]
    constructor
    · rintro ⟨b, ⟨mid, hMid, hWalk⟩, rfl⟩
      rcases (hS.exists_advance_iff hSome).mp ⟨mid, hMid, rfl⟩ with ⟨hPre, hLen, hHolds⟩
      rw [length_idsOf] at hLen
      have hMidSome : mid ≠ [] := by
        rintro rfl
        have := le_bound binding.length c
        simp at hLen
        omega
      rcases (ih hMidSome).mp ⟨b, hWalk, rfl⟩ with ⟨hPre', hLen', hRest⟩
      rw [hLen] at hLen' hRest
      refine ⟨hPre.trans hPre', hLen', ?_, hRest⟩
      exact (Constraint.holds_prefix_iff hPre' hPos (by simp [hLen])).mp hHolds
    · rintro ⟨hPre, hLen, hHolds, hRest⟩
      have hBound : c.bound binding.length ≤ ids.length :=
        hLen ▸ le_boundAfter _ cs
      -- The ids bound after the first constraint.
      have hTake : (ids.take (c.bound binding.length)).length = c.bound binding.length :=
        length_take_of_le hBound
      have hTakePrefix : idsOf binding <+: ids.take (c.bound binding.length) := by
        refine prefix_of_prefix_length_le hPre ( take_prefix _ _) ?_
        rw [hTake, length_idsOf]
        exact le_bound _ _
      have hTakeHolds : c.Holds g (ids.take (c.bound binding.length)) binding.length :=
        (Constraint.holds_prefix_iff ( take_prefix _ _) hPos (Nat.le_of_eq hTake.symm)).mpr hHolds
      rcases (hS.exists_advance_iff hSome).mpr ⟨hTakePrefix, hTake, hTakeHolds⟩ with
        ⟨mid, hMid, hIds⟩
      have hMidLength : mid.length = c.bound binding.length := by
        rw [← length_idsOf, hIds, hTake]
      have hMidSome : mid ≠ [] := by
        rintro rfl
        have := le_bound binding.length c
        simp at hMidLength
        omega
      rcases (ih hMidSome).mpr ⟨hIds ▸ take_prefix _ _, by rw [hMidLength, hLen],
        hMidLength ▸ hRest⟩ with ⟨b, hWalk, hEq⟩
      exact ⟨b, ⟨mid, hMid, hWalk⟩, hEq⟩

---- Tracing Again ----

theorem idsOf_take (nodes : List Slot) (n : Nat) : idsOf (nodes.take n) = (idsOf nodes).take n :=
  map_take

theorem exists_advance_take_iff (hS : g.Sound) {nodes : List Slot} (hPos : 0 < n)
    (hLen : c.bound n ≤ nodes.length) :
    (∃ b ∈ c.advance g (nodes.take n), idsOf b = idsOf (nodes.take (c.bound n))) ↔
      c.Holds g (idsOf nodes) n := by
  have hN : n ≤ nodes.length := Nat.le_trans (le_bound n c) hLen
  have hTake : (nodes.take n).length = n := length_take_of_le hN
  have hTakeBound : (nodes.take (c.bound n)).length = c.bound n := length_take_of_le hLen
  have hSome : nodes.take n ≠ [] := by
    intro hNil
    rw [hNil] at hTake
    simp at hTake
    omega
  rw [hS.exists_advance_iff hSome, hTake]
  have hPre : idsOf (nodes.take n) <+: idsOf (nodes.take (c.bound n)) := by
    rw [idsOf_take, idsOf_take]
    exact take_prefix_take_left (le_bound n c)
  have hHolds := Constraint.holds_prefix_iff (g := g) (c := c)
    (idsOf_take nodes (c.bound n) ▸ take_prefix _ _ : idsOf (nodes.take (c.bound n)) <+: _)
    hPos (by simp [hTakeBound])
  simp [hPre, hTakeBound, hHolds]

/- A binding can be traced again from its first `n` nodes exactly if it meets the constraints. -/
theorem retraces_take_iff (hS : g.Sound) {nodes : List Slot} (hPos : 0 < n)
    (hRoot : ∀ c ∈ cs, c.isRoot = false) (hLen : boundAfter n cs ≤ nodes.length) :
    Pattern.retraces g nodes (nodes.take n) cs = .ok true ↔ Satisfies g (idsOf nodes) n cs := by
  induction cs generalizing n with
  | nil => simp [Pattern.retraces, Satisfies]
  | cons c cs ih =>
    have hRest : ∀ c ∈ cs, c.isRoot = false := fun d hM => hRoot d (mem_cons_of_mem _ hM)
    have hBound : c.bound n ≤ nodes.length := Nat.le_trans (le_boundAfter _ cs) hLen
    have hN : n ≤ nodes.length := Nat.le_trans (le_bound n c) hBound
    have hTake : (nodes.take n).length = n := length_take_of_le hN
    have hStep := hS.exists_advance_take_iff hPos hBound
    have hNext := ih (Nat.lt_of_lt_of_le hPos (le_bound n c)) hRest hLen
    rw [Satisfies, ← hStep]
    cases c with
    | root kind params => simp [Constraint.isRoot] at hRoot
    | link var side index other target =>
      have hEmpty : (∃ b ∈ Constraint.advance g (nodes.take n) (.link var side index other target),
          idsOf b = idsOf (nodes.take n)) ↔
          (Constraint.advance g (nodes.take n) (.link var side index other target)).isEmpty = false := by
        simp only [Constraint.advance]
        split
        · split <;> simp
        · simp
      simp only [Constraint.bound] at hNext ⊢
      rw [hEmpty, ← hNext, Pattern.retraces]
      cases (Constraint.advance g (nodes.take n) (.link var side index other target)).isEmpty <;>
        simp
    | follow var side index target kind params =>
      have hLt : n < nodes.length := hBound
      have hSucc : nodes.take (n + 1) = nodes.take n ++ [nodes[n]] := take_succ_eq_append_getElem hLt
      have hAny : (∃ b ∈ Constraint.advance g (nodes.take n) (.follow var side index target kind params),
          idsOf b = idsOf (nodes.take (n + 1))) ↔
          (Constraint.advance g (nodes.take n) (.follow var side index target kind params)).any
            (fun b => b.getLast?.any (fun t => t.toNat == nodes[n].toNat)) = true := by
        rw [any_eq_true]
        refine exists_congr (fun b => and_congr_right (fun hM => ?_))
        have hLast : ∃ s, b = nodes.take n ++ [s] := by
          simp only [Constraint.advance] at hM
          split at hM
          · simp at hM
          · rcases mem_map.mp hM with ⟨p, -, rfl⟩
            exact ⟨p.owner, rfl⟩
        rcases hLast with ⟨s, rfl⟩
        rw [hSucc, idsOf, idsOf, map_append, map_append, append_cancel_left_eq]
        simp
      simp only [Constraint.bound] at hNext ⊢
      rw [hAny, ← hNext, Pattern.retraces, hSucc]
      simp only [hTake, getElem?_eq_getElem hLt]
      cases (Constraint.advance g (nodes.take n) (.follow var side index target kind params)).any
          (fun b => b.getLast?.any (fun t => t.toNat == nodes[n].toNat)) <;>
        simp

end Graph.Sound

end CircuitGraph
