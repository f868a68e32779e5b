import CircuitGraph.Proofs.Match.Nearness
import CircuitGraph.Proofs.Substitution.Locality

/-
  Matches far from a change.

  Each variable of a pattern is one wire away from an earlier
  one.
-/

---- Far Occurrences ----

namespace CircuitGraph

open List

variable {K : Type} {n : Nat} {slots : List Slot}

/- Each variable after the first is bound to a node one wire away from an earlier one. -/
theorem Satisfies.exists_adjacent {g : Graph K} {ids : List Nat} {cs : List Constraint}
    (hSatisfies : Satisfies g ids n cs) {k : Nat} (hFrom : n ≤ k) (hTo : k < boundAfter n cs) :
    ∃ j m u, j < k ∧ ids[j]? = some m ∧ ids[k]? = some u ∧ isOpId u = true ∧ g.Adjacent m u := by
  induction cs generalizing n with
  | nil =>
    rw [boundAfter_nil] at hTo
    omega
  | cons c cs ih =>
    rw [boundAfter_cons] at hTo
    by_cases hLater : c.bound n ≤ k
    · exact ih hSatisfies.2 hLater hTo
    · cases c with
      | follow var side index target kind params =>
        have hHere : k = n := by
          rw [Constraint.bound] at hLater
          omega
        rcases hSatisfies.1 with ⟨hVar, m, u, hM, hU, hJoined, hOp, -, -⟩
        refine ⟨var, m, u, hHere ▸ hVar, hM, hHere ▸ hU, hOp, ?_⟩
        cases side with
        | input => exact .inr hJoined.edge
        | output => exact .inl hJoined.edge
      | root => exact absurd hFrom hLater
      | link => exact absurd hFrom hLater

namespace Graph

namespace Edited

variable {g g' : Graph K} {touched removed : Nat → Prop}

theorem adjacent_iff (hEdited : g.Edited touched removed g') {m : Nat} (hM : n ∈ g'.opIds)
    (hFree : ¬ touched n) : g'.Adjacent n m ↔ g.Adjacent n m := by
  simp only [Adjacent, edge_iff_wired]
  refine or_congr ?_ ?_
  · exact exists_congr (fun i => exists_congr (fun j => hEdited.outgoing (n, i) (m, j) hM hFree))
  · exact exists_congr (fun i => exists_congr (fun j => hEdited.incoming (m, i) (n, j) hM hFree))

/-
  Nodes that come one wire after another are all untouched if
  the first one is farther from what is touched than their
  number.
-/
theorem untouched_of_chain (hEdited : g.Edited touched removed g') (hS' : g'.Sound)
    (hSlots : ∀ n ∈ g'.opIds, touched n → n ∈ slots.map Slot.toNat) {radius : Nat}
    {ids : List Nat} (hLen : ids.length ≤ radius)
    (hRoot : ∀ n, ids.head? = some n → n ∈ g'.opIds ∧
      n ∉ (g'.neighbourhood slots radius).map Slot.toNat)
    (hChain : ∀ k, 1 ≤ k → k < ids.length → ∃ j m u, j < k ∧ ids[j]? = some m ∧
      ids[k]? = some u ∧ isOpId u = true ∧ (g.Adjacent m u ∨ g'.Adjacent m u)) :
    ∀ n ∈ ids, n ∈ g'.opIds ∧ ¬ touched n := by
  have hFree : ∀ k n, n ∈ g'.opIds → ¬ g'.Near slots k n → ¬ touched n :=
    fun k n hMem hFar hTouched => hFar (near_of_mem hMem (hSlots n hMem hTouched))
  -- the later a node comes, the fewer wires it is known to be away
  have hAway : ∀ j n, ids[j]? = some n → n ∈ g'.opIds ∧ ¬ g'.Near slots (radius - j) n := by
    intro j
    induction j using Nat.strongRecOn with
    | ind j ih =>
      intro n hN
      cases j with
      | zero =>
        rw [← head?_eq_getElem?] at hN
        rcases hRoot n hN with ⟨hMem, hFar⟩
        exact ⟨hMem, fun hNear => hFar (hS'.mem_neighbourhood_iff_near.mpr hNear)⟩
      | succ j =>
        have hLt := lt_of_getElem? hN
        rcases hChain (j + 1) (Nat.succ_pos j) hLt with
          ⟨i, m, u, hEarlier, hM, hU, hOp, hAdjacent⟩
        obtain rfl : u = n := eq_of_some hU hN
        rcases ih i hEarlier m hM with ⟨hMem, hFar⟩
        have hHere : g'.Adjacent m u :=
          hAdjacent.elim (hEdited.adjacent_iff hMem (hFree _ m hMem hFar)).mpr id
        refine ⟨hS'.mem_opIds_of_adjacent hHere hOp, fun hNear => hFar ?_⟩
        exact (near_succ_iff.mpr (.inr ⟨u, hNear, hMem, hHere.symm⟩)).of_le (by omega)
  intro n hMem
  rcases getElem?_of_mem hMem with ⟨j, hJ⟩
  rcases hAway j n hJ with ⟨hThere, hFar⟩
  exact ⟨hThere, hFree _ n hThere hFar⟩

theorem occurs_iff (hEdited : g.Edited touched removed g') {pattern : Graph K} {f : Nat → Nat}
    (hImage : ∀ n ∈ pattern.opIds, f n ∈ g'.opIds ∧ ¬ touched (f n)) :
    pattern.Occurs g f ↔ pattern.Occurs g' f := by
  have hOut : ∀ n ∈ pattern.opIds, ∀ i d, g'.Wired (f n, i) d ↔ g.Wired (f n, i) d :=
    fun n hN i d => hEdited.outgoing (f n, i) d (hImage n hN).1 (hImage n hN).2
  have hIn : ∀ n ∈ pattern.opIds, ∀ a j, g'.Wired a (f n, j) ↔ g.Wired a (f n, j) :=
    fun n hN a j => hEdited.incoming a (f n, j) (hImage n hN).1 (hImage n hN).2
  constructor
  · intro hOcc
    constructor
    · exact fun n hN => (hImage n hN).1
    · exact hOcc.injective
    · intro n hN
      rw [hEdited.kind _ (hImage n hN).1 (hImage n hN).2]
      exact hOcc.kind n hN
    · intro n hN
      rw [hEdited.params _ (hImage n hN).1 (hImage n hN).2]
      exact hOcc.params n hN
    · intro n hN m hM i j hW
      exact (hOut n hN i _).mpr (hOcc.wired n hN m hM i j hW)
    · intro i m hM j hInput
      rcases hOcc.fed i m hM j hInput with ⟨src, hW, hOutside⟩
      exact ⟨src, (hIn m hM src j).mpr hW, hOutside⟩
    · intro n hN i hClosed dst hW
      exact hOcc.closed n hN i hClosed dst ((hOut n hN i dst).mp hW)
  · intro hOcc
    constructor
    · exact fun n hN => hEdited.old _ (hImage n hN).1 (hImage n hN).2
    · exact hOcc.injective
    · intro n hN
      rw [← hEdited.kind _ (hImage n hN).1 (hImage n hN).2]
      exact hOcc.kind n hN
    · intro n hN
      rw [← hEdited.params _ (hImage n hN).1 (hImage n hN).2]
      exact hOcc.params n hN
    · intro n hN m hM i j hW
      exact (hOut n hN i _).mp (hOcc.wired n hN m hM i j hW)
    · intro i m hM j hInput
      rcases hOcc.fed i m hM j hInput with ⟨src, hW, hOutside⟩
      exact ⟨src, (hIn m hM src j).mp hW, hOutside⟩
    · intro n hN i hClosed dst hW
      exact hOcc.closed n hN i hClosed dst ((hOut n hN i dst).mpr hW)

end Edited

end Graph

namespace RuleSet

variable {rs : RuleSet K} {g g' : Graph K} {m : Match} {rule : Rule K} {f : Nat → Nat}

theorem length_nodes_le_radius {p : Pattern} (hM : p ∈ rs.patterns) :
    p.nodes.length ≤ rs.radius := by
  have hLe : ∀ (sizes : List Nat) (least : Nat),
      least ≤ sizes.foldl max least ∧ ∀ n ∈ sizes, n ≤ sizes.foldl max least := by
    intro sizes
    induction sizes with
    | nil => simp
    | cons size sizes ih =>
      intro least
      rcases ih (max least size) with ⟨hStart, hAll⟩
      rw [foldl_cons]
      refine ⟨by omega, fun n hN => ?_⟩
      rcases mem_cons.mp hN with rfl | hTail
      · omega
      · exact hAll n hTail
  exact (hLe _ 0).2 _ (mem_map_of_mem hM)

section

variable {i : Nat} {p : Pattern} (hC : rs.Compiled) (hRule : rs.rules[i]? = some rule)
  (hPat : rs.patterns[i]? = some p)

include hC hRule hPat

theorem chain_of_occurs (hS : g.Sound) (hOcc : rule.pattern.Occurs g f) :
    ∀ k, 1 ≤ k → k < (p.nodes.map f).length → ∃ j n u, j < k ∧
      (p.nodes.map f)[j]? = some n ∧ (p.nodes.map f)[k]? = some u ∧ isOpId u = true ∧
      g.Adjacent n u := by
  rcases hC.getElem? hRule with ⟨q, hQ, hUse, hDesc⟩
  obtain rfl := eq_of_some hPat hQ
  rcases (hDesc.occurs_iff hUse.pattern.sound hUse.isPattern hS).mp hOcc with
    ⟨hSatisfies, -⟩
  intro k hFrom hTo
  apply hSatisfies.exists_adjacent hFrom
  rwa [hDesc.bound, ← length_map f]

/-
  A pattern whose first node is far from all that is touched
  occurs before if and only if it occurs after.
-/
theorem occurs_iff_of_far {touched removed : Nat → Prop} (hEdited : g.Edited touched removed g')
    (hS : g.Sound) (hS' : g'.Sound)
    (hSlots : ∀ n ∈ g'.opIds, touched n → n ∈ slots.map Slot.toNat)
    (hRoot : ∀ n, (p.nodes.map f).head? = some n → n ∈ g'.opIds ∧
      n ∉ (g'.neighbourhood slots rs.radius).map Slot.toNat) :
    rule.pattern.Occurs g f ↔ rule.pattern.Occurs g' f := by
  rcases hC.getElem? hRule with ⟨q, hQ, -, hDesc⟩
  obtain rfl := eq_of_some hPat hQ
  have hLen : (p.nodes.map f).length ≤ rs.radius := by
    rw [length_map]
    exact length_nodes_le_radius (mem_of_getElem? hPat)
  -- in whichever graph the pattern occurs, no node of it is touched
  have hImage : (∀ k, 1 ≤ k → k < (p.nodes.map f).length → ∃ j n u, j < k ∧
      (p.nodes.map f)[j]? = some n ∧ (p.nodes.map f)[k]? = some u ∧ isOpId u = true ∧
      (g.Adjacent n u ∨ g'.Adjacent n u)) →
      (rule.pattern.Occurs g f ↔ rule.pattern.Occurs g' f) := by
    intro hChain
    have hAll := hEdited.untouched_of_chain hS' hSlots hLen hRoot hChain
    exact hEdited.occurs_iff (fun n hN => hAll (f n) (hDesc.mem_image_iff.mpr ⟨n, hN, rfl⟩))
  constructor
  · intro hOcc
    refine (hImage (fun k hFrom hTo => ?_)).mp hOcc
    rcases chain_of_occurs hC hRule hPat hS hOcc k hFrom hTo with
      ⟨j, n, u, hLt, hN, hU, hOp, hAdjacent⟩
    exact ⟨j, n, u, hLt, hN, hU, hOp, .inl hAdjacent⟩
  · intro hOcc
    refine (hImage (fun k hFrom hTo => ?_)).mpr hOcc
    rcases chain_of_occurs hC hRule hPat hS' hOcc k hFrom hTo with
      ⟨j, n, u, hLt, hN, hU, hOp, hAdjacent⟩
    exact ⟨j, n, u, hLt, hN, hU, hOp, .inr hAdjacent⟩

end

/-
  A match whose root is far from all that is touched is one
  before and after.
-/
theorem Names.finds_iff_of_far (hNames : rs.Names m rule f) (hC : rs.Compiled)
    (hFunnel : rule.pattern.Funnel) {touched removed : Nat → Prop}
    (hEdited : g.Edited touched removed g') (hS : g.Sound) (hAcy : g.Acyclic)
    (hS' : g'.Sound) (hAcy' : g'.Acyclic)
    (hSlots : ∀ n ∈ g'.opIds, touched n → n ∈ slots.map Slot.toNat)
    (hRoot : m.root.toNat ∈ g'.opIds)
    (hFar : m.root.toNat ∉ (g'.neighbourhood slots rs.radius).map Slot.toNat) :
    rs.Finds g m rule f ↔ rs.Finds g' m rule f := by
  rcases hNames.exists_pattern hC with ⟨p, hPat, hUse, -, hIds⟩
  have hOcc : rule.pattern.Occurs g f ↔ rule.pattern.Occurs g' f := by
    refine occurs_iff_of_far hC hNames.member hPat hEdited hS hS' hSlots ?_
    intro n hHead
    rw [← hIds] at hHead
    obtain rfl := eq_of_some hNames.root hHead
    exact ⟨hRoot, hFar⟩
  constructor
  · intro hFinds
    have hThere := hOcc.mp hFinds.occurs
    exact ⟨hNames, hThere, hThere.convex hUse hFunnel hS' hAcy'⟩
  · intro hFinds
    have hThere := hOcc.mpr hFinds.occurs
    exact ⟨hNames, hThere, hThere.convex hUse hFunnel hS hAcy⟩

end RuleSet

end CircuitGraph
