import CircuitGraph.Proofs.Circuits

/-
  The least topological order.

  Settling takes the smallest entry that waits for nothing, so
  no other list of the entries in which each of them comes
  after those that it waits for is smaller.

  Main declarations:
    * `Sorts`: the orders that are allowed
    * `topologicalOrder_least`
-/

---- Settling ----

namespace CircuitGraph

open List

variable {entries : List (Nat × List Nat)}

theorem settle_le (hAsc : (entries.map Prod.fst).Pairwise (· < ·))
    (hWaiting : ∀ e ∈ entries, e.2.Nodup) {other : List Nat}
    (hPerm : other.Perm (entries.map Prod.fst))
    (hOrd : Ordered (fun n p => ∃ ws, (n, ws) ∈ entries ∧ p ∈ ws) other) :
    (settle entries).1 ≤ other := by
  fun_induction settle entries generalizing other with
  | case1 => exact not_lt.mp (List.not_lt_nil other)
  | case2 entries n waiting hFnd order stuck hRest ih =>
    rw [hRest] at ih
    have hKeys : (entries.map Prod.fst).Nodup := hAsc.imp Nat.ne_of_lt
    have hM : n ∈ entries.map Prod.fst := mem_map_of_mem (mem_of_find?_eq_some hFnd)
    cases other with
    | nil => exact absurd (hPerm.mem_iff.mpr hM) not_mem_nil
    | cons m rest =>
      rcases mem_map.mp (hPerm.mem_iff.mp mem_cons_self) with ⟨⟨k, ws⟩, hEntry, hKey⟩
      obtain rfl : k = m := hKey
      -- What comes first waits for nothing, so it is not smaller than what was found.
      have hReady : ws = [] := eq_nil_iff_forall_not_mem.mpr (fun p hWaits =>
        not_mem_nil (hOrd [] _ rest rfl p ⟨ws, hEntry, hWaits⟩))
      rcases Nat.lt_trichotomy n k with hLess | rfl | hGreater
      · exact le_of_lt (cons_lt_cons_iff.mpr (.inl hLess))
      · refine cons_le_cons n (ih ?_ ?_ ?_ ?_)
        · rw [map_fst_settleRest]
          exact hAsc.filter _
        · rintro ⟨k, vs⟩ hThere
          rcases mem_settleRest_iff.mp hThere with ⟨-, us, hOld, rfl⟩
          exact (hWaiting _ hOld).erase n
        · rw [map_fst_settleRest, ← hKeys.erase_eq_filter]
          exact (cons_perm_iff_perm_erase.mp hPerm).2
        · rintro before k after rfl p ⟨vs, hThere, hWaits⟩
          rcases mem_settleRest_iff.mp hThere with ⟨-, us, hOld, rfl⟩
          have hBef := hOrd (n :: before) k after rfl p ⟨us, hOld, mem_of_mem_erase hWaits⟩
          refine (mem_cons.mp hBef).resolve_left ?_
          rintro rfl
          exact (hWaiting _ hOld).not_mem_erase hWaits
      · exact absurd hReady (not_ready_of_lt hAsc hFnd hEntry hGreater)

---- Topological Order ----

namespace Graph

variable {K : Type} {g : Graph K} {order : List Nat}

/- Whether a list has every node once, and the start of each wire before its end. -/
def Sorts (g : Graph K) (order : List Nat) : Prop :=
  order.Perm g.nodeIds ∧ ∀ w ∈ g.wires, order.idxOf w.src.node < order.idxOf w.dst.node

theorem Sorts.ordered (hSorts : g.Sorts order) (hS : g.Sound) :
    Ordered (fun n p => g.Edge p n) order := by
  rintro before n after rfl p ⟨w, hWire, rfl, rfl⟩
  have hNodup := hSorts.1.nodup_iff.mpr hS.nodeIds_nodup
  have hNew : w.dst.node ∉ before := fun hM =>
    (nodup_append.mp hNodup).2.2 _ hM _ mem_cons_self rfl
  have hLess := hSorts.2 w hWire
  rw [idxOf_append_of_notMem hNew, idxOf_cons_self, Nat.add_zero] at hLess
  by_contra hLater
  rw [idxOf_append_of_notMem hLater] at hLess
  omega

/-
  The order fails exactly if there is a cycle.  Otherwise it
  is the least among all lists of the nodes in which every
  wire leads from a node to a later one.
-/
theorem topologicalOrder_least
    (hSound : g.Sound) :
    ((∃ stuck, g.topologicalOrder = .error (.structural (.cycle stuck))) ↔
      ∃ n, Relation.TransGen g.Edge n n) ∧
    ((¬ ∃ n, Relation.TransGen g.Edge n n) →
      ∃ order, g.topologicalOrder = .ok order ∧ g.Sorts order ∧
        ∀ other, g.Sorts other → order ≤ other) := by
  refine ⟨⟨?_, ?_⟩, fun hNone => ?_⟩
  · rintro ⟨stuck, hFails⟩
    by_contra hNone
    rcases hSound.exists_topologicalOrder (not_exists.mp hNone) with ⟨order, hOrder⟩
    exact nomatch hOrder.symm.trans hFails
  · rintro ⟨n, hCycle⟩
    have hNever : ∀ order, g.topologicalOrder ≠ .ok order := fun order hOrder =>
      hSound.acyclic_of_topologicalOrder hOrder n hCycle
    unfold topologicalOrder at hNever ⊢
    dsimp only at hNever ⊢
    split_ifs at hNever ⊢
    · exact absurd rfl (hNever _)
    · exact ⟨_, rfl⟩
  · rcases hSound.exists_topologicalOrder (not_exists.mp hNone) with ⟨order, hOrder⟩
    refine ⟨order, hOrder, ⟨(hSound.topologicalOrder_ok hOrder).1, fun w hWire =>
      hSound.edge_lt_of_topologicalOrder hOrder ⟨w, hWire, rfl, rfl⟩⟩, fun other hOther => ?_⟩
    rw [show order = (settle _).1 from
      congrArg Prod.fst (hSound.topologicalOrder_ok_iff.mp hOrder).symm]
    have hFirst : (g.nodeIds.map (fun n => (n, g.predecessors n))).map Prod.fst = g.nodeIds := by
      simp [Function.comp_def]
    refine settle_le (hFirst.symm ▸ hSound.nodeIds_pairwise) ?_ (hFirst.symm ▸ hOther.1) ?_
    · intro e hEntry
      rw [(Sound.mem_entries_iff.mp hEntry).2]
      exact predecessors_nodup g _
    · rintro before n after hSplit p ⟨ws, hEntry, hWaits⟩
      rw [(Sound.mem_entries_iff.mp hEntry).2, mem_predecessors_iff] at hWaits
      exact hOther.ordered hSound before n after hSplit p hWaits

/- Operations on two qubits could come in either order. -/
theorem topologicalOrder_least_parallel :
    ∃ g : Graph ℚ, ofCircuit (Identities.circuit 2 [(.x, [0]), (.x, [1])]) = .ok g ∧ g.Sound ∧
      g.topologicalOrder = .ok [0, 2, 3, 1] ∧ g.Sorts [0, 2, 3, 1] ∧ g.Sorts [0, 3, 2, 1] ∧
      [0, 2, 3, 1] ≤ [0, 3, 2, 1] := by
  have hMade : (ofCircuit (Identities.circuit 2 [(.x, [0]), (.x, [1])])).toOption.any
      (fun g : Graph ℚ => g.topologicalOrder.toOption == some [0, 2, 3, 1] &&
        g.nodeIds == [0, 1, 2, 3] &&
        g.wires.map (fun w => (w.src.node, w.dst.node)) == [(0, 2), (0, 3), (2, 1), (3, 1)]) =
      true := by
    decide +kernel
  rcases exists_of_toOption_any hMade with ⟨g, hGraph, hAll⟩
  simp only [Bool.and_eq_true, beq_iff_eq] at hAll
  rcases hAll with ⟨⟨hOrder, hNodes⟩, hWires⟩
  have hSound := (reachable_of_ofCircuit hGraph).intact.sound
  have hSorts : ∀ order, order.Perm [0, 1, 2, 3] →
      (∀ e ∈ [(0, 2), (0, 3), (2, 1), (3, 1)], order.idxOf e.1 < order.idxOf e.2) →
      g.Sorts order := fun order hPerm hAscends =>
    ⟨hNodes ▸ hPerm, fun w hWire => hAscends (w.src.node, w.dst.node) (hWires ▸ mem_map_of_mem hWire)⟩
  have hOk : g.topologicalOrder = .ok [0, 2, 3, 1] := by
    cases hRun : g.topologicalOrder with
    | error fault => simp [hRun, Except.toOption] at hOrder
    | ok order => simpa [hRun, Except.toOption] using hOrder
  have hOther := hSorts [0, 3, 2, 1] (by decide) (by decide)
  rcases (topologicalOrder_least hSound).2
    (not_exists.mpr (hSound.acyclic_of_topologicalOrder hOk)) with ⟨order, hRun, hMine, hLeast⟩
  obtain rfl : order = [0, 2, 3, 1] := Except.ok.inj (hRun.symm.trans hOk)
  exact ⟨g, hGraph, hSound, hRun, hMine, hOther, hLeast _ hOther⟩

end Graph

end CircuitGraph
