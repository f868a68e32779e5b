import CircuitGraph.Proofs.Circuits

/-
  What a neighbourhood consists of.

  The operations near given ones are those that a walk along
  few enough wires leads to.  The search puts each down with
  the fewest wires there are to it, so that the radius cuts
  off none that it should not.

  Main declarations:
    * `Walks` and `Near`
    * `Explored`: the invariant of the search
    * `neighbourhood_exact`
-/

---- Neighbours ----

namespace CircuitGraph

open List

variable {K : Type} {n : Nat} {slots : List Slot}

namespace Graph

/- Whether a wire runs between two nodes, in whatever direction. -/
def Adjacent (g : Graph K) (n m : Nat) : Prop :=
  g.Edge n m ∨ g.Edge m n

variable {g : Graph K}

theorem mem_opNeighbours_iff {m : Nat} :
    m ∈ (g.opNeighbours n).map Slot.toNat ↔ isOpId m = true ∧ g.Adjacent n m := by
  have hBef : m ∈ (g.predecessorSlots n).map Slot.toNat ↔ g.Edge m n := by
    simp [predecessorSlots, Edge, Pin.node, and_comm, and_left_comm]
  have hAfter : m ∈ (g.successorSlots n).map Slot.toNat ↔ g.Edge n m := by
    simp [successorSlots, Edge, Pin.node, and_assoc]
  have hBoth : m ∈ (g.neighbourSlots n).map Slot.toNat ↔ g.Adjacent n m := by
    rw [neighbourSlots, map_toNat_sortSlots, mem_sortIds, map_append, mem_append, hBef,
      hAfter, Adjacent, or_comm]
  rw [opNeighbours, ← hBoth]
  simp only [mem_map, mem_filter]
  constructor
  · rintro ⟨s, ⟨hM, hOp⟩, rfl⟩
    exact ⟨hOp, s, hM, rfl⟩
  · rintro ⟨hOp, s, hM, rfl⟩
    exact ⟨s, ⟨hM, hOp⟩, rfl⟩

theorem mem_firsts_iff {seen : List Nat} :
    n ∈ (Slot.firsts seen slots).map Slot.toNat ↔ n ∈ slots.map Slot.toNat ∧ n ∉ seen := by
  induction slots generalizing seen with
  | nil => simp [Slot.firsts]
  | cons s rest ih =>
    unfold Slot.firsts
    by_cases hSeen : seen.contains s.toNat = true
    · rw [if_pos hSeen, ih]
      have hM : s.toNat ∈ seen := by simpa using hSeen
      constructor
      · rintro ⟨hRest, hNew⟩
        exact ⟨mem_cons_of_mem _ hRest, hNew⟩
      · rintro ⟨hAll, hNew⟩
        rcases mem_cons.mp hAll with rfl | hRest
        · exact absurd hM hNew
        · exact ⟨hRest, hNew⟩
    · rw [if_neg hSeen, map_cons, mem_cons, ih, map_cons, mem_cons, mem_cons, not_or]
      have hM : s.toNat ∉ seen := by simpa using hSeen
      by_cases hHead : n = s.toNat
      · simp [hHead, hM]
      · simp [hHead]

theorem nodup_firsts {seen : List Nat} : ((Slot.firsts seen slots).map Slot.toNat).Nodup := by
  induction slots generalizing seen with
  | nil => exact nodup_nil
  | cons s rest ih =>
    unfold Slot.firsts
    split_ifs
    · exact ih
    · exact nodup_cons.mpr ⟨fun hM => (mem_firsts_iff.mp hM).2 mem_cons_self, ih⟩

---- Walks ----

/- Walks along a number of wires, in whatever direction, through operations only. -/
inductive Walks (g : Graph K) (m : Nat) : Nat → Nat → Prop where
  | here (operation : m ∈ g.opIds) : Walks g m 0 m
  | step {k u n : Nat} (earlier : Walks g m k u) (adjacent : g.Adjacent u n)
      (operation : n ∈ g.opIds) : Walks g m (k + 1) n

variable {m k radius : Nat}

theorem Walks.operations (hWalks : g.Walks m k n) : m ∈ g.opIds ∧ n ∈ g.opIds := by
  induction hWalks with
  | here hOp => exact ⟨hOp, hOp⟩
  | step _ _ hOp ih => exact ⟨ih.1, hOp⟩

/- Whether a walk along at most so many wires leads to a node from one that is listed. -/
def Near (g : Graph K) (slots : List Slot) (radius n : Nat) : Prop :=
  ∃ m ∈ slots.map Slot.toNat, ∃ k ≤ radius, g.Walks m k n

theorem near_of_mem (hOp : n ∈ g.opIds) (hSlot : n ∈ slots.map Slot.toNat) :
    g.Near slots radius n :=
  ⟨n, hSlot, 0, Nat.zero_le radius, .here hOp⟩

theorem near_succ_iff : g.Near slots (radius + 1) n ↔ g.Near slots radius n ∨
      ∃ u, g.Near slots radius u ∧ n ∈ g.opIds ∧ g.Adjacent u n := by
  constructor
  · rintro ⟨m, hSlot, k, hLe, hWalks⟩
    cases hWalks with
    | here hOp => exact .inl (near_of_mem hOp hSlot)
    | step hEarlier hAdjacent hOp =>
      exact .inr ⟨_, ⟨m, hSlot, _, Nat.le_of_succ_le_succ hLe, hEarlier⟩, hOp, hAdjacent⟩
  · rintro (⟨m, hSlot, k, hLe, hWalks⟩ | ⟨u, ⟨m, hSlot, k, hLe, hWalks⟩, hOp, hAdjacent⟩)
    · exact ⟨m, hSlot, k, Nat.le_succ_of_le hLe, hWalks⟩
    · exact ⟨m, hSlot, k + 1, Nat.succ_le_succ hLe, .step hWalks hAdjacent hOp⟩

theorem Near.of_le (hNear : g.Near slots radius n) (hLe : radius ≤ k) : g.Near slots k n := by
  rcases hNear with ⟨m, hSlot, j, hJ, hWalks⟩
  exact ⟨m, hSlot, j, hJ.trans hLe, hWalks⟩

section

variable (hSound : g.Sound)

include hSound

theorem Sound.mem_opIds_of_adjacent (hAdjacent : g.Adjacent m n) (hOp : isOpId n = true) :
    n ∈ g.opIds := by
  have hThere : n ∈ g.nodeIds :=
    hAdjacent.elim (fun hEdge => (hSound.edge_mem hEdge).2) (fun hEdge => (hSound.edge_mem hEdge).1)
  exact (hSound.mem_opIds_iff_isOpId hThere).mpr hOp

end

---- Distances ----

variable {dist : List (Slot × Nat)} {d e : Nat} {queue found : List Slot} {r : Int}

theorem map_fst_put (e : Nat) : (slots.map (·, e)).map Prod.fst = slots :=
  (map_map ..).trans (map_id slots)

theorem isSome_distance?_iff : (distance? dist n).isSome = true ↔
      n ∈ (dist.map Prod.fst).map Slot.toNat := by
  induction dist with
  | nil => simp [distance?]
  | cons entry rest ih =>
    rw [distance?]
    split_ifs with hHere
    · simp [hHere]
    · simp [ih, Ne.symm hHere]

theorem distance?_append (hHere : distance? dist n = some d) (more : List (Slot × Nat)) :
    distance? (dist ++ more) n = some d := by
  induction dist with
  | nil => simp [distance?] at hHere
  | cons entry rest ih =>
    rw [distance?] at hHere
    rw [cons_append, distance?]
    split_ifs at hHere ⊢
    · exact hHere
    · exact ih hHere

theorem distance?_map (hM : n ∈ slots.map Slot.toNat) :
    distance? (slots.map (·, d)) n = some d := by
  induction slots with
  | nil => simp at hM
  | cons s rest ih =>
    rw [map_cons, distance?]
    split_ifs with hHere
    · rfl
    · exact ih ((mem_cons.mp hM).resolve_left (Ne.symm hHere))

/- What was put down already keeps its distance, and what is found now gets one and the same. -/
theorem distance?_put_iff (hNew : ∀ m ∈ found.map Slot.toNat, distance? dist m = none) :
    distance? (dist ++ found.map (·, e)) n = some d ↔
      distance? dist n = some d ∨ n ∈ found.map Slot.toNat ∧ d = e := by
  cases hHere : distance? dist n with
  | some k =>
    rw [distance?_append hHere]
    refine ⟨.inl, fun hOr => hOr.elim id (fun hM => ?_)⟩
    exact absurd (hNew n hM.1) (by simp [hHere])
  | none =>
    have hSkip : distance? (dist ++ found.map (·, e)) n = distance? (found.map (·, e)) n := by
      clear hNew
      induction dist with
      | nil => rfl
      | cons entry rest ih =>
        rw [distance?] at hHere
        rw [cons_append, distance?]
        split_ifs at hHere ⊢
        exact ih hHere
    rw [hSkip]
    constructor
    · intro hSome
      have hM : n ∈ found.map Slot.toNat := by
        simpa using isSome_distance?_iff.mp (Option.isSome_of_mem hSome)
      exact .inr ⟨hM, (Option.some.inj ((distance?_map hM).symm.trans hSome)).symm⟩
    · rintro (hSome | ⟨hM, rfl⟩)
      · simp at hSome
      · exact distance?_map hM

---- The Search ----

/-
  What holds whenever an operation is taken from the queue.
  The queue is in the order of distances, nothing is farther
  away than one wire past its head, and what has left it
  within the radius has its neighbours put down.
-/
structure Explored (g : Graph K) (slots : List Slot) (r : Int) (queue : List Slot)
    (dist : List (Slot × Nat)) : Prop where
  distinct : ((dist.map Prod.fst).map Slot.toNat).Nodup
  near : ∀ {n d}, distance? dist n = some d → g.Near slots d n ∧ d ≤ r.toNat
  start : ∀ {n}, n ∈ slots.map Slot.toNat → n ∈ g.opIds → distance? dist n = some 0
  queued : ∀ s ∈ queue, ∃ d, distance? dist s.toNat = some d
  ordered : queue.Pairwise (fun s t => ∀ {d e},
    distance? dist s.toNat = some d → distance? dist t.toNat = some e → d ≤ e)
  level : ∀ {n d}, distance? dist n = some d →
    ∀ s ∈ queue, ∀ {e}, distance? dist s.toNat = some e → d ≤ e + 1
  done : ∀ {n d}, distance? dist n = some d → n ∉ queue.map Slot.toNat → d < r.toNat →
    ∀ m ∈ g.opIds, g.Adjacent n m → ∃ e ≤ d + 1, distance? dist m = some e

namespace Explored

variable {s : Slot}

theorem length_le (hSound : g.Sound) (hExp : g.Explored slots r queue dist) :
    dist.length ≤ g.ops.length := by
  have hOps : ((dist.map Prod.fst).map Slot.toNat) ⊆ g.opIds := by
    intro n hM
    rcases Option.isSome_iff_exists.mp (isSome_distance?_iff.mpr hM) with ⟨d, hHere⟩
    rcases (hExp.near hHere).1 with ⟨m, -, k, -, hWalks⟩
    exact hWalks.operations.2
  simpa [hSound.length_opIds] using (hExp.distinct.subperm hOps).length_le

theorem skip (hExp : g.Explored slots r (s :: queue) dist) (hHere : distance? dist s.toNat = some d)
    (hFar : r ≤ d) : g.Explored slots r queue dist where
  distinct := hExp.distinct
  near := hExp.near
  start := hExp.start
  queued := fun t hT => hExp.queued t (mem_cons_of_mem _ hT)
  ordered := (pairwise_cons.mp hExp.ordered).2
  level := fun hN t hT => hExp.level hN t (mem_cons_of_mem _ hT)
  done := by
    intro n e hN hOut hLt
    refine hExp.done hN (fun hM => ?_) hLt
    rcases mem_cons.mp hM with rfl | hRest
    · obtain rfl := Option.some.inj (hHere.symm.trans hN)
      omega
    · exact hOut hRest

section

variable (hSound : g.Sound) (hFound : found =
  (g.opNeighbours s.toNat).filter (fun m => (distance? dist m.toNat).isNone))

include hSound hFound

theorem mem_found_iff {m : Nat} : m ∈ found.map Slot.toNat ↔
    (m ∈ g.opIds ∧ g.Adjacent s.toNat m) ∧ distance? dist m = none := by
  have hOps : m ∈ (g.opNeighbours s.toNat).map Slot.toNat ↔
      m ∈ g.opIds ∧ g.Adjacent s.toNat m := by
    rw [mem_opNeighbours_iff]
    exact ⟨fun hBoth => ⟨hSound.mem_opIds_of_adjacent hBoth.2 hBoth.1, hBoth.2⟩,
      fun hBoth => ⟨hSound.isOpId_of_mem_opIds hBoth.1, hBoth.2⟩⟩
  rw [← hOps, hFound]
  simp only [mem_map, mem_filter, Option.isNone_iff_eq_none]
  constructor
  · rintro ⟨t, ⟨hT, hNone⟩, rfl⟩
    exact ⟨⟨t, hT, rfl⟩, hNone⟩
  · rintro ⟨⟨t, hT, rfl⟩, hNone⟩
    exact ⟨t, ⟨hT, hNone⟩, rfl⟩

theorem put_iff {m e : Nat} : distance? (dist ++ found.map (·, d + 1)) m = some e ↔
    distance? dist m = some e ∨ m ∈ found.map Slot.toNat ∧ e = d + 1 :=
  distance?_put_iff (fun _ hM => ((mem_found_iff hSound hFound).mp hM).2)

theorem put_found {t : Slot} (hT : t ∈ found) {e : Nat}
    (hE : distance? (dist ++ found.map (·, d + 1)) t.toNat = some e) : e = d + 1 := by
  rcases (put_iff hSound hFound).mp hE with hOld | ⟨-, hNew⟩
  · have hNone := ((mem_found_iff hSound hFound).mp (mem_map_of_mem hT)).2
    exact absurd (hNone.symm.trans hOld) (by simp)
  · exact hNew

theorem distinct_put (hExp : g.Explored slots r (s :: queue) dist) :
    (((dist ++ found.map (·, d + 1)).map Prod.fst).map Slot.toNat).Nodup := by
  rw [map_append, map_append, map_fst_put]
  refine hExp.distinct.append ?_ (fun m hOld hNew => ?_)
  · rw [hFound]
    refine Nodup.sublist (filter_sublist.map _) ?_
    rw [opNeighbours]
    refine Nodup.sublist (filter_sublist.map _) ?_
    rw [neighbourSlots, map_toNat_sortSlots]
    exact (sortIds_pairwise _).imp ne_of_lt
  · have hSome := isSome_distance?_iff.mpr hOld
    rw [((mem_found_iff hSound hFound).mp hNew).2] at hSome
    simp at hSome

variable (hExp : g.Explored slots r (s :: queue) dist) (hHere : distance? dist s.toNat = some d)

include hExp hHere

omit hSound hFound in
theorem queued_behind {t : Slot} (hT : t ∈ queue) :
    ∃ e, distance? dist t.toNat = some e ∧ d ≤ e := by
  rcases hExp.queued t (mem_cons_of_mem _ hT) with ⟨e, hE⟩
  exact ⟨e, hE, (pairwise_cons.mp hExp.ordered).1 t hT hHere hE⟩

theorem put_le {m e : Nat} (hM : distance? (dist ++ found.map (·, d + 1)) m = some e) :
    e ≤ d + 1 := by
  rcases (put_iff hSound hFound).mp hM with hOld | ⟨-, rfl⟩
  · exact hExp.level hOld s mem_cons_self hHere
  · exact le_rfl

theorem le_put {t : Slot} (hT : t ∈ queue ++ found) {e : Nat}
    (hE : distance? (dist ++ found.map (·, d + 1)) t.toNat = some e) : d ≤ e := by
  rcases mem_append.mp hT with hQ | hF
  · rcases hExp.queued_behind hHere hQ with ⟨e', hE', hLe⟩
    obtain rfl := Option.some.inj ((distance?_append hE' _).symm.trans hE)
    exact hLe
  · rw [put_found hSound hFound hF hE]
    exact Nat.le_succ d

theorem ordered_put : (queue ++ found).Pairwise (fun t u => ∀ {e e'},
    distance? (dist ++ found.map (·, d + 1)) t.toNat = some e →
    distance? (dist ++ found.map (·, d + 1)) u.toNat = some e' → e ≤ e') := by
  refine pairwise_append.mpr ⟨?_, ?_, ?_⟩
  · refine (pairwise_cons.mp hExp.ordered).2.imp_of_mem (fun {t u} hT hU hLe => ?_)
    intro e e' hE hE'
    rcases hExp.queued_behind hHere hT with ⟨k, hK, -⟩
    rcases hExp.queued_behind hHere hU with ⟨k', hK', -⟩
    obtain rfl := Option.some.inj ((distance?_append hK _).symm.trans hE)
    obtain rfl := Option.some.inj ((distance?_append hK' _).symm.trans hE')
    exact hLe hK hK'
  · refine pairwise_of_forall_mem_list (fun t _ u hU => ?_)
    intro e e' hE hE'
    rw [put_found hSound hFound hU hE']
    exact hExp.put_le hSound hFound hHere hE
  · intro t _ u hU e e' hE hE'
    rw [put_found hSound hFound hU hE']
    exact hExp.put_le hSound hFound hHere hE

theorem done_put {n e : Nat} (hN : distance? (dist ++ found.map (·, d + 1)) n = some e)
    (hOut : n ∉ (queue ++ found).map Slot.toNat) (hLt : e < r.toNat) {m : Nat} (hOp : m ∈ g.opIds)
    (hAdjacent : g.Adjacent n m) :
    ∃ k ≤ e + 1, distance? (dist ++ found.map (·, d + 1)) m = some k := by
  rw [map_append, mem_append, not_or] at hOut
  have hOld := ((put_iff hSound hFound).mp hN).resolve_right (fun hBoth => hOut.2 hBoth.1)
  by_cases hHead : n = s.toNat
  · subst hHead
    obtain rfl := Option.some.inj (hHere.symm.trans hOld)
    cases hThere : distance? dist m with
    | some k => exact ⟨k, hExp.level hThere s mem_cons_self hHere, distance?_append hThere _⟩
    | none =>
      have hNew := (mem_found_iff hSound hFound).mpr ⟨⟨hOp, hAdjacent⟩, hThere⟩
      exact ⟨_, le_rfl, (put_iff hSound hFound).mpr (.inr ⟨hNew, rfl⟩)⟩
  · have hBehind : n ∉ (s :: queue).map Slot.toNat := by simpa [hHead] using hOut.1
    rcases hExp.done hOld hBehind hLt m hOp hAdjacent with ⟨k, hLe, hK⟩
    exact ⟨k, hLe, distance?_append hK _⟩

theorem step (hFar : ¬ r ≤ d) :
    g.Explored slots r (queue ++ found) (dist ++ found.map (·, d + 1)) where
  distinct := distinct_put hSound hFound hExp
  near := by
    intro n e hN
    rcases (put_iff hSound hFound).mp hN with hOld | ⟨hNew, rfl⟩
    · exact hExp.near hOld
    · rcases ((mem_found_iff hSound hFound).mp hNew).1 with ⟨hOp, hAdjacent⟩
      exact ⟨near_succ_iff.mpr (.inr ⟨_, (hExp.near hHere).1, hOp, hAdjacent⟩), by omega⟩
  start hSlot hOp := distance?_append (hExp.start hSlot hOp) _
  queued t hT := by
    rcases mem_append.mp hT with hQ | hF
    · rcases hExp.queued_behind hHere hQ with ⟨e, hE, -⟩
      exact ⟨e, distance?_append hE _⟩
    · exact ⟨d + 1, (put_iff hSound hFound).mpr (.inr ⟨mem_map_of_mem hF, rfl⟩)⟩
  ordered := hExp.ordered_put hSound hFound hHere
  level hN t hT _ hK := (hExp.put_le hSound hFound hHere hN).trans
    (Nat.succ_le_succ (hExp.le_put hSound hFound hHere hT hK))
  done hN hOut hLt _ hOp hAdjacent :=
    hExp.done_put hSound hFound hHere hN hOut hLt hOp hAdjacent

end

/- Each turn takes one from the queue, and what enters it was not put down before. -/
theorem searchFrom (hSound : g.Sound) {fuel : Nat} (hExp : g.Explored slots r queue dist)
    (hFuel : queue.length + g.ops.length ≤ fuel + dist.length) :
    g.Explored slots r [] (g.searchFrom r fuel queue dist) := by
  induction fuel generalizing queue dist with
  | zero =>
    have hEmpty : queue = [] := by
      have hLe := hExp.length_le hSound
      exact length_eq_zero_iff.mp (by omega)
    exact hEmpty ▸ hExp
  | succ fuel ih =>
    cases queue with
    | nil => exact hExp
    | cons s queue =>
      rcases hExp.queued s mem_cons_self with ⟨d, hHere⟩
      rw [length_cons] at hFuel
      rw [Graph.searchFrom, hHere, Option.getD_some]
      split_ifs with hFar
      · exact ih (hExp.skip hHere hFar) (by omega)
      · refine ih (hExp.step hSound rfl hHere hFar) ?_
        simp only [length_append, length_map]
        omega

theorem mem_iff_near (hExp : g.Explored slots r [] dist) :
    n ∈ (dist.map Prod.fst).map Slot.toNat ↔ g.Near slots r.toNat n := by
  rw [← isSome_distance?_iff, Option.isSome_iff_exists]
  constructor
  · rintro ⟨d, hHere⟩
    exact (hExp.near hHere).1.of_le (hExp.near hHere).2
  · rintro ⟨m, hSlot, k, hLe, hWalks⟩
    -- nothing is left in the queue, so every step of the walk was followed
    suffices hAll : ∃ d ≤ k, distance? dist n = some d from ⟨_, hAll.choose_spec.2⟩
    induction hWalks with
    | here hOp => exact ⟨0, le_rfl, hExp.start hSlot hOp⟩
    | step _ hAdjacent hOp ih =>
      rcases ih (by omega) with ⟨d, hD, hHere⟩
      rcases hExp.done hHere not_mem_nil (by omega) _ hOp hAdjacent with ⟨e, hE, hThere⟩
      exact ⟨e, by omega, hThere⟩

end Explored

theorem Sound.mem_neighbourhood_iff_near (hSound : g.Sound) :
    n ∈ (g.neighbourhood slots r).map Slot.toNat ↔ g.Near slots r.toNat n := by
  let start := slots.filter (fun s => isOpId s.toNat && g.hasNode s.toNat)
  have hStart : ∀ {n}, n ∈ start.map Slot.toNat ↔ n ∈ slots.map Slot.toNat ∧ n ∈ g.opIds := by
    intro n
    simp only [start, mem_map, mem_filter, Bool.and_eq_true]
    constructor
    · rintro ⟨s, ⟨hS, hOp, hNode⟩, rfl⟩
      exact ⟨⟨s, hS, rfl⟩, (hSound.mem_opIds_iff_isOpId (hasNode_iff.mp hNode)).mpr hOp⟩
    · rintro ⟨⟨s, hS, rfl⟩, hOp⟩
      exact ⟨s, ⟨hS, hSound.isOpId_of_mem_opIds hOp, hasNode_iff.mpr (mem_nodeIds_of_op hOp)⟩, rfl⟩
  have hFirsts : ∀ {n}, n ∈ (Slot.firsts [] start).map Slot.toNat ↔ n ∈ start.map Slot.toNat := by
    simp [mem_firsts_iff]
  have hZero : ∀ {n d}, distance? ((Slot.firsts [] start).map (·, 0)) n = some d →
      d = 0 ∧ n ∈ start.map Slot.toNat := by
    intro n d hHere
    have hM : n ∈ (Slot.firsts [] start).map Slot.toNat := by
      simpa using isSome_distance?_iff.mp (Option.isSome_of_mem hHere)
    exact ⟨Option.some.inj (hHere.symm.trans (distance?_map hM)), hFirsts.mp hM⟩
  have hExp : g.Explored slots r start ((Slot.firsts [] start).map (·, 0)) := by
    refine ⟨?_, ?_, ?_, ?_, ?_, ?_, ?_⟩
    · rw [map_fst_put]
      exact nodup_firsts
    · intro n d hHere
      rcases hZero hHere with ⟨rfl, hM⟩
      exact ⟨near_of_mem (hStart.mp hM).2 (hStart.mp hM).1, Nat.zero_le _⟩
    · exact fun hSlot hOp => distance?_map (hFirsts.mpr (hStart.mpr ⟨hSlot, hOp⟩))
    · exact fun s hS => ⟨0, distance?_map (hFirsts.mpr (mem_map_of_mem hS))⟩
    · exact pairwise_of_forall (fun _ _ _ _ hD _ => (hZero hD).1 ▸ Nat.zero_le _)
    · exact fun hD _ _ _ _ => (hZero hD).1 ▸ Nat.zero_le _
    · exact fun hD hOut => absurd (hZero hD).2 hOut
  rw [neighbourhood, map_toNat_sortSlots, mem_sortIds]
  exact (hExp.searchFrom hSound (Nat.le_add_right _ _)).mem_iff_near

end Graph

end CircuitGraph
