import CircuitGraph.Proofs.Graph.Sound
import Mathlib.Data.Fintype.Card
import Mathlib.Data.Set.Finite.Basic

/-
  Topological order and cycles.

  Settling takes every entry after those that it waits for,
  and an entry that is left over waits for another one that is
  left over.
-/

---- Settling ----

namespace CircuitGraph

open List

def settleRest (n : Nat) (entries : List (Nat × List Nat)) : List (Nat × List Nat) :=
  (entries.filter (fun e => e.1 != n)).map (fun e => (e.1, e.2.erase n))

theorem length_settleRest_lt {n : Nat} {waiting : List Nat} {entries : List (Nat × List Nat)}
    (h : (n, waiting) ∈ entries) : (settleRest n entries).length < entries.length := by
  rw [settleRest, List.length_map]
  exact List.length_filter_lt_length_iff_exists.2 ⟨_, h, by simp⟩

/-
  Each entry is an id with the ids that it waits for.  Takes
  the first entry that waits for nothing, as long as there is
  one.  Gives the ids taken, in order, and those left over.
-/
def settle (entries : List (Nat × List Nat)) : List Nat × List Nat :=
  match _h : entries.find? (fun e => e.2.isEmpty) with
  | none => ([], entries.map Prod.fst)
  | some (n, _) =>
    let (order, stuck) := settle (settleRest n entries)
    (n :: order, stuck)
termination_by entries.length
decreasing_by exact length_settleRest_lt (List.mem_of_find?_eq_some _h)

variable {n : Nat} {entries : List (Nat × List Nat)} {order : List Nat}

def Ordered (waits : Nat → Nat → Prop) (order : List Nat) : Prop :=
  ∀ before n after, order = before ++ n :: after → ∀ p, waits n p → p ∈ before

theorem mem_settleRest_iff {m : Nat} {waiting : List Nat} : (m, waiting) ∈ settleRest n entries ↔
      m ≠ n ∧ ∃ ws, (m, ws) ∈ entries ∧ ws.erase n = waiting := by
  simp only [settleRest, mem_map, mem_filter, bne_iff_ne, Prod.exists, Prod.mk.injEq]
  constructor
  · rintro ⟨k, ws, ⟨hM, hNe⟩, rfl, hEq⟩
    exact ⟨hNe, ws, hM, hEq⟩
  · rintro ⟨hNe, ws, hM, hEq⟩
    exact ⟨m, ws, ⟨hM, hNe⟩, rfl, hEq⟩

theorem settle_of_none (hNone : entries.find? (fun e => e.2.isEmpty) = none) :
    settle entries = ([], entries.map Prod.fst) := by
  unfold settle
  split
  · rfl
  · simp_all

theorem settle_of_find? {waiting : List Nat}
    (hFnd : entries.find? (fun e => e.2.isEmpty) = some (n, waiting)) :
    settle entries =
      (n :: (settle (settleRest n entries)).1, (settle (settleRest n entries)).2) := by
  rw [settle]
  split
  · simp_all
  · rename_i hOther
    obtain ⟨rfl, -⟩ := Prod.mk.inj (Option.some.inj (hOther.symm.trans hFnd))
    rfl

theorem map_fst_settleRest (n : Nat) (entries : List (Nat × List Nat)) :
    (settleRest n entries).map Prod.fst = (entries.map Prod.fst).filter (· != n) := by
  simp [settleRest, filter_map, Function.comp_def]

section

variable (hKeys : (entries.map Prod.fst).Nodup)

include hKeys

theorem settleRest_keys_nodup : ((settleRest n entries).map Prod.fst).Nodup := by
  rw [map_fst_settleRest]
  exact hKeys.filter _

theorem settle_perm : ((settle entries).1 ++ (settle entries).2).Perm (entries.map Prod.fst) := by
  fun_induction settle entries with
  | case1 => simp
  | case2 entries n waiting hFnd order stuck hRest ih =>
    have hPerm := ih (settleRest_keys_nodup hKeys)
    rw [hRest, map_fst_settleRest, ← hKeys.erase_eq_filter] at hPerm
    have hM : n ∈ entries.map Prod.fst :=
      mem_map_of_mem (mem_of_find?_eq_some hFnd)
    exact (hPerm.cons n).trans (perm_cons_erase hM).symm

omit hKeys in
theorem settle_stuck_sublist (entries : List (Nat × List Nat)) :
    (settle entries).2.Sublist (entries.map Prod.fst) := by
  fun_induction settle entries with
  | case1 => exact Sublist.refl _
  | case2 entries n waiting hFnd order stuck hRest ih =>
    rw [hRest, map_fst_settleRest] at ih
    exact ih.trans filter_sublist

theorem settle_ordered :
    Ordered (fun n p => ∃ ws, (n, ws) ∈ entries ∧ p ∈ ws) (settle entries).1 := by
  fun_induction settle entries with
  | case1 =>
    intro before n after hOrder
    simp at hOrder
  | case2 entries n waiting hFnd order stuck hRest ih =>
    have hIh := ih (settleRest_keys_nodup hKeys)
    have hTaken := settle_perm (settleRest_keys_nodup (n := n) hKeys)
    rw [hRest] at hIh hTaken
    rintro before m after hOrder p ⟨ws, hEntry, hWaits⟩
    cases before with
    | nil =>
      -- The entry taken first waits for nothing.
      obtain ⟨rfl, -⟩ := List.cons.inj hOrder
      have hSame : (n, ws) = (n, waiting) :=
        eq_of_key_eq hKeys hEntry (mem_of_find?_eq_some hFnd) rfl
      have hEmpty : waiting = [] := by simpa using find?_some hFnd
      simp_all
    | cons k before =>
      obtain ⟨rfl, hTail⟩ := List.cons.inj hOrder
      have hKey : m ∈ (settleRest n entries).map Prod.fst := by
        refine hTaken.subset (mem_append_left _ ?_)
        simp [hTail]
      have hNe : m ≠ n := by
        rw [map_fst_settleRest] at hKey
        simpa using (mem_filter.mp hKey).2
      rcases eq_or_ne p n with rfl | hOther
      · exact mem_cons_self
      · refine mem_cons_of_mem _ (hIh before m after hTail p ⟨ws.erase n, ?_, ?_⟩)
        · exact mem_settleRest_iff.mpr ⟨hNe, ws, hEntry, rfl⟩
        · exact (mem_erase_of_ne hOther).mpr hWaits

theorem settle_stuck (hWaiting : ∀ e ∈ entries, e.2.Nodup) (hStuck : n ∈ (settle entries).2) :
    ∃ ws, (n, ws) ∈ entries ∧ ∃ p ∈ ws, p ∉ (settle entries).1 := by
  fun_induction settle entries with
  | case1 entries hNone =>
    rcases mem_map.mp hStuck with ⟨⟨m, ws⟩, hEntry, rfl⟩
    have hSome : ws ≠ [] := by
      intro hNil
      have := find?_eq_none.mp hNone _ hEntry
      simp [hNil] at this
    rcases exists_mem_of_ne_nil ws hSome with ⟨p, hM⟩
    exact ⟨ws, hEntry, p, hM, by simp⟩
  | case2 entries k waiting hFnd order stuck hRest ih =>
    have hRestWaiting : ∀ e ∈ settleRest k entries, e.2.Nodup := by
      rintro ⟨m, ws⟩ hEntry
      rcases mem_settleRest_iff.mp hEntry with ⟨-, vs, hM, rfl⟩
      exact (hWaiting _ hM).erase k
    rw [hRest] at ih
    rcases ih (settleRest_keys_nodup hKeys) hRestWaiting hStuck with ⟨ws, hEntry, p, hWaits, hNew⟩
    rcases mem_settleRest_iff.mp hEntry with ⟨-, vs, hM, rfl⟩
    have hNe : p ≠ k := by
      rintro rfl
      exact (hWaiting _ hM).not_mem_erase hWaits
    exact ⟨vs, hM, p, mem_of_mem_erase hWaits, by simp [hNe, hNew]⟩

end

theorem not_ready_of_lt (hAsc : (entries.map Prod.fst).Pairwise (· < ·)) {m : Nat}
    {waiting ws : List Nat} (hFnd : entries.find? (fun e => e.2.isEmpty) = some (n, waiting))
    (hEntry : (m, ws) ∈ entries) (hLt : m < n) : ws ≠ [] := by
  rcases find?_eq_some_iff_append.mp hFnd with ⟨-, before, after, rfl, hBef⟩
  rw [map_append, map_cons, pairwise_append, pairwise_cons] at hAsc
  rintro rfl
  rcases mem_append.mp hEntry with hL | hR
  · simpa using hBef _ hL
  · rcases mem_cons.mp hR with hSame | hAfter
    · exact absurd (congrArg Prod.fst hSame) (Nat.ne_of_lt hLt)
    · exact Nat.lt_asymm hLt (hAsc.2.1.1 m (mem_map_of_mem hAfter))

/-
  Entries that wait for smaller ones only are taken in
  ascending order, even if others come in between.
-/
theorem settle_ascending {keep : Nat → Bool} (hAsc : (entries.map Prod.fst).Pairwise (· < ·))
    (hSmaller : ∀ n ws, (n, ws) ∈ entries → keep n = true → ∀ p ∈ ws,
      p < n ∧ keep p = true ∧ p ∈ entries.map Prod.fst)
    (hWaiting : ∀ e ∈ entries, e.2.Nodup) : ((settle entries).1.filter keep).Pairwise (· < ·) := by
  fun_induction settle entries with
  | case1 => exact List.Pairwise.nil
  | case2 entries k waiting hFnd order stuck hRest ih =>
    have hKeys : (entries.map Prod.fst).Nodup := hAsc.imp (fun hLt => Nat.ne_of_lt hLt)
    have hTaken := settle_perm (settleRest_keys_nodup (n := k) hKeys)
    rw [hRest, map_fst_settleRest] at hTaken
    rw [hRest] at ih
    -- A smaller one that is ready would have been found.
    have hFirst : ∀ m, keep m = true → m ∈ entries.map Prod.fst → ¬ m < k := by
      intro m
      induction m using Nat.strong_induction_on with
      | _ m ihm =>
        intro hKeep hKey hLt
        rcases mem_map.mp hKey with ⟨⟨_, ws⟩, hEntry, rfl⟩
        have hSome := not_ready_of_lt hAsc hFnd hEntry hLt
        rcases exists_mem_of_ne_nil ws hSome with ⟨p, hM⟩
        rcases hSmaller _ ws hEntry hKeep p hM with ⟨hLess, hKept, hKnown⟩
        exact ihm p hLess hKept hKnown (Nat.lt_trans hLess hLt)
    have hLater : (order.filter keep).Pairwise (· < ·) := by
      refine ih ?_ ?_ ?_
      · rw [map_fst_settleRest]
        exact hAsc.filter _
      · intro n ws hEntry hKeep p hM
        rcases mem_settleRest_iff.mp hEntry with ⟨-, vs, hOld, rfl⟩
        rcases hSmaller n vs hOld hKeep p (mem_of_mem_erase hM) with ⟨hLt, hKept, hKnown⟩
        refine ⟨hLt, hKept, ?_⟩
        rw [map_fst_settleRest, mem_filter]
        refine ⟨hKnown, ?_⟩
        have hNe : p ≠ k := by
          rintro rfl
          exact (hWaiting _ hOld).not_mem_erase hM
        simpa using hNe
      · rintro ⟨m, ws⟩ hEntry
        rcases mem_settleRest_iff.mp hEntry with ⟨-, vs, hM, rfl⟩
        exact (hWaiting _ hM).erase k
    change ((k :: order).filter keep).Pairwise (· < ·)
    by_cases hKeep : keep k = true
    · rw [filter_cons_of_pos hKeep, pairwise_cons]
      refine ⟨fun m hM => ?_, hLater⟩
      rcases mem_filter.mp hM with ⟨hOrder, hKept⟩
      have hKey := mem_filter.mp (hTaken.subset (mem_append_left _ hOrder))
      have hNe : m ≠ k := by simpa using hKey.2
      exact lt_of_le_of_ne (Nat.not_lt.mp (hFirst m hKept hKey.1)) (Ne.symm hNe)
    · rw [filter_cons_of_neg hKeep]
      exact hLater

---- Counting Down ----

/- The ids that each id waits for, and those that wait for it. -/
structure Linked (ids : List Nat) (before next : Nat → List Nat) : Prop where
  ascending : ids.Pairwise (· < ·)
  waiting : ∀ n, (before n).Nodup
  distinct : ∀ n, (next n).Nodup
  linked : ∀ {m n}, n ∈ ids → (m ∈ next n ↔ m ∈ ids ∧ n ∈ before m)

variable {ids taken : List Nat} {before next : Nat → List Nat}

def ahead (before : Nat → List Nat) (taken : List Nat) (n : Nat) : List Nat :=
  (before n).filter (fun p => !taken.contains p)

def isReady (before : Nat → List Nat) (taken : List Nat) (n : Nat) : Bool :=
  !taken.contains n && (ahead before taken n).isEmpty

def waits (ids : List Nat) (before : Nat → List Nat) (taken : List Nat) : List (Nat × List Nat) :=
  (ids.filter (fun n => !taken.contains n)).map (fun n => (n, ahead before taken n))

theorem ahead_cons {m : Nat} (hWaiting : (before m).Nodup) :
    ahead before (n :: taken) m = (ahead before taken m).erase n := by
  rw [ahead, ahead, (hWaiting.filter _).erase_eq_filter, filter_filter]
  refine filter_congr (fun p _ => ?_)
  by_cases hEq : p = n <;> simp [hEq]

theorem insertId_filter (hAsc : ids.Pairwise (· < ·)) (hM : n ∈ ids) (keep : Nat → Bool) :
    insertId n (ids.filter keep) = ids.filter (fun m => keep m || m == n) := by
  refine (insertId_pairwise (hAsc.filter _)).eq_of_mem_iff (hAsc.filter _) (fun m => ?_)
  simp only [mem_insertId, mem_filter, Bool.or_eq_true, beq_iff_eq]
  constructor
  · rintro (rfl | ⟨hThere, hKeep⟩)
    · exact ⟨hM, .inr rfl⟩
    · exact ⟨hThere, .inl hKeep⟩
  · rintro ⟨hThere, hKeep | rfl⟩
    · exact .inr ⟨hThere, hKeep⟩
    · exact .inl rfl

/- Ids that are counted down once each are ready if they waited for one. -/
theorem foldl_countDown (hAsc : ids.Pairwise (· < ·)) {ns : List Nat} (hNodup : ns.Nodup)
    (hSub : ns ⊆ ids) (count : Nat → Int) (keep : Nat → Bool) :
    ns.foldl countDown (ids.map (fun m => (m, count m)), ids.filter keep) =
      (ids.map (fun m => (m, if m ∈ ns then count m - 1 else count m)),
        ids.filter (fun m => keep m || (ns.contains m && count m == 1))) := by
  induction ns generalizing count keep with
  | nil => simp
  | cons n ns ih =>
    rw [nodup_cons] at hNodup
    rcases cons_subset.mp hSub with ⟨hM, hRest⟩
    have hCounts : (ids.map (fun m => (m, count m))).map
        (fun e => if e.1 = n then (n, e.2 - 1) else e) =
        ids.map (fun m => (m, if m = n then count m - 1 else count m)) := by
      rw [map_map]
      refine map_congr_left (fun m _ => ?_)
      by_cases hEq : m = n <;> simp [hEq]
    have hZero : (ids.map (fun m => (m, if m = n then count m - 1 else count m))).contains (n, 0) =
        (count n == 1) := by
      rw [Bool.eq_iff_iff, contains_iff_mem, mem_map, beq_iff_eq]
      constructor
      · rintro ⟨m, -, hEq⟩
        obtain ⟨rfl, hLess⟩ := Prod.mk.inj hEq
        rw [if_pos rfl] at hLess
        omega
      · exact fun hOne => ⟨n, hM, by simp [hOne]⟩
    have hStep : countDown (ids.map (fun m => (m, count m)), ids.filter keep) n =
        (ids.map (fun m => (m, if m = n then count m - 1 else count m)),
          ids.filter (fun m => keep m || (m == n && count n == 1))) := by
      rw [countDown, hCounts, hZero]
      cases count n == 1 with
      | true => simp [insertId_filter hAsc hM keep]
      | false => simp
    rw [foldl_cons, hStep, ih hNodup.2 hRest]
    congr 1
    · refine map_congr_left (fun m _ => ?_)
      by_cases hEq : m = n
      · simp [hEq, hNodup.1]
      · simp [hEq]
    · refine filter_congr (fun m _ => ?_)
      by_cases hEq : m = n
      · simp [hEq, hNodup.1]
      · simp [hEq, beq_false_of_ne hEq]

theorem find?_waits (ids : List Nat) (before : Nat → List Nat) (taken : List Nat) :
    (waits ids before taken).find? (fun e => e.2.isEmpty) =
      (ids.filter (isReady before taken)).head?.map (fun n => (n, ahead before taken n)) := by
  rw [waits, find?_map, head?_filter, find?_filter]
  congr 2
  funext n
  rw [isReady, Bool.decide_and, Bool.decide_eq_true, Bool.decide_eq_true]
  rfl

/- If nothing is ready, then what is left waits for something. -/
theorem settle_waits_of_stuck (hClosed : ∀ m ∈ taken, before m ⊆ taken)
    (hNone : ids.filter (isReady before taken) = []) : settle (waits ids before taken) =
      ([], ((ids.map (fun m => (m, ((ahead before taken m).length : Int)))).filter
        (fun e => 0 < e.2)).map Prod.fst) := by
  rw [settle_of_none (by rw [find?_waits, hNone]; rfl), waits, filter_map, map_map, map_map]
  refine congrArg (([] : List Nat), ·) (congrArg (map _) (filter_congr (fun m hM => ?_)))
  have hNot := filter_eq_nil_iff.mp hNone m hM
  rw [Bool.eq_iff_iff]
  by_cases hTaken : m ∈ taken
  · have hEmpty : ahead before taken m = [] :=
      filter_eq_nil_iff.mpr (fun p hP => by simpa using hClosed m hTaken hP)
    simp [hTaken, hEmpty]
  · simpa [isReady, hTaken, length_pos_iff] using hNot

namespace Linked

variable (hLinked : Linked ids before next)

include hLinked

/- Once the first of the ready ids is taken, those next to it wait for one less. -/
theorem foldl_countDown_next (hClosed : ∀ m ∈ taken, before m ⊆ taken) {ready : List Nat}
    (hReady : ids.filter (isReady before taken) = n :: ready) :
    (next n).foldl countDown
        (ids.map (fun m => (m, ((ahead before taken m).length : Int))), ready) =
      (ids.map (fun m => (m, ((ahead before (n :: taken) m).length : Int))),
        ids.filter (isReady before (n :: taken))) := by
  have hNodup : ids.Nodup := hLinked.ascending.imp Nat.ne_of_lt
  rcases mem_filter.mp (hReady ▸ mem_cons_self : n ∈ ids.filter _) with ⟨hHere, hFree⟩
  simp only [isReady, Bool.and_eq_true, Bool.not_eq_true', contains_eq_mem, decide_eq_false_iff_not,
    List.isEmpty_iff] at hFree
  have hRest : ready = ids.filter (fun m => isReady before taken m && m != n) := by
    have hErase := (hNodup.filter (isReady before taken)).erase_eq_filter n
    rw [hReady, erase_cons_head, ← hReady, filter_filter] at hErase
    rw [hErase]
    exact filter_congr (fun m _ => Bool.and_comm _ _)
  have hAhead : ∀ m, ahead before (n :: taken) m = (ahead before taken m).erase n :=
    fun m => ahead_cons (hLinked.waiting m)
  have hNext : ∀ m ∈ ids, (m ∈ next n ↔ n ∈ ahead before taken m) := by
    intro m hM
    rw [hLinked.linked hHere, ahead, mem_filter]
    simp [hM, hFree.1]
  rw [hRest, foldl_countDown hLinked.ascending (hLinked.distinct n)
    (fun m hM => ((hLinked.linked hHere).mp hM).1)]
  congr 1
  · refine map_congr_left (fun m hM => ?_)
    rw [hAhead]
    split_ifs with hIs
    · have hThere := (hNext m hM).mp hIs
      have hPos := length_pos_of_mem hThere
      rw [length_erase_of_mem hThere]
      congr 1
      omega
    · rw [erase_of_not_mem (fun hThere => hIs ((hNext m hM).mpr hThere))]
  · refine filter_congr (fun m hM => ?_)
    rw [Bool.eq_iff_iff]
    by_cases hIs : m ∈ next n
    · have hThere := (hNext m hM).mp hIs
      have hNot : m ∉ n :: taken := by
        intro hBad
        rcases mem_cons.mp hBad with rfl | hTaken
        · simp [hFree.2] at hThere
        · exact hFree.1 (hClosed m hTaken (mem_filter.mp hThere).1)
      have hOne : ((ahead before taken m).length : Int) = 1 ↔
          (ahead before taken m).erase n = [] := by
        rw [← length_eq_zero_iff, length_erase_of_mem hThere]
        have hPos := length_pos_of_mem hThere
        omega
      have hSome : ahead before taken m ≠ [] := ne_nil_of_mem hThere
      simp [isReady, hAhead, hIs, hNot, hOne, hSome]
    · have hAway : n ∉ ahead before taken m := fun hThere => hIs ((hNext m hM).mpr hThere)
      simp only [isReady, hAhead, hIs, erase_of_not_mem hAway, contains_eq_mem, decide_false,
        Bool.false_and, Bool.or_false, mem_cons, Bool.and_eq_true, Bool.not_eq_true',
        decide_eq_false_iff_not, bne_iff_ne, ne_eq, not_or]
      tauto

theorem settleRest_waits : settleRest n (waits ids before taken) = waits ids before (n :: taken) := by
  rw [settleRest, waits, waits, filter_map, map_map, filter_filter]
  have hSame : ∀ m, m ∈ ids → (((fun e : Nat × List Nat => e.1 != n) ∘ fun m =>
      (m, ahead before taken m)) m && !taken.contains m) = !(n :: taken).contains m := by
    intro m _
    by_cases hEq : m = n <;> simp [hEq]
  rw [filter_congr hSame]
  exact map_congr_left (fun m _ => by rw [ahead_cons (hLinked.waiting m)]; rfl)

theorem takeReady_eq_settle (turns : Nat) (taken : List Nat)
    (hClosed : ∀ m ∈ taken, before m ⊆ taken)
    (hTurns : (waits ids before taken).length ≤ turns) :
    (takeReady next turns (ids.map (fun m => (m, ((ahead before taken m).length : Int))))
        (ids.filter (isReady before taken))).map id
        (fun left => (left.filter (fun e => 0 < e.2)).map Prod.fst) =
      settle (waits ids before taken) := by
  induction turns generalizing taken with
  | zero =>
    have hNone := length_eq_zero_iff.mp (Nat.le_zero.mp hTurns)
    have hReady : (ids.filter (isReady before taken)).head? = none := by
      simpa [hNone] using (find?_waits ids before taken).symm
    rw [settle_waits_of_stuck hClosed (head?_eq_none_iff.mp hReady)]
    rfl
  | succ turns ih =>
    cases hReady : ids.filter (isReady before taken) with
    | nil =>
      rw [settle_waits_of_stuck hClosed hReady]
      rfl
    | cons n ready =>
      have hFnd := find?_waits ids before taken
      rw [hReady, head?_cons, Option.map_some] at hFnd
      have hEmpty : ahead before taken n = [] := by simpa using find?_some hFnd
      have hLater := ih (n :: taken) ?_ ?_
      · rw [takeReady, hLinked.foldl_countDown_next hClosed hReady, settle_of_find? hFnd,
          hLinked.settleRest_waits, ← hLater]
        rfl
      · intro m hM p hP
        rcases mem_cons.mp hM with rfl | hTaken
        · exact mem_cons_of_mem _ (by simpa using filter_eq_nil_iff.mp hEmpty p hP)
        · exact mem_cons_of_mem _ (hClosed m hTaken hP)
      · have hLess := length_settleRest_lt (mem_of_find?_eq_some hFnd)
        rw [hLinked.settleRest_waits] at hLess
        omega

/- Counting down settles each id with those that it waits for. -/
theorem orderNodes_eq_settle :
    orderNodes ids before next = settle (ids.map (fun n => (n, before n))) := by
  have hStart : waits ids before [] = ids.map (fun n => (n, before n)) := by
    simp [waits, ahead]
  have hSettle := hLinked.takeReady_eq_settle ids.length []
    (fun m hM => absurd hM not_mem_nil) (by rw [hStart, length_map])
  have hCounts : ids.map (fun m => (m, ((ahead before [] m).length : Int))) =
      ids.map (fun m => (m, ((before m).length : Int))) := by
    simp [ahead]
  have hReady : sortIds (((ids.map (fun m => (m, ((before m).length : Int)))).filter
      (fun e => e.2 == 0)).map Prod.fst) = ids.filter (isReady before []) := by
    rw [filter_map, map_map]
    change sortIds (map id _) = _
    rw [map_id, sortIds_of_pairwise (hLinked.ascending.filter _)]
    refine filter_congr (fun m _ => ?_)
    rw [Bool.eq_iff_iff]
    simp [isReady, ahead]
  have hAsc : (settle (waits ids before [])).2.Pairwise (· < ·) := by
    refine List.Pairwise.sublist (settle_stuck_sublist _) ?_
    rw [hStart, map_map]
    exact (map_id ids).symm ▸ hLinked.ascending
  rw [hCounts] at hSettle
  rw [← hSettle] at hAsc
  rw [← hStart, ← hSettle, orderNodes, hReady]
  exact congrArg (Prod.mk _) (sortIds_of_pairwise hAsc)

theorem length_orderNodes_iff :
    (orderNodes ids before next).1.length = ids.length ↔ (orderNodes ids before next).2 = [] := by
  have hKeys : (ids.map (fun n => (n, before n))).map Prod.fst = ids := by
    simp [Function.comp_def]
  have hPerm := settle_perm (hKeys.symm ▸ hLinked.ascending.imp Nat.ne_of_lt)
  rw [← hLinked.orderNodes_eq_settle, hKeys] at hPerm
  have hLength := hPerm.length_eq
  rw [length_append] at hLength
  rw [← length_eq_zero_iff]
  omega

end Linked

---- Lists in Order ----

theorem Ordered.idxOf_lt {waits : Nat → Nat → Prop} (hOrd : Ordered waits order) {p : Nat}
    (hM : n ∈ order) (hWaits : waits n p) : order.idxOf p < order.idxOf n := by
  rcases append_of_mem hM with ⟨before, after, hOrder⟩
  by_cases hEarlier : n ∈ before
  · -- Split at the first place of `n` instead.
    rcases eq_append_cons_of_mem hM with ⟨first, rest, hOrder, hFirst⟩
    have hMemP := hOrd first n rest hOrder p hWaits
    rw [hOrder, idxOf_append_of_mem hMemP, idxOf_append_of_notMem hFirst]
    have := idxOf_lt_length_of_mem hMemP
    omega
  · have hMemP := hOrd before n after hOrder p hWaits
    rw [hOrder, idxOf_append_of_mem hMemP, idxOf_append_of_notMem hEarlier]
    have := idxOf_lt_length_of_mem hMemP
    omega

theorem exists_cycle_of_no_first {r : Nat → Nat → Prop} {ns : List Nat} (hSome : ns ≠ [])
    (hEarlier : ∀ n ∈ ns, ∃ p ∈ ns, r p n) : ∃ n, Relation.TransGen r n n := by
  by_contra hNone
  push Not at hNone
  let below (a b : {n // n ∈ ns}) : Prop := Relation.TransGen r a.1 b.1
  have : IsTrans _ below := ⟨fun _ _ _ hL hR => hL.trans hR⟩
  have : Std.Irrefl below := ⟨fun a => hNone a.1⟩
  have : Finite {n // n ∈ ns} := List.finite_toSet ns
  have hWf : WellFounded below := Finite.wellFounded_of_trans_of_irrefl below
  rcases exists_mem_of_ne_nil ns hSome with ⟨n, hM⟩
  have hEmpty : ∀ a : {n // n ∈ ns}, False := by
    intro a
    induction a using hWf.induction with
    | _ a ih =>
      rcases hEarlier a.1 a.2 with ⟨p, hM, hStep⟩
      exact ih ⟨p, hM⟩ (Relation.TransGen.single hStep)
  exact hEmpty ⟨n, hM⟩

---- Topological Order ----

namespace Graph

namespace Sound

variable {K : Type} {g : Graph K}

theorem mem_entries_iff {ws : List Nat} : (n, ws) ∈ g.nodeIds.map (fun n => (n, g.predecessors n)) ↔
      n ∈ g.nodeIds ∧ ws = g.predecessors n := by
  simp only [mem_map, Prod.mk.injEq]
  constructor
  · rintro ⟨m, hM, rfl, rfl⟩
    exact ⟨hM, rfl⟩
  · rintro ⟨hM, rfl⟩
    exact ⟨n, hM, rfl, rfl⟩

theorem entries_nodup (hS : g.Sound) :
    ((g.nodeIds.map (fun n => (n, g.predecessors n))).map Prod.fst).Nodup := by
  simpa [Function.comp_def] using hS.nodeIds_nodup

theorem nodeIds_pairwise (hS : g.Sound) : g.nodeIds.Pairwise (· < ·) := by
  have hOps : ∀ n ∈ g.opIds, outputId < n := fun n hM => by
    simpa [isOpId] using hS.isOpId_of_mem_opIds hM
  refine pairwise_cons.mpr ⟨?_, pairwise_cons.mpr ⟨hOps, sortIds_pairwise _⟩⟩
  intro n hM
  rcases mem_cons.mp hM with rfl | hOp
  · decide
  · exact Nat.lt_trans (by decide) (hOps n hOp)

theorem linked (hS : g.Sound) : Linked g.nodeIds g.predecessors g.successors where
  ascending := hS.nodeIds_pairwise
  waiting := predecessors_nodup g
  distinct := fun _ => sortIds_nodup _
  linked := by
    intro m n _
    rw [mem_successors_iff, mem_predecessors_iff]
    exact ⟨fun hEdge => ⟨(hS.edge_mem hEdge).2, hEdge⟩, And.right⟩

theorem topologicalOrder_ok_iff (hS : g.Sound) : g.topologicalOrder = .ok order ↔
    settle (g.nodeIds.map (fun n => (n, g.predecessors n))) = (order, []) := by
  have hDone := hS.linked.length_orderNodes_iff
  rw [← hS.linked.orderNodes_eq_settle, topologicalOrder]
  cases hAll : orderNodes g.nodeIds g.predecessors g.successors with
  | mk taken stuck =>
    rw [hAll] at hDone
    simp only [hDone, Prod.mk.injEq]
    split_ifs with hEmpty
    · simp [hEmpty]
    · simp [hEmpty]

theorem topologicalOrder_ok (hS : g.Sound) (hOrder : g.topologicalOrder = .ok order) :
    order.Perm g.nodeIds ∧ Ordered (fun n p => g.Edge p n) order := by
  have hPerm := settle_perm hS.entries_nodup
  have hOrd := settle_ordered hS.entries_nodup
  rw [hS.topologicalOrder_ok_iff.mp hOrder] at hPerm hOrd
  refine ⟨by simpa [Function.comp_def] using hPerm, ?_⟩
  intro before n after hSplit p hEdge
  refine hOrd before n after hSplit p ⟨g.predecessors n, ?_, mem_predecessors_iff.mpr hEdge⟩
  exact mem_entries_iff.mpr ⟨(hS.edge_mem hEdge).2, rfl⟩

theorem exists_topologicalOrder (hS : g.Sound) (hAcy : g.Acyclic) :
    ∃ order, g.topologicalOrder = .ok order := by
  have hPerm := settle_perm hS.entries_nodup
  have hWaiting : ∀ e ∈ g.nodeIds.map (fun n => (n, g.predecessors n)), e.2.Nodup := by
    intro e hEntry
    rw [(mem_entries_iff.mp hEntry).2]
    exact predecessors_nodup g _
  simp only [hS.topologicalOrder_ok_iff]
  cases hSet : settle (g.nodeIds.map (fun n => (n, g.predecessors n))) with
  | mk taken stuck =>
    have hStuck := fun n => settle_stuck (n := n) hS.entries_nodup hWaiting
    rw [hSet] at hPerm hStuck
    -- Whatever is left over waits for something that is left over too.
    have hEarlier : ∀ n ∈ stuck, ∃ p ∈ stuck, g.Edge p n := by
      intro n hM
      rcases hStuck n hM with ⟨ws, hEntry, p, hWaits, hNew⟩
      rw [(mem_entries_iff.mp hEntry).2, mem_predecessors_iff] at hWaits
      have hN : p ∈ taken ++ stuck := by
        refine hPerm.symm.subset ?_
        simpa [Function.comp_def] using (hS.edge_mem hWaits).1
      rcases mem_append.mp hN with hTaken | hL
      · exact absurd hTaken hNew
      · exact ⟨p, hL, hWaits⟩
    refine ⟨taken, congrArg _ (by_contra fun hSome => ?_)⟩
    rcases exists_cycle_of_no_first hSome hEarlier with ⟨n, hCycle⟩
    exact hAcy n hCycle

theorem edge_lt_of_topologicalOrder (hS : g.Sound) (hOrder : g.topologicalOrder = .ok order)
    {u v : Nat} (hEdge : g.Edge u v) : order.idxOf u < order.idxOf v := by
  rcases hS.topologicalOrder_ok hOrder with ⟨hPerm, hOrd⟩
  exact hOrd.idxOf_lt (hPerm.symm.subset (hS.edge_mem hEdge).2) hEdge

theorem acyclic_of_rank (rank : Nat → Nat) (hRank : ∀ u v, g.Edge u v → rank u < rank v) :
    g.Acyclic := by
  intro n hCycle
  have hAscends : ∀ {u v}, Relation.TransGen g.Edge u v → rank u < rank v := by
    intro u v hPath
    induction hPath with
    | single hEdge => exact hRank _ _ hEdge
    | tail _ hEdge ih => exact Nat.lt_trans ih (hRank _ _ hEdge)
  exact Nat.lt_irrefl _ (hAscends hCycle)

theorem acyclic_of_topologicalOrder (hS : g.Sound) (hOrder : g.topologicalOrder = .ok order) :
    g.Acyclic :=
  acyclic_of_rank _ (fun _ _ hEdge => hS.edge_lt_of_topologicalOrder hOrder hEdge)

theorem wellFounded_edge (hS : g.Sound) (hAcy : g.Acyclic) : WellFounded g.Edge := by
  rcases hS.exists_topologicalOrder hAcy with ⟨order, hOrder⟩
  refine Subrelation.wf ?_ (measure order.idxOf).wf
  intro u v hEdge
  exact hS.edge_lt_of_topologicalOrder hOrder hEdge

theorem operationOrder_ok (hS : g.Sound) (hOrder : g.operationOrder = .ok order) :
    order.Perm g.opIds ∧ Ordered (fun n p => g.Edge p n ∧ p ∈ g.opIds) order := by
  unfold operationOrder at hOrder
  cases hTop : g.topologicalOrder with
  | error fault => simp [hTop, bind, Except.bind] at hOrder
  | ok all =>
    obtain rfl : all.filter isOpId = order := by
      simpa [hTop, bind, Except.bind, pure, Except.pure] using hOrder
    rcases hS.topologicalOrder_ok hTop with ⟨hPerm, hOrd⟩
    constructor
    · refine (hPerm.filter isOpId).trans (List.Perm.of_eq ?_)
      rw [nodeIds, filter_cons_of_neg (by decide), filter_cons_of_neg (by decide)]
      exact filter_eq_self.mpr (fun n hM => hS.isOpId_of_mem_opIds hM)
    · rintro before n after hSplit p ⟨hEdge, hOp⟩
      rcases filter_eq_append_iff.mp hSplit with ⟨left, right, rfl, rfl, hR⟩
      rcases filter_eq_cons_iff.mp hR with ⟨gap, rest, rfl, hGap, -, rfl⟩
      have hM := hOrd (left ++ gap) n rest (by simp) p hEdge
      have hIsOp := hS.isOpId_of_mem_opIds hOp
      rcases mem_append.mp hM with hL | hMid
      · exact mem_filter.mpr ⟨hL, hIsOp⟩
      · exact absurd hIsOp (hGap p hMid)

theorem exists_operationOrder (hS : g.Sound) (hAcy : g.Acyclic) :
    ∃ order, g.operationOrder = .ok order := by
  rcases hS.exists_topologicalOrder hAcy with ⟨order, hOrder⟩
  exact ⟨order.filter isOpId, by simp [operationOrder, hOrder, bind, Except.bind, pure, Except.pure]⟩

---- Ascending Wires ----

section

variable (hS : g.Sound)

include hS

theorem src_ne_outputId {u v : Nat} (hEdge : g.Edge u v) : u ≠ outputId := by
  rcases hEdge with ⟨w, hM, rfl, -⟩
  rcases hS.typed w hM with ⟨t, hType, -⟩
  intro hN
  rw [outType?, Pin.place, hN, signatureOf_outputId] at hType
  simp at hType

theorem lt_nextId (hM : n ∈ g.nodeIds) : n < g.nextId := by
  rcases mem_nodeIds_iff.mp hM with rfl | rfl | hOp
  · exact Nat.lt_trans (by decide) hS.started
  · exact hS.started
  · rcases mem_opIds_iff.mp hOp with ⟨node, hN, rfl⟩
    exact hS.issued node hN

theorem acyclic_of_ascending
    (hAsc : ∀ w ∈ g.wires, w.src.node < w.dst.node ∨ w.dst.node = outputId) : g.Acyclic := by
  refine acyclic_of_rank (fun n => if n = outputId then g.nextId else n) ?_
  intro u v hEdge
  have hSrc := hS.src_ne_outputId hEdge
  have hN := (hS.edge_mem hEdge).1
  rcases hEdge with ⟨w, hM, rfl, rfl⟩
  rw [if_neg hSrc]
  split
  · exact hS.lt_nextId hN
  · exact (hAsc w hM).resolve_right ‹_›

theorem length_opIds : g.opIds.length = g.ops.length := by
  have hPerm : g.opIds.Perm (g.ops.map Node.id) :=
    (perm_ext_iff_of_nodup (sortIds_nodup _) hS.unique).mpr (fun n => mem_sortIds)
  rw [hPerm.length_eq, length_map]

theorem operationOrder_of_ascending
    (hAsc : ∀ w ∈ g.wires, w.src.node < w.dst.node ∨ w.dst.node = outputId) :
    g.operationOrder = .ok g.opIds := by
  have hAcy := hS.acyclic_of_ascending hAsc
  rcases hS.exists_topologicalOrder hAcy with ⟨order, hOrder⟩
  have hKept : (order.filter (· != outputId)).Pairwise (· < ·) := by
    rw [show order = (settle _).1 from congrArg Prod.fst (hS.topologicalOrder_ok_iff.mp hOrder).symm]
    refine settle_ascending ?_ ?_ ?_
    · rw [map_map]
      exact (map_id _).symm ▸ hS.nodeIds_pairwise
    · intro n ws hEntry hKeep p hM
      rw [(mem_entries_iff.mp hEntry).2, mem_predecessors_iff] at hM
      have hSrc := hS.src_ne_outputId hM
      have hN := (hS.edge_mem hM).1
      rcases hM with ⟨w, hWire, rfl, rfl⟩
      refine ⟨(hAsc w hWire).resolve_right (by simpa using hKeep), by simpa using hSrc, ?_⟩
      simpa [Function.comp_def] using hN
    · intro e hEntry
      rw [(mem_entries_iff.mp hEntry).2]
      exact predecessors_nodup g _
  have hOps : g.operationOrder = .ok (order.filter isOpId) := by
    simp [operationOrder, hOrder, bind, Except.bind, pure, Except.pure]
  rw [hOps]
  congr 1
  have hFilter : order.filter isOpId = (order.filter (· != outputId)).filter isOpId := by
    rw [filter_filter]
    refine filter_congr (fun n _ => ?_)
    by_cases hOut : n = outputId
    · rw [hOut]
      rfl
    · simp [hOut]
  refine List.Perm.eq_of_pairwise ?_ ?_ (sortIds_pairwise _) (hS.operationOrder_ok hOps).1
  · exact fun a b _ _ hLt hGt => absurd hGt (Nat.lt_asymm hLt)
  · rw [hFilter]
    exact hKept.filter _

end

end Sound

end Graph

end CircuitGraph
