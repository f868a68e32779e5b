import CircuitGraph.Sorting.Heap
import Mathlib.Data.List.Perm.Basic

/-
  Nothing is lost when lists are put in order.

  Whatever test elements are compared by, the outcome of
  putting a list in order has the elements of the list, and
  the operations of heaps only exchange elements.
-/

---- Runs ----

namespace CircuitGraph

open List

namespace Sorting

variable {α : Type} (before : α → α → Bool)

theorem stretch_append (related : α → α → Bool) (x : α) (xs : List α) :
    (stretch related x xs).1 ++ (stretch related x xs).2 = x :: xs := by
  induction xs generalizing x with
  | nil => rfl
  | cons y ys ih =>
    rw [stretch]
    split
    · exact congrArg (x :: ·) (ih y)
    · rfl

theorem stretch_ne_nil (related : α → α → Bool) (x : α) (xs : List α) :
    (stretch related x xs).1 ≠ [] := by
  cases xs with
  | nil => simp [stretch]
  | cons y ys =>
    rw [stretch]
    split <;> simp

theorem firstRun_perm (xs : List α) :
    ((firstRun before xs).1 ++ (firstRun before xs).2).Perm xs := by
  match xs with
  | [] => simp [firstRun]
  | [x] => simp [firstRun]
  | x :: y :: others =>
    rw [firstRun]
    split
    · rw [← stretch_append (fun a b => before b a) x (y :: others)]
      exact (reverse_perm _).append_right _
    · rw [stretch_append]

theorem firstRun_ne_nil {xs : List α} (hSome : xs ≠ []) : (firstRun before xs).1 ≠ [] := by
  match xs with
  | [x] => simp [firstRun]
  | x :: y :: others =>
    rw [firstRun]
    split
    · simpa using stretch_ne_nil (fun a b => before b a) x (y :: others)
    · exact stretch_ne_nil _ x (y :: others)

theorem insert_perm (run : List α) (x : α) : (insert before run x).Perm (x :: run) := by
  unfold insert
  refine perm_middle.trans ?_
  rw [take_append_drop]

theorem foldl_insert_perm (run xs : List α) : (xs.foldl (insert before) run).Perm (run ++ xs) := by
  induction xs generalizing run with
  | nil => simp
  | cons x xs ih =>
    rw [foldl_cons]
    refine (ih _).trans (((insert_perm before run x).append_right xs).trans ?_)
    exact perm_middle.symm

end Sorting

---- Merges ----

namespace Merging

variable {α : Type}

def content (m : Merging α) : List α :=
  m.done ++ (m.first ++ m.second)

def Keeps {β : Type} (content : β → List α) (xs : List α) (r : Result α β) : Prop :=
  (∀ b, r = .ok b → (content b).Perm xs) ∧ ∀ ys n, r = .error (ys, n) → ys.Perm xs

section

variable {β γ : Type} {c : β → List α} {d : γ → List α} {xs : List α}

theorem keeps_ok {b : β} (hPerm : (c b).Perm xs) : Keeps c xs (.ok b) :=
  ⟨fun _ hEq => Except.ok.inj hEq ▸ hPerm, fun _ _ hEq => (nomatch hEq)⟩

theorem keeps_error {ys : List α × Nat} (hPerm : ys.1.Perm xs) : Keeps c xs (.error ys) :=
  ⟨fun _ hEq => (nomatch hEq), fun ys n hEq => by rwa [Except.error.inj hEq] at hPerm⟩

theorem Keeps.bind {r : Result α β} {f : β → Result α γ} (hFirst : Keeps c xs r)
    (hThen : ∀ b, (c b).Perm xs → Keeps d xs (f b)) : Keeps d xs (r >>= f) := by
  cases r with
  | ok b => exact hThen b (hFirst.1 b rfl)
  | error ys => exact keeps_error (hFirst.2 ys.1 ys.2 rfl)

end

variable {xs : List α} {m : Merging α}

section

variable (hCtn : m.content.Perm xs)

include hCtn

theorem finish_perm : m.finish.1.Perm xs :=
  ((reverse_perm _).append_right _).trans hCtn

theorem finishCrossed_perm : m.finishCrossed.1.Perm xs :=
  ((reverse_perm _).append perm_append_comm).trans hCtn

theorem keeps_takeFirst (count : Nat) : Keeps content xs (m.takeFirst count) := by
  have hTaken : (content { m with
      done := (m.first.take count).reverse ++ m.done
      first := m.first.drop count }).Perm xs := by
    refine List.Perm.trans ?_ hCtn
    change (((m.first.take count).reverse ++ m.done) ++ (m.first.drop count ++ m.second)).Perm
      (m.done ++ (m.first ++ m.second))
    refine (((reverse_perm _).append_right _).trans perm_append_comm).append_right _ |>.trans ?_
    rw [append_assoc, ← append_assoc (m.first.take count), take_append_drop]
  unfold takeFirst
  dsimp only
  split
  · exact keeps_error (finish_perm hTaken)
  · exact keeps_error (finishCrossed_perm hTaken)
  · exact keeps_ok hTaken

theorem keeps_takeSecond (count : Nat) : Keeps content xs (m.takeSecond count) := by
  have hTaken : (content { m with
      done := (m.second.take count).reverse ++ m.done
      second := m.second.drop count }).Perm xs := by
    refine List.Perm.trans ?_ hCtn
    change (((m.second.take count).reverse ++ m.done) ++ (m.first ++ m.second.drop count)).Perm
      (m.done ++ (m.first ++ m.second))
    refine (((reverse_perm _).append_right _).trans perm_append_comm).append_right _ |>.trans ?_
    rw [append_assoc]
    refine List.Perm.append_left _ ?_
    rw [← append_assoc]
    refine (perm_append_comm.append_right _).trans ?_
    rw [append_assoc, take_append_drop]
  unfold takeSecond
  dsimp only
  split
  · exact keeps_error (finish_perm hTaken)
  · exact keeps_ok hTaken

end

variable (before : α → α → Bool)

theorem keeps_alternate (fuel firstWins secondWins : Nat) (hCtn : m.content.Perm xs) :
    Keeps content xs (alternate before fuel firstWins secondWins m) := by
  induction fuel generalizing firstWins secondWins m with
  | zero => exact keeps_error (finish_perm hCtn)
  | succ fuel ih =>
    unfold alternate
    split
    · split
      · refine (keeps_takeSecond hCtn 1).bind (fun m hCtn => ?_)
        split
        · exact keeps_ok hCtn
        · exact ih _ _ hCtn
      · refine (keeps_takeFirst hCtn 1).bind (fun m hCtn => ?_)
        split
        · exact keeps_ok hCtn
        · exact ih _ _ hCtn
    · exact keeps_error (finish_perm hCtn)

theorem keeps_leapFirst (behind : Bool) (hCtn : m.content.Perm xs) :
    Keeps (fun out => content out.1) xs (m.leapFirst before behind) :=
  (keeps_takeFirst hCtn _).bind (fun _ hCtn =>
    (keeps_takeSecond hCtn 1).bind (fun _ hCtn => keeps_ok hCtn))

theorem keeps_leapSecond (behind : Bool) (hCtn : m.content.Perm xs) :
    Keeps (fun out => content out.1) xs (m.leapSecond before behind) :=
  (keeps_takeSecond hCtn _).bind (fun _ hCtn =>
    (keeps_takeFirst hCtn 1).bind (fun _ hCtn => keeps_ok hCtn))

theorem keeps_leap (behind : Bool) (fuel : Nat)
    (hCtn : m.content.Perm xs) : Keeps content xs (leap before behind fuel m) := by
  induction fuel generalizing m with
  | zero => exact keeps_error (finish_perm hCtn)
  | succ fuel ih =>
    unfold leap
    have hLess : (content { m with patience := max 1 (m.patience - 1) }).Perm xs := hCtn
    cases behind with
    | true =>
      simp only [reduceIte]
      refine (keeps_leapSecond before true hLess).bind (fun early hEarly => ?_)
      refine (keeps_leapFirst before true hEarly).bind (fun late hLate => ?_)
      split
      · exact ih hLate
      · exact keeps_ok hLate
    | false =>
      simp only [Bool.false_eq_true, reduceIte]
      refine (keeps_leapFirst before false hLess).bind (fun early hEarly => ?_)
      refine (keeps_leapSecond before false hEarly).bind (fun late hLate => ?_)
      split
      · exact ih hLate
      · exact keeps_ok hLate

theorem keeps_loop (behind : Bool) (size fuel : Nat)
    (hCtn : m.content.Perm xs) : Keeps content xs (loop before behind size fuel m) := by
  induction fuel generalizing m with
  | zero => exact keeps_error (finish_perm hCtn)
  | succ fuel ih =>
    refine (keeps_alternate before size 0 0 hCtn).bind (fun m hCtn => ?_)
    refine Keeps.bind (c := content) (keeps_leap before behind size ?_) (fun m hCtn => ih hCtn)
    exact hCtn

theorem run_perm (behind : Bool) (patience : Nat) (first second : List α) :
    (run before behind patience first second).1.Perm (first ++ second) := by
  have hKeeps : Keeps content (first ++ second) (do
      let m ← takeSecond ⟨[], first, second, patience⟩ 1
      let m ← m.takeFirst 0
      loop before behind (first.length + second.length) (first.length + second.length) m) :=
    (keeps_takeSecond (.refl _) 1).bind (fun _ hCtn =>
      (keeps_takeFirst hCtn 0).bind (fun _ hCtn => keeps_loop before behind _ _ hCtn))
  unfold run
  dsimp only
  split
  · exact finish_perm (hKeeps.1 _ ‹_›)
  · exact hKeeps.2 _ _ ‹_›

end Merging

namespace Sorting

variable {α : Type} (before : α → α → Bool)

theorem mergeInto_perm (patience : Nat) (xs ys : List α) :
    (mergeInto before patience xs ys).1.Perm (xs ++ ys) := by
  unfold mergeInto
  split
  · exact Merging.run_perm before false patience xs ys
  · refine (reverse_perm _).trans ((Merging.run_perm _ true patience _ _).trans ?_)
    exact ((reverse_perm ys).append (reverse_perm xs)).trans perm_append_comm

theorem merge_perm (patience : Nat) (xs ys : List α) :
    (merge before patience xs ys).1.Perm (xs ++ ys) := by
  unfold merge
  dsimp only
  split
  · exact .refl _
  · split
    · exact .refl _
    · refine ((mergeInto_perm before patience _ _).append_left _).append_right _ |>.trans ?_
      rw [← append_assoc, take_append_drop, append_assoc, take_append_drop]

end Sorting

---- Waiting Runs ----

namespace Pile

variable {α : Type} (before : α → α → Bool)

def content (waiting : List (Pending α)) : List α :=
  waiting.flatMap Pending.run

theorem join_perm (patience : Nat) (left right : Pending α) :
    (join before patience left right).1.run.Perm (left.run ++ right.run) :=
  Sorting.merge_perm before patience left.run right.run

theorem collapse_perm (depth patience : Nat) (top : Pending α) (waiting : List (Pending α)) :
    (content (collapse before depth patience top waiting).waiting).Perm
      (content (top :: waiting)) := by
  induction waiting generalizing patience top with
  | nil => exact .refl _
  | cons next others ih =>
    rw [collapse]
    split
    · refine (ih _ _).trans ?_
      change ((join before patience next top).1.run ++ content others).Perm
        (top.run ++ (next.run ++ content others))
      rw [← append_assoc]
      exact ((join_perm before patience next top).trans perm_append_comm).append_right _
    · exact .refl _

theorem collapseAll_perm (fuel : Nat) (p : Pile α) :
    (collapseAll before fuel p).Perm (content p.waiting) := by
  induction fuel generalizing p with
  | zero => exact .refl _
  | succ fuel ih =>
    unfold collapseAll
    split
    · rename_i hNone
      simp [hNone, content]
    · rename_i only hOne
      simp [hOne, content]
    · rename_i top next third others hMany
      rw [hMany]
      split
      · refine (ih _).trans (List.Perm.append_left _ ?_)
        change ((join before p.patience third next).1.run ++ content others).Perm
          (next.run ++ (third.run ++ content others))
        rw [← append_assoc]
        exact ((join_perm before _ third next).trans perm_append_comm).append_right _
      · refine (ih _).trans ?_
        change ((join before p.patience next top).1.run ++ content (third :: others)).Perm
          (top.run ++ (next.run ++ content (third :: others)))
        rw [← append_assoc]
        exact ((join_perm before _ next top).trans perm_append_comm).append_right _
    · rename_i top next hTwo
      simp only [hTwo, content, flatMap_cons, flatMap_nil, append_nil]
      exact (join_perm before p.patience next top).trans perm_append_comm

end Pile

namespace Sorting

variable {α : Type} (before : α → α → Bool)

theorem push_perm (size start : Nat) (run : List α) (p : Pile α) :
    (Pile.content (push before size start run p).waiting).Perm (run ++ Pile.content p.waiting) := by
  unfold push
  split
  · rename_i hNone
    simp [hNone, Pile.content]
  · rename_i top others hSome
    rw [hSome]
    have hCollapse := Pile.collapse_perm before (boundaryDepth size top run.length) p.patience top others
    dsimp only
    split
    · rename_i hEmpty
      rw [hEmpty] at hCollapse
      exact hCollapse.append_left run
    · rename_i latest rest hLatest
      rw [hLatest] at hCollapse
      exact hCollapse.append_left run

theorem cut_perm (size least fuel : Nat) (xs : List α) (p : Pile α) (hFuel : xs.length ≤ fuel) :
    (Pile.content (cut before size least fuel xs p).waiting).Perm (xs ++ Pile.content p.waiting) := by
  induction fuel generalizing xs p with
  | zero =>
    obtain rfl := eq_nil_of_length_eq_zero (Nat.le_zero.mp hFuel)
    exact .refl _
  | succ fuel ih =>
    rcases hFnd : firstRun before xs with ⟨found, rest⟩
    have hRun : (found ++ rest).Perm xs := by
      simpa only [hFnd] using firstRun_perm before xs
    rw [cut, hFnd]
    split
    · rename_i hEmpty
      rw [List.isEmpty_iff.mp hEmpty]
      exact .refl _
    · rename_i hSome
      have hFirst : found ≠ [] := by
        have hNonempty := firstRun_ne_nil before (fun hNil => hSome (List.isEmpty_iff.mpr hNil))
        rwa [hFnd] at hNonempty
      have hPos := length_pos_iff.mpr hFirst
      have hLen := hRun.length_eq
      rw [length_append] at hLen
      refine (ih _ _ ?_).trans ?_
      · rw [length_drop]
        omega
      · refine ((push_perm before size _ _ p).append_left _).trans ?_
        rw [← append_assoc]
        refine List.Perm.append_right _ (List.Perm.trans ?_ hRun)
        refine ((foldl_insert_perm before _ _).append_left _).trans ?_
        refine perm_append_comm.trans ?_
        rw [append_assoc, take_append_drop]

theorem arrange_perm (xs : List α) : (arrange before xs).Perm xs := by
  refine (Pile.collapseAll_perm before _ _).trans ((cut_perm before _ _ _ xs _ (Nat.le_refl _)).trans ?_)
  simp [Pile.content]

end Sorting

---- Heaps ----

namespace Heap

variable {α : Type} (before : α → α → Bool)

theorem swapIfInBounds_perm (h : Array α) (i j : Nat) : (h.swapIfInBounds i j).Perm h := by
  unfold Array.swapIfInBounds
  split
  · split
    · exact Array.swap_perm _ _
    · exact .refl h
  · exact .refl h

theorem rise_perm (start fuel place : Nat) (h : Array α) :
    (rise before start fuel place h).Perm h := by
  induction fuel generalizing place h with
  | zero => exact .refl h
  | succ fuel ih =>
    unfold rise
    split
    · dsimp only
      split
      · split
        · exact (ih _ _).trans (swapIfInBounds_perm h _ _)
        · exact .refl h
      · exact .refl h
    · exact .refl h

theorem sink_perm (start fuel place : Nat) (h : Array α) :
    (sink before start fuel place h).Perm h := by
  induction fuel generalizing place h with
  | zero => exact .refl h
  | succ fuel ih =>
    unfold sink
    split
    · exact (ih _ _).trans (swapIfInBounds_perm h _ _)
    · exact rise_perm before start _ place h

theorem mem_push_iff (h : Array α) (x y : α) : y ∈ push before h x ↔ y ∈ h ∨ y = x := by
  rw [push, (rise_perm before 0 _ _ _).mem_iff, Array.mem_push]

theorem mem_replaceTop {h : Array α} {x y : α} (hM : y ∈ replaceTop before h x) :
    y ∈ h ∨ y = x := by
  rw [replaceTop, (sink_perm before 0 _ _ _).mem_iff] at hM
  exact (Array.mem_or_eq_of_mem_setIfInBounds hM)

theorem pop?_eq_none {h : Array α} (hPop : pop? before h = none) : h = #[] := by
  unfold pop? at hPop
  split at hPop
  · rename_i hNone
    exact Array.back?_eq_none_iff.mp hNone
  · dsimp only at hPop
    split at hPop <;> simp at hPop

theorem pop?_perm {h rest : Array α} {x : α} (hPop : pop? before h = some (x, rest)) :
    (x :: rest.toList).Perm h.toList := by
  unfold pop? at hPop
  split at hPop
  · simp at hPop
  · rename_i last hLast
    have hSplit : h.toList = h.pop.toList ++ [last] := by
      rw [Array.toList_pop]
      exact (dropLast_append_getLast? last (by simpa using hLast)).symm
    rw [hSplit]
    dsimp only at hPop
    split at hPop
    · obtain ⟨rfl, rfl⟩ := Prod.mk.inj (Option.some.inj hPop)
      exact (perm_append_singleton _ _).symm
    · rename_i top hTop
      obtain ⟨rfl, rfl⟩ := Prod.mk.inj (Option.some.inj hPop)
      -- the last element goes to the place of the first one, and sinks from there
      have hSunk : (replaceTop before h.pop last).toList.Perm (h.pop.toList.set 0 last) := by
        rw [← Array.toList_setIfInBounds]
        exact (sink_perm before 0 _ _ _).toList
      refine (hSunk.cons top).trans ?_
      rw [← Array.getElem?_toList] at hTop
      cases hList : h.pop.toList with
      | nil => simp only [hList, getElem?_nil, reduceCtorEq] at hTop
      | cons y ys =>
        obtain rfl : y = top := by
          simpa only [hList, getElem?_cons_zero, Option.some.injEq] using hTop
        exact (perm_append_singleton last ys).symm.cons y

theorem mem_of_pop? {h rest : Array α} {x : α} (hPop : pop? before h = some (x, rest)) :
    x ∈ h ∧ ∀ y ∈ rest, y ∈ h := by
  have hAll := (pop?_perm before hPop).subset
  refine ⟨Array.mem_toList_iff.mp (hAll mem_cons_self), fun y hM => ?_⟩
  exact Array.mem_toList_iff.mp (hAll (mem_cons_of_mem _ (Array.mem_toList_iff.mpr hM)))

theorem ofArray_perm (xs : Array α) : (ofArray before xs).Perm xs := by
  unfold ofArray
  generalize (List.range (xs.size / 2)).reverse = places
  have hFold : ∀ h : Array α,
      (places.foldl (fun h n => sink before n (h.size + 1) n h) h).Perm h := by
    induction places with
    | nil => exact fun h => .refl h
    | cons n places ih => exact fun h => (ih _).trans (sink_perm before n _ n h)
  exact hFold xs

theorem mem_of_first {xs : List α} {x : α} (hM : x ∈ first before xs) : x ∈ xs := by
  cases xs with
  | nil => simp [first] at hM
  | cons y ys =>
    rw [first, mem_singleton] at hM
    subst hM
    induction ys generalizing y with
    | nil => simp
    | cons z zs ih =>
      rw [foldl_cons]
      rcases mem_cons.mp (ih (if before z y then z else y)) with hEq | hLater
      · rw [hEq]
        split <;> simp
      · exact mem_cons_of_mem _ (mem_cons_of_mem _ hLater)

theorem mem_of_smallest {count : Nat} {xs : List α} {x : α} (hM : x ∈ smallest before count xs) :
    x ∈ xs := by
  unfold smallest at hM
  split at hM
  · exact mem_of_first before hM
  · rw [(Sorting.arrange_perm _ _).mem_iff, Array.mem_toList_iff] at hM
    have hFold : ∀ (ys : List α) (h : Array α), x ∈ ys.foldl (fun h x =>
          if h[0]?.any (before x) then replaceTop (fun a b => before b a) h x else h) h →
        x ∈ h ∨ x ∈ ys := by
      intro ys
      induction ys with
      | nil => exact fun h hIn => .inl hIn
      | cons y ys ih =>
        intro h hIn
        rcases ih _ hIn with hHeap | hLater
        · dsimp only at hHeap
          split at hHeap
          · rcases mem_replaceTop _ hHeap with hOld | rfl
            · exact .inl hOld
            · exact .inr mem_cons_self
          · exact .inl hHeap
        · exact .inr (mem_cons_of_mem _ hLater)
    rcases hFold _ _ hM with hKept | hDropped
    · rw [(ofArray_perm _ _).mem_iff, mem_toArray] at hKept
      exact mem_of_mem_take hKept
    · exact mem_of_mem_drop hDropped

end Heap

end CircuitGraph
