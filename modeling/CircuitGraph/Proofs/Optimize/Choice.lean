import CircuitGraph.Proofs.Optimize.Savings

/-
  What a batch is chosen by.

  A batch for a local cost is read off a list in which matches
  that gain more come first.

  Main declarations:
    * `Greedy.Precedes`: the order of choice
    * `selected_batch_maximal`
-/

---- The Order of Choice ----

namespace CircuitGraph

open List

variable {K : Type} [Scalar K]

namespace Greedy

/- Whether the first of two matches is to be chosen before the second, by what they gain. -/
def Precedes (ranks : List Nat) (a b : K × Match) : Prop :=
  ¬ a.1 < b.1 ∧ (¬ b.1 < a.1 → orderKey ranks a.2 ≤ orderKey ranks b.2)

variable [Scalar.Ordered K]

theorem before_iff (ranks : List Nat) (a b : K × Match) :
    before ranks a b = true ↔ Precedes ranks a b := by
  have hNot : b.1 < a.1 → ¬ a.1 < b.1 := fun hLess hMore =>
    Scalar.Ordered.irrefl _ (Scalar.Ordered.trans hLess hMore)
  unfold before Precedes
  split
  · rename_i hLess
    simp [hLess, hNot hLess]
  · rename_i hLess
    split <;> simp_all [idsBefore_iff]

/- Numbers that are positive are in order, so what gains something can be sorted. -/
theorem pairwise_precedes (ranks : List Nat) {entries : List (K × Match)}
    (hPositive : ∀ entry ∈ entries, ((0 : Nat) : K) < entry.1) :
    (entries.mergeSort (before ranks)).Pairwise (Precedes ranks) := by
  have hPlaced : ∀ entry : {entry // entry ∈ entries}, Scalar.Placed entry.1.1 :=
    fun entry => Scalar.Ordered.placed_right (hPositive _ entry.2)
  have hSort : (entries.attach.mergeSort (fun a b => before ranks a.1 b.1)).Pairwise
      (fun a b => before ranks a.1 b.1 = true) := by
    refine pairwise_mergeSort (fun a b c hL hR => ?_) (fun a b => ?_) _
    · rw [before_iff] at hL hR ⊢
      refine ⟨fun hLess => (hPlaced b _ _ hLess).elim hL.1 hR.1, fun hLess => ?_⟩
      refine (hL.2 fun hBack => ?_).trans (hR.2 fun hBack => ?_)
      · exact (hPlaced c _ _ hBack).elim hR.1 hLess
      · exact (hPlaced a _ _ hBack).elim hLess hL.1
    · rw [Bool.or_eq_true, before_iff, before_iff]
      by_cases hLess : a.1.1 < b.1.1
      · exact .inr ⟨fun hMore => Scalar.Ordered.irrefl _ (Scalar.Ordered.trans hLess hMore),
          fun hNot => absurd hLess hNot⟩
      · by_cases hMore : b.1.1 < a.1.1
        · exact .inl ⟨hLess, fun hNot => absurd hMore hNot⟩
        · exact (le_total _ _).imp (fun hLe => ⟨hLess, fun _ => hLe⟩)
            (fun hLe => ⟨hMore, fun _ => hLe⟩)
  have hMap : (entries.attach.mergeSort (fun a b => before ranks a.1 b.1)).map Subtype.val =
      entries.mergeSort (before ranks) := by
    rw [map_mergeSort (s := before ranks) (fun _ _ _ _ => rfl), attach_map_subtype_val]
  rw [← hMap, pairwise_map]
  exact hSort.imp (fun hBef => (before_iff ranks _ _).mp hBef)

omit [Scalar K] [Scalar.Ordered K] in
theorem disjoint_maximal {before : Match → Match → Prop} {ms : List Match}
    (hSort : ms.Pairwise before) (claimed : List Nat) {m : Match} (hM : m ∈ ms) :
    m ∈ disjoint claimed ms ∨ (∃ n ∈ m.ids, n ∈ claimed) ∨
      ∃ c ∈ disjoint claimed ms, before c m ∧ ∃ n ∈ m.ids, n ∈ c.ids := by
  induction ms generalizing claimed with
  | nil => exact nomatch hM
  | cons first ms ih =>
    rcases pairwise_cons.mp hSort with ⟨hFirst, hRest⟩
    rw [disjoint]
    split
    · rename_i hTaken
      rcases mem_cons.mp hM with rfl | hLater
      · exact .inr (.inl (by simpa using hTaken))
      · exact ih hRest claimed hLater
    · rcases mem_cons.mp hM with rfl | hLater
      · exact .inl mem_cons_self
      · rcases ih hRest (claimed ++ first.ids) hLater with
          hChosen | ⟨n, hN, hClaimed⟩ | ⟨c, hChosen, hBef, hShared⟩
        · exact .inl (mem_cons_of_mem _ hChosen)
        · rcases mem_append.mp hClaimed with hOld | hNew
          · exact .inr (.inl ⟨n, hN, hOld⟩)
          · exact .inr (.inr ⟨first, mem_cons_self, hFirst m hLater, n, hN, hNew⟩)
        · exact .inr (.inr ⟨c, mem_cons_of_mem _ hChosen, hBef, hShared⟩)

end Greedy

---- Chosen Batches ----

/- What a match gains: its rule's gain in the cost. -/
def Task.Gains (t : Task K) (m : Match) (gain : K) : Prop :=
  ∃ rule, t.rules.rules[m.rule]? = some rule ∧ t.cost.gain rule = .ok gain

variable [Scalar.Ordered K]

/-
  The batch chosen for a local cost: all of it gains
  something, no two matches in it share an operation, and
  whatever else gains something shares one with a match of the
  batch that comes before it.
-/
theorem selected_batch_maximal
    {t : Task K}
    (hLocal : t.cost.isLocal = true)
    (hGains : ruleGains t.cost t.rules = .ok t.gains)
    (path : List Nat)
    (ms : List Match)
    (r : Run K) :
    ∃ batch, Yields (Greedy.select t path ms) r batch r ∧
      (∀ m ∈ batch, m ∈ ms ∧ ∃ gain, t.Gains m gain ∧ ((0 : Nat) : K) < gain) ∧
      batch.Pairwise Match.Apart ∧
      (∀ m ∈ ms, ∀ gain, t.Gains m gain → ((0 : Nat) : K) < gain → m ∉ batch →
        ∃ c ∈ batch, ∃ gain', t.Gains c gain' ∧
          Greedy.Precedes t.rules.ranks (gain', c) (gain, m) ∧ ∃ n ∈ m.ids, n ∈ c.ids) ∧
      (batch = [] ↔ ∀ m ∈ ms, ∀ gain, t.Gains m gain → ¬ ((0 : Nat) : K) < gain) := by
  rw [ruleGains, if_pos hLocal] at hGains
  have hEach : ∀ m gain, t.gains[m.rule]? = some gain ↔ t.Gains m gain := by
    intro m gain
    constructor
    · intro hGain
      have hLt := (List.getElem?_eq_some_iff.mp hGain).1
      rw [length_of_mapM hGains] at hLt
      rcases getElem?_of_mapM hGains (getElem?_eq_getElem hLt) with ⟨gain', hGain', hOf⟩
      exact ⟨_, getElem?_eq_getElem hLt, eq_of_some hGain hGain' ▸ hOf⟩
    · rintro ⟨rule, hRule, hOf⟩
      rcases getElem?_of_mapM hGains hRule with ⟨gain', hGain, hOf'⟩
      exact eq_of_ok hOf hOf' ▸ hGain
  refine ⟨Greedy.batchOf t.rules.ranks t.gains ms, ?_, fun m hMem => ?_,
    (Greedy.disjoint_apart [] _).1, ?_, ?_⟩
  · unfold Greedy.select
    rw [if_pos hLocal]
    exact yields_pure_iff.mpr ⟨rfl, rfl⟩
  · simpa only [hEach] using Greedy.mem_of_batchOf hMem
  · intro m hMem gain hGain hPos hLeft
    have hSorted : (((Greedy.improving t.gains ms).mergeSort (Greedy.before t.rules.ranks)).map
        Prod.snd).Pairwise (fun c m => ∀ gain, t.Gains m gain → ∃ gain', t.Gains c gain' ∧
          Greedy.Precedes t.rules.ranks (gain', c) (gain, m)) := by
      rw [pairwise_map]
      refine (Greedy.pairwise_precedes t.rules.ranks (fun entry hEntry =>
        (Greedy.mem_improving_iff.mp hEntry).2.2)).imp_of_mem ?_
      intro a b hA hB hPrecedes gain hGain
      have hOf := (Greedy.mem_improving_iff.mp (mem_mergeSort.mp hA)).2.1
      have hOf' := (Greedy.mem_improving_iff.mp (mem_mergeSort.mp hB)).2.1
      obtain rfl := eq_of_some hOf' ((hEach b.2 gain).mpr hGain)
      exact ⟨a.1, (hEach _ _).mp hOf, hPrecedes⟩
    have hListed : m ∈ ((Greedy.improving t.gains ms).mergeSort
        (Greedy.before t.rules.ranks)).map Prod.snd :=
      mem_map.mpr ⟨(gain, m), mem_mergeSort.mpr (Greedy.mem_improving_iff.mpr
        ⟨hMem, (hEach m gain).mpr hGain, hPos⟩), rfl⟩
    rcases Greedy.disjoint_maximal hSorted [] hListed with hChosen | ⟨n, -, hNone⟩ |
      ⟨c, hChosen, hBefore, hShared⟩
    · exact absurd hChosen hLeft
    · exact absurd hNone not_mem_nil
    · rcases hBefore gain hGain with ⟨gain', hGain', hPrecedes⟩
      exact ⟨c, hChosen, gain', hGain', hPrecedes, hShared⟩
  · simpa only [hEach] using Greedy.batchOf_eq_nil_iff t.rules.ranks t.gains ms

/- Two matches that share an operation. -/
def overlap : List Match :=
  [⟨0, .number 2, [.number 2, .number 3], [], []⟩, ⟨0, .number 3, [.number 3, .number 4], [], []⟩]

def overlapTask : Except Fault (Task ℚ × Graph ℚ) := do
  let (_, rs, g) ← inversionTask
  let gains ← ruleGains .gates rs
  return (⟨rs, .gates, gains, .unlimited .gates, fun _ => 0⟩, g)

/- One of the two is chosen, and the other one shares an operation with it and comes after it. -/
theorem selected_batch_maximal_overlap :
    ∃ (t : Task ℚ) (g : Graph ℚ) (batch : List Match),
      overlapTask = .ok (t, g) ∧ batch.length = 1 ∧
      Yields (Greedy.select t [] overlap) (.start g) batch (.start g) ∧
      (∀ m ∈ batch, m ∈ overlap ∧ ∃ gain, t.Gains m gain ∧ ((0 : Nat) : ℚ) < gain) ∧
      ∀ m ∈ overlap, ∀ gain, t.Gains m gain → ((0 : Nat) : ℚ) < gain → m ∉ batch →
        ∃ c ∈ batch, ∃ gain', t.Gains c gain' ∧
          Greedy.Precedes t.rules.ranks (gain', c) (gain, m) ∧ ∃ n ∈ m.ids, n ∈ c.ids := by
  have hCheck : overlapTask.toOption.any (fun task =>
      (Greedy.batchOf task.1.rules.ranks task.1.gains overlap).length == 1) = true := by
    cbv
  rcases exists_of_toOption_any hCheck with ⟨⟨t, g⟩, hTask, hOne⟩
  rcases bind_eq_ok_iff.mp hTask with ⟨⟨rule, rs, g'⟩, hParts, hRest⟩
  rcases bind_eq_ok_iff.mp hRest with ⟨gains, hGains, hRest⟩
  obtain ⟨rfl, rfl⟩ := Prod.mk.inj (Except.ok.inj hRest)
  rcases selected_batch_maximal (t := ⟨rs, .gates, gains, .unlimited .gates, fun _ => 0⟩) rfl hGains
    [] overlap (.start g') with
    ⟨batch, hSelect, hFrom, -, hMaximal, -⟩
  obtain ⟨rfl, -⟩ := hSelect.unique (yields_pure_iff.mpr ⟨rfl, rfl⟩)
  exact ⟨_, g', _, hTask, beq_iff_eq.mp hOne, hSelect, hFrom, hMaximal⟩

end CircuitGraph
