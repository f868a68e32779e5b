import CircuitGraph.Proofs.Circuits
import CircuitGraph.Proofs.Match.Priority

/-
  What a trie represents.

  Inserting a list of constraints adds one entry, at the end
  of a way that spells the list.  Every branch leads to an
  entry, so the ways through a trie are the beginnings of the
  lists that were inserted.

  Main declarations:
    * `entries` and `states` of a trie
    * `trie_exact`
-/

---- States ----

namespace CircuitGraph

open List

/- Whether two constraints are taken for one: an undefined parameter may differ from itself. -/
def Constraint.Alike (c d : Constraint) : Prop :=
  c = d ∨ c.same d = true

namespace Trie

mutual

/- The states of a trie: the way to each of them, and the rules that it accepts. -/
def states : Trie → List (List Constraint × List Nat)
  | state rules branches => ([], rules) :: statesAll branches

def statesAll : List (Constraint × Trie) → List (List Constraint × List Nat)
  | [] => []
  | (c, t) :: rest => t.states.map (fun s => (c :: s.1, s.2)) ++ statesAll rest

end

variable {rank : Nat → Nat} {t : Trie} {rules : List Nat} {branches : List (Constraint × Trie)}

theorem states_state : (state rules branches).states =
      ([], rules) :: branches.flatMap (fun b => b.2.states.map (fun s => (b.1 :: s.1, s.2))) := by
  rw [states]
  congr 1
  induction branches with
  | nil => rfl
  | cons b branches ih => rw [statesAll, flatMap_cons, ih]

/- The rules accepted, each with the way to its state. -/
def entries (t : Trie) : List (List Constraint × Nat) :=
  t.states.flatMap (fun s => s.2.map (s.1, ·))

theorem entries_state : (state rules branches).entries = rules.map ([], ·) ++
      branches.flatMap (fun b => b.2.entries.map (fun e => (b.1 :: e.1, e.2))) := by
  simp [entries, states_state, flatMap_assoc, map_flatMap, flatMap_map, Function.comp_def]

/- The ways through a trie include all beginnings of the ways to its entries. -/
theorem exists_state {w : List Constraint} {e : List Constraint × Nat} (hEntry : e ∈ t.entries)
    (hPre : w <+: e.1) : ∃ s ∈ t.states, s.1 = w := by
  induction w generalizing t e with
  | nil =>
    cases t
    exact ⟨_, states_state ▸ mem_cons_self, rfl⟩
  | cons c w ih =>
    cases t with
    | state rules branches =>
      rw [entries_state, mem_append, mem_map, mem_flatMap] at hEntry
      rcases hEntry with ⟨_, -, rfl⟩ | ⟨b, hBranch, hBelow⟩
      · simp at hPre
      · rcases mem_map.mp hBelow with ⟨e, hEntry, rfl⟩
        rcases cons_prefix_cons.mp hPre with ⟨rfl, hRest⟩
        rcases ih hEntry hRest with ⟨s, hState, rfl⟩
        refine ⟨(b.1 :: s.1, s.2), ?_, rfl⟩
        rw [states_state]
        exact mem_cons_of_mem _ (mem_flatMap.mpr ⟨b, hBranch, mem_map_of_mem hState⟩)

---- Insertions ----

theorem alterBranch_cases (c : Constraint) (change : Trie → Trie)
    (branches : List (Constraint × Trie)) :
    (∃ left d t right, branches = left ++ (d, t) :: right ∧ c.same d = true ∧
      alterBranch c change branches = left ++ (d, change t) :: right) ∨
    (∀ b ∈ branches, c.same b.1 = false) ∧
      alterBranch c change branches = branches ++ [(c, change empty)] := by
  induction branches with
  | nil => exact .inr ⟨by simp, rfl⟩
  | cons branch rest ih =>
    obtain ⟨d, t⟩ := branch
    unfold alterBranch
    split
    · rename_i hSame
      exact .inl ⟨[], d, t, rest, rfl, hSame, rfl⟩
    · rename_i hOther
      rcases ih with ⟨left, d', t', right, rfl, hSame, hAlter⟩ | ⟨hNew, hAlter⟩
      · exact .inl ⟨(d, t) :: left, d', t', right, rfl, hSame, by rw [hAlter, cons_append]⟩
      · exact .inr ⟨forall_mem_cons.mpr ⟨by simpa using hOther, hNew⟩, by rw [hAlter, cons_append]⟩

/- The rule is accepted at the end of a way that spells its constraints. -/
theorem entries_insert (rank : Nat → Nat) (rule : Nat) (cs : List Constraint) (t : Trie) :
    ∃ way, Forall₂ Constraint.Alike cs way ∧
      (t.insert rank rule cs).entries.Perm ((way, rule) :: t.entries) := by
  induction cs generalizing t with
  | nil =>
    cases t with
    | state rules branches =>
      refine ⟨[], .nil, ?_⟩
      rw [insert, entries_state, entries_state]
      exact ((insertRule_perm rank rule rules).map _).append_right _
  | cons c cs ih =>
    cases t with
    | state rules branches =>
      rw [insert]
      rcases alterBranch_cases c (insert rank rule cs) branches with
        ⟨left, d, t, right, rfl, hSame, hAlter⟩ | ⟨-, hAlter⟩
      · rcases ih t with ⟨way, hWay, hEntries⟩
        refine ⟨d :: way, .cons (.inr hSame) hWay, ?_⟩
        simp only [hAlter, entries_state, flatMap_append, flatMap_cons, ← append_assoc]
        exact (((hEntries.map _).append_left _).trans perm_middle).append_right _
      · rcases ih empty with ⟨way, hWay, hEntries⟩
        refine ⟨c :: way, .cons (.inl rfl) hWay, ?_⟩
        simp only [hAlter, entries_state, flatMap_append, flatMap_singleton, ← append_assoc]
        exact ((hEntries.map _).append_left _).trans (perm_append_singleton _ _)

/- An insertion makes the states that are missing on its way, and no other. -/
theorem length_states_insert (rank : Nat → Nat) (rule : Nat) (cs : List Constraint) (t : Trie) :
    (t.insert rank rule cs).states.length = t.states.length + t.missing cs := by
  induction cs generalizing t with
  | nil =>
    cases t with
    | state rules branches => simp [insert, states_state, missing]
  | cons c cs ih =>
    cases t with
    | state rules branches =>
      simp only [insert, states_state, missing, length_cons, length_flatMap, length_map]
      induction branches with
      | nil =>
        have hEmpty : empty.states.length = 1 := rfl
        simp only [alterBranch, map_cons, map_nil, sum_cons, sum_nil, ih empty, find?_nil, hEmpty]
        omega
      | cons branch rest ihRest =>
        obtain ⟨d, t⟩ := branch
        unfold alterBranch
        by_cases hSame : c.same d = true
        · simp only [hSame, if_true, find?_cons_of_pos, map_cons, sum_cons, ih t]
          omega
        · simp only [hSame, find?_cons_of_neg, map_cons, sum_cons, Bool.false_eq_true, if_false,
            not_false_eq_true]
          omega

---- The Order of States ----

/- Branches differ and lead to entries, and each state accepts its rules by rank. -/
inductive Orderly (rank : Nat → Nat) : Trie → Prop
  | state {rules : List Nat} {branches : List (Constraint × Trie)}
      (sorted : rules.Pairwise (fun i j => rank i ≤ rank j))
      (apart : branches.Pairwise (fun b b' => b'.1.same b.1 = false))
      (used : ∀ b ∈ branches, b.2.entries ≠ [])
      (children : ∀ b ∈ branches, Orderly rank b.2) : Orderly rank (state rules branches)

theorem insertRule_sorted (rule : Nat) (hSort : rules.Pairwise (fun i j => rank i ≤ rank j)) :
    (insertRule rank rule rules).Pairwise (fun i j => rank i ≤ rank j) := by
  induction rules with
  | nil => simp [insertRule]
  | cons r rules ih =>
    rcases pairwise_cons.mp hSort with ⟨hFirst, hRest⟩
    unfold insertRule
    split
    · rename_i hLess
      exact .cons (forall_mem_cons.mpr ⟨hLess.le, fun j hM => hLess.le.trans (hFirst j hM)⟩) hSort
    · rename_i hNot
      refine .cons (fun j hM => ?_) (ih hRest)
      rcases mem_cons.mp ((insertRule_perm rank rule rules).subset hM) with rfl | hOld
      · exact Nat.le_of_not_lt hNot
      · exact hFirst j hOld

theorem Orderly.insert (rule : Nat) (cs : List Constraint) (hOrderly : Orderly rank t) :
    Orderly rank (t.insert rank rule cs) := by
  induction cs generalizing t with
  | nil =>
    rcases hOrderly with ⟨hSort, hApart, hUsed, hChildren⟩
    exact .state (insertRule_sorted rule hSort) hApart hUsed hChildren
  | cons c cs ih =>
    rcases hOrderly with @⟨rules, branches, hSort, hApart, hUsed, hChildren⟩
    have hSome : ∀ t, (Trie.insert rank rule cs t).entries ≠ [] := by
      intro t hNone
      rcases entries_insert rank rule cs t with ⟨way, -, hEntries⟩
      rw [hNone] at hEntries
      exact absurd hEntries.nil_eq (cons_ne_nil _ _).symm
    rw [Trie.insert]
    rcases alterBranch_cases c (Trie.insert rank rule cs) branches with
      ⟨left, d, t, right, rfl, -, hAlter⟩ | ⟨hNew, hAlter⟩
    · rw [hAlter]
      rw [forall_mem_append, forall_mem_cons] at hUsed hChildren
      refine .state hSort (by simpa [pairwise_append] using hApart) ?_ ?_
      · rw [forall_mem_append, forall_mem_cons]
        exact ⟨hUsed.1, hSome t, hUsed.2.2⟩
      · rw [forall_mem_append, forall_mem_cons]
        exact ⟨hChildren.1, ih hChildren.2.1, hChildren.2.2⟩
    · rw [hAlter]
      refine .state hSort ?_ ?_ ?_
      · rw [pairwise_append]
        exact ⟨hApart, pairwise_singleton _ _, fun b hB b' hLast => mem_singleton.mp hLast ▸ hNew b hB⟩
      · rw [forall_mem_append, forall_mem_singleton]
        exact ⟨hUsed, hSome empty⟩
      · rw [forall_mem_append, forall_mem_singleton]
        exact ⟨hChildren, ih (.state .nil .nil (by simp) (by simp))⟩

theorem Orderly.spec (hOrderly : Orderly rank t) :
      t.states.Pairwise (fun s s' => ¬ Forall₂ (fun c d => c.same d = true) s'.1 s.1) ∧
      ∀ s ∈ t.states, s.2.Pairwise (fun i j => rank i ≤ rank j) ∧
        (s.1 = [] ∨ ∃ e ∈ t.entries, s.1 <+: e.1) := by
  induction hOrderly with
  | @state rules branches hSort hApart hUsed hChildren ih =>
    rw [states_state]
    refine ⟨pairwise_cons.mpr ⟨?_, ?_⟩, forall_mem_cons.mpr ⟨⟨hSort, .inl rfl⟩, ?_⟩⟩
    · intro s hM hSpd
      rcases mem_flatMap.mp hM with ⟨b, -, hM⟩
      rcases mem_map.mp hM with ⟨s, -, rfl⟩
      cases hSpd
    · rw [flatMap, pairwise_flatten, pairwise_map, forall_mem_map]
      refine ⟨fun b hBranch => ?_, hApart.imp (fun {b b'} hDiffer s hL s' hR hSpd => ?_)⟩
      · rw [pairwise_map]
        exact (ih b hBranch).1.imp (fun hNot hSpd => hNot (forall₂_cons.mp hSpd).2)
      · rcases mem_map.mp hL with ⟨s, -, rfl⟩
        rcases mem_map.mp hR with ⟨s', -, rfl⟩
        rw [(forall₂_cons.mp hSpd).1] at hDiffer
        cases hDiffer
    · intro s hM
      rcases mem_flatMap.mp hM with ⟨b, hBranch, hM⟩
      rcases mem_map.mp hM with ⟨s, hState, rfl⟩
      rcases (ih b hBranch).2 s hState with ⟨hAccepts, hLeads⟩
      -- a branch that ends here leads to some entry
      have hEntry : ∃ e ∈ b.2.entries, s.1 <+: e.1 := by
        rcases hLeads with hRoot | hFurther
        · rcases exists_mem_of_ne_nil _ (hUsed b hBranch) with ⟨e, hEntry⟩
          exact ⟨e, hEntry, hRoot ▸ nil_prefix⟩
        · exact hFurther
      rcases hEntry with ⟨e, hEntry, hPre⟩
      refine ⟨hAccepts, .inr ⟨(b.1 :: e.1, e.2), ?_, (prefix_cons_inj _).mpr hPre⟩⟩
      rw [entries_state]
      exact mem_append_right _ (mem_flatMap.mpr ⟨b, hBranch, mem_map_of_mem hEntry⟩)

/- Every insertion adds an entry of its own. -/
theorem foldl_insert_spec (xs : List (Pattern × Nat)) (hOrderly : Orderly rank t) {t' : Trie}
    (hEnd : xs.foldl (fun t x => t.insert rank x.2 x.1.constraints) t = t') :
    Orderly rank t' ∧ (t'.entries.map Prod.snd).Perm (xs.map Prod.snd ++ t.entries.map Prod.snd) ∧
      ∀ e ∈ t'.entries, e ∈ t.entries ∨
        ∃ x ∈ xs, x.2 = e.2 ∧ Forall₂ Constraint.Alike x.1.constraints e.1 := by
  induction xs generalizing t with
  | nil => exact hEnd ▸ ⟨hOrderly, .refl _, fun _ hEntry => .inl hEntry⟩
  | cons x xs ih =>
    rcases entries_insert rank x.2 x.1.constraints t with ⟨way, hWay, hEntries⟩
    rcases ih (hOrderly.insert x.2 x.1.constraints) hEnd with ⟨hAfter, hRules, hEach⟩
    refine ⟨hAfter, hRules.trans (((hEntries.map _).append_left _).trans perm_middle), ?_⟩
    intro e hEntry
    rcases hEach e hEntry with hOld | ⟨y, hY, hSpd⟩
    · rcases mem_cons.mp (hEntries.subset hOld) with rfl | hOlder
      · exact .inr ⟨x, mem_cons_self, rfl, hWay⟩
      · exact .inl hOlder
    · exact .inr ⟨y, mem_cons_of_mem _ hY, hSpd⟩

end Trie

---- Compiled Rules ----

namespace RuleSet

variable {K : Type} {rules : List (Rule K)} {rs : RuleSet K}

theorem of_compile (hComp : compile rules = .ok rs) :
    Forall₂ (fun rule p => Pattern.ofGraph rule.pattern = .ok p) rules rs.patterns ∧
      (∀ rule ∈ rules, rule.priority.isNumeric = true) ∧
      rs.ranks = Ranking.ranks (rules.map Rule.priority) ∧
      buildTrie rs.ranks rs.patterns = (rs.trie, rs.states) := by
  unfold compile at hComp
  rcases bind_eq_ok_iff.mp hComp with ⟨_, -, hRest⟩
  rcases bind_eq_ok_iff.mp hRest with ⟨patterns, hPatterns, hRest⟩
  split at hRest
  · simp [throw, throwThe, MonadExceptOf.throw, bind, Except.bind] at hRest
  · rename_i hNumeric
    obtain rfl := Except.ok.inj hRest
    exact ⟨mapM_eq_ok_iff.mp hPatterns, by simpa using hNumeric, rfl, rfl⟩

theorem entries_of_compile (hComp : compile rules = .ok rs) :
    Trie.Orderly (rankOf rs.ranks) rs.trie ∧
      (rs.trie.entries.map Prod.snd).Perm (List.range rules.length) ∧
      ∀ e ∈ rs.trie.entries, ∃ p, rs.patterns[e.2]? = some p ∧
        Forall₂ Constraint.Alike p.constraints e.1 := by
  rcases of_compile hComp with ⟨hPatterns, -, -, hTrie⟩
  rcases Trie.foldl_insert_spec (t := .empty) rs.patterns.zipIdx
    (.state .nil .nil (by simp) (by simp)) (congrArg Prod.fst hTrie ▸ fst_buildTrie _ _).symm with ⟨hOrderly, hAll, hEach⟩
  refine ⟨hOrderly, ?_, fun e hEntry => ?_⟩
  · rwa [zipIdx_map_snd, ← range_eq_range', ← hPatterns.length_eq,
      show Trie.empty.entries = [] from rfl, map_nil, append_nil] at hAll
  · rcases hEach e hEntry with hNone | ⟨x, hX, hNumber, hWay⟩
    · cases hNone
    · exact ⟨x.1, hNumber ▸ mem_zipIdx_iff_getElem?.mp hX, hWay⟩

theorem states_of_compile (hComp : compile rules = .ok rs) : rs.states = rs.trie.states.length := by
  have hCount : ∀ (xs : List (Pattern × Nat)) (built : Trie × Nat),
      built.2 = built.1.states.length →
        (xs.foldl (addPattern rs.ranks) built).2 =
          (xs.foldl (addPattern rs.ranks) built).1.states.length := by
    intro xs
    induction xs with
    | nil => exact fun _ hStart => hStart
    | cons x xs ih =>
      intro built hStart
      refine ih _ ?_
      rw [addPattern, Trie.length_states_insert, hStart]
  have hBuilt := hCount rs.patterns.zipIdx (.empty, 1) rfl
  rwa [← buildTrie, (of_compile hComp).2.2.2] at hBuilt

theorem rank_lt_iff (hComp : compile rules = .ok rs)
    (hDefined : ∀ rule ∈ rules, rule.priority.isUndefined = false) {i j : Nat} {rule rule' : Rule K}
    (hI : rules[i]? = some rule) (hJ : rules[j]? = some rule') :
    rankOf rs.ranks i < rankOf rs.ranks j ↔ rule'.priority.less rule.priority = true ∨
      rule.priority.less rule'.priority = false ∧ i < j := by
  rcases of_compile hComp with ⟨-, hNumeric, hRanks, -⟩
  have hL : (rules.map Rule.priority)[i]? = some rule.priority := by simp [hI]
  have hR : (rules.map Rule.priority)[j]? = some rule'.priority := by simp [hJ]
  rw [hRanks, rankOf_ranks (lt_of_getElem? hL), rankOf_ranks (lt_of_getElem? hR)]
  refine Ranking.idxOf_order_lt_iff (fun v hM => ?_) hL hR
  rcases mem_map.mp hM with ⟨other, hOther, rfl⟩
  exact ⟨hNumeric other hOther, hDefined other hOther⟩

/-
  The states of the trie of a rule set are the beginnings of
  the patterns, each of them once.  Each rule is accepted
  where its pattern leads, and the rules that a state accepts
  are sorted by their ranks, which are by descending priority
  and then by number.
-/
theorem trie_exact (hCompile : compile rules = .ok rs) :
    Forall₂ (fun rule p => Pattern.ofGraph rule.pattern = .ok p) rules rs.patterns ∧
      rs.states = rs.trie.states.length ∧
      (∀ s ∈ rs.trie.states, s.1 = [] ∨
        ∃ p ∈ rs.patterns, ∃ ds, ds <+: p.constraints ∧ Forall₂ Constraint.Alike ds s.1) ∧
      (∀ p ∈ rs.patterns, ∀ ds, ds <+: p.constraints →
        ∃ s ∈ rs.trie.states, Forall₂ Constraint.Alike ds s.1) ∧
      rs.trie.states.Pairwise (fun s s' => ¬ Forall₂ (fun c d => c.same d = true) s'.1 s.1) ∧
      (rs.trie.states.flatMap Prod.snd).Perm (List.range rules.length) ∧
      (∀ s ∈ rs.trie.states, ∀ i ∈ s.2, ∃ p, rs.patterns[i]? = some p ∧
        Forall₂ Constraint.Alike p.constraints s.1) ∧
      (∀ s ∈ rs.trie.states, s.2.Pairwise (fun i j => rankOf rs.ranks i < rankOf rs.ranks j)) ∧
      rs.ranks.Perm (List.range rules.length) ∧
      ((∀ rule ∈ rules, rule.priority.isUndefined = false) →
        ∀ i j rule rule', rules[i]? = some rule → rules[j]? = some rule' →
          (rankOf rs.ranks i < rankOf rs.ranks j ↔ rule'.priority.less rule.priority = true ∨
            rule.priority.less rule'.priority = false ∧ i < j)) := by
  rcases of_compile hCompile with ⟨hPatterns, -, hRanks, -⟩
  rcases entries_of_compile hCompile with ⟨hOrderly, hIndices, hSpelled⟩
  rcases hOrderly.spec with ⟨hApart, hStates⟩
  have hAccepted : rs.trie.states.flatMap Prod.snd = rs.trie.entries.map Prod.snd := by
    simp [Trie.entries, map_flatMap, Function.comp_def]
  have hDistinct := nodup_flatMap.mp (hAccepted ▸ hIndices.nodup_iff.mpr nodup_range)
  refine ⟨hPatterns, states_of_compile hCompile, ?_, ?_, hApart, hAccepted ▸ hIndices, ?_, ?_, ?_, ?_⟩
  · intro s hState
    refine (hStates s hState).2.imp_right ?_
    rintro ⟨e, hEntry, hPrefix⟩
    rcases hSpelled e hEntry with ⟨p, hAt, hWay⟩
    refine ⟨p, mem_of_getElem? hAt, _, take_prefix s.1.length _, ?_⟩
    rw [prefix_iff_eq_take.mp hPrefix, length_take_of_le hPrefix.length_le]
    exact forall₂_take _ hWay
  · intro p hPattern ds hPrefix
    rcases getElem?_of_mem hPattern with ⟨i, hAt⟩
    have hLt := lt_of_getElem? hAt
    rcases mem_map.mp (hIndices.symm.subset (mem_range.mpr (hPatterns.length_eq ▸ hLt))) with
      ⟨e, hEntry, rfl⟩
    rcases hSpelled e hEntry with ⟨q, hQ, hWay⟩
    obtain rfl := eq_of_some hQ hAt
    rcases Trie.exists_state hEntry ( take_prefix ds.length _) with ⟨s, hState, hEq⟩
    refine ⟨s, hState, ?_⟩
    rw [hEq, prefix_iff_eq_take.mp hPrefix, length_take_of_le hPrefix.length_le]
    exact forall₂_take _ hWay
  · intro s hState i hI
    exact hSpelled (s.1, i) (mem_flatMap.mpr ⟨s, hState, mem_map_of_mem hI⟩)
  · intro s hState
    have hRange : ∀ i ∈ s.2, i < (rules.map Rule.priority).length := by
      intro i hI
      simpa using hIndices.subset (hAccepted ▸ mem_flatMap.mpr ⟨s, hState, hI⟩)
    refine ((hStates s hState).1.and (hDistinct.1 s hState)).imp_of_mem
      (fun {i j} hI hJ hBoth => lt_of_le_of_ne hBoth.1 (fun hEq => hBoth.2 ?_))
    rw [hRanks] at hEq
    exact rankOf_ranks_inj (hRange i hI) (hRange j hJ) hEq
  · simpa [hRanks] using Ranking.ranks_perm (rules.map Rule.priority)
  · exact fun hDefined _ _ _ _ hI hJ => rank_lt_iff hCompile hDefined hI hJ

theorem trie_exact_standard : ∃ (rules : List (Rule ℚ)) (rs : RuleSet ℚ),
      Identities.standard true = .ok rules ∧ compile rules = .ok rs ∧
      rs.states = rs.trie.states.length ∧
      (rs.trie.states.flatMap Prod.snd).Perm (List.range rules.length) ∧
      rs.ranks.Perm (List.range rules.length) := by
  rcases Identities.exists_standard_inversions with ⟨rules, rs, -, hStd, hCompile, -⟩
  rcases trie_exact hCompile with ⟨-, hSize, -, -, -, hIndices, -, -, hRanks, -⟩
  exact ⟨rules, rs, hStd, hCompile, hSize, hIndices, hRanks⟩

/- Three rules with one pattern, the second one having an undefined priority. -/
def undefinedPriority : Except Fault (List (Rule ℚ) × RuleSet ℚ) := do
  let rules ← [.whole 1, .decimal (0.0 / 0.0), .whole 2].mapM (fun priority =>
    Rule.ofCircuits (Identities.circuit 1 [(.x, [0])]) (Identities.circuit 1 []) priority .null)
  return (rules, ← compile rules)

/- An undefined priority keeps the rules around it from being sorted. -/
theorem trie_not_sorted : ∃ (rules : List (Rule ℚ)) (rs : RuleSet ℚ),
      undefinedPriority = .ok (rules, rs) ∧ compile rules = .ok rs ∧
      rules.map (fun rule => rule.priority.less (.whole 2)) = [true, false, false] ∧
      rs.ranks = [0, 1, 2] ∧ rs.trie.states.map Prod.snd = [[], [0, 1, 2]] := by
  have hRun : undefinedPriority.toOption.any (fun task => decide (
      task.1.map (fun rule => rule.priority.less (.whole 2)) = [true, false, false] ∧
      task.2.ranks = [0, 1, 2] ∧ task.2.trie.states.map Prod.snd = [[], [0, 1, 2]])) = true := by
    decide +kernel
  rcases exists_of_toOption_any hRun with ⟨⟨rules, rs⟩, hTask, hHolds⟩
  refine ⟨rules, rs, hTask, ?_, of_decide_eq_true hHolds⟩
  rcases bind_eq_ok_iff.mp hTask with ⟨_, -, hRest⟩
  rcases bind_eq_ok_iff.mp hRest with ⟨_, hCompile, hLast⟩
  cases hLast
  exact hCompile

end RuleSet

end CircuitGraph
