import CircuitGraph.Optimize.Greedy
import CircuitGraph.Proofs.Match.Vicinity

/-
  Lists of matches kept up to date.

  After an edit the list of all matches can be had from the
  one before: only matches near what was touched have to be
  searched for again.
-/

---- Sorting by Roots ----

namespace CircuitGraph

open List

namespace Greedy

theorem filter_byRoot (ms : List Match) (n : Nat) :
    (byRoot ms).filter (fun m => m.root.toNat == n) = ms.filter (fun m => m.root.toNat == n) := by
  have hSort : (ms.filter (fun m => m.root.toNat == n)).Pairwise
      (fun a b => decide (a.root.toNat ≤ b.root.toNat) = true) := by
    apply pairwise_of_forall_mem_list
    intro a hA b hB
    have hRootA := (mem_filter.mp hA).2
    have hRootB := (mem_filter.mp hB).2
    simp only [beq_iff_eq, decide_eq_true_eq] at hRootA hRootB ⊢
    omega
  have hThere : (ms.filter (fun m => m.root.toNat == n)).Sublist (byRoot ms) :=
    sublist_mergeSort (trans_of_key fun _ _ => decide_eq_true_iff)
      (total_of_key fun _ _ => decide_eq_true_iff) hSort filter_sublist
  have hIns := hThere.filter (fun m => m.root.toNat == n)
  simp only [filter_filter, Bool.and_self] at hIns
  apply (hIns.eq_of_length _).symm
  exact ((mergeSort_perm ms _).filter _).length_eq.symm

theorem pairwise_byRoot {R : Match → Match → Prop} {ms : List Match}
    (hLess : ∀ a b : Match, a.root.toNat < b.root.toNat → R a b)
    (hSame : ms.Pairwise (fun a b => a.root.toNat = b.root.toNat → R a b)) :
    (byRoot ms).Pairwise R := by
  have hSort : (byRoot ms).Pairwise (fun a b => a.root.toNat ≤ b.root.toNat) :=
    pairwise_mergeSort_of_key (fun _ _ => decide_eq_true_iff) ms
  rw [pairwise_iff_forall_sublist] at hSort hSame ⊢
  intro a b hPair
  have hLe := hSort hPair
  by_cases hEq : a.root.toNat = b.root.toNat
  · have hFilter := hPair.filter (fun m => m.root.toNat == b.root.toNat)
    rw [filter_byRoot] at hFilter
    simp only [filter_cons, beq_self_eq_true, if_true, hEq, filter_nil] at hFilter
    exact hSame (hFilter.trans filter_sublist) hEq
  · exact hLess a b (by omega)

end Greedy

---- Rematching ----

namespace RuleSet

variable {K : Type} {rs : RuleSet K} {g g' : Graph K} {ms : List Match}

theorem anchors_some_pairwise (rs : RuleSet K) (g : Graph K) (slots : List Slot) :
    ((rs.anchors g (some slots)).map Slot.toNat).Pairwise (· < ·) := by
  have hSort : ((sortSlots slots).map Slot.toNat).Pairwise (· < ·) := by
    rw [map_toNat_sortSlots]
    exact sortIds_pairwise _
  exact ((hSort.of_map Slot.toNat (fun _ _ h => h)).filter _ |>.filter _).map _ (fun _ _ h => h)

theorem Compiled.exists_anchor (hC : rs.Compiled) (hS : g.Sound) {m : Match}
    {rule : Rule K} {f : Nat → Nat} (hFinds : rs.Finds g m rule f) {slots : List Slot}
    (hM : m.root.toNat ∈ slots.map Slot.toNat) :
    ∃ anchor ∈ rs.anchors g (some slots), anchor.toNat = m.root.toNat := by
  rcases hFinds.exists_pattern hC with ⟨p, hPat, -, hDesc, hIds⟩
  have hHead : (p.nodes.map f).head? = some m.root.toNat := hIds ▸ hFinds.root
  have hAnchor := hC.mem_anchors hS hFinds.member hFinds.occurs hPat hHead
  rw [← mem_sortIds, ← map_toNat_sortSlots] at hM
  rcases mem_map.mp hM with ⟨s, hSlot, hSame⟩
  refine ⟨s, ?_, hSame⟩
  unfold anchors at hAnchor ⊢
  simp only [mem_filter] at hAnchor ⊢
  rw [hSame]
  refine ⟨⟨hSlot, ?_⟩, hAnchor.2⟩
  rcases mem_map.mp hAnchor.1 with ⟨n, hOp, hN⟩
  rw [← Slot.number.inj hN]
  exact hS.isOpId_of_mem_opIds hOp

theorem Finds.root_mem_opIds {m : Match} {rule : Rule K} {f : Nat → Nat}
    (hFinds : rs.Finds g m rule f) (hC : rs.Compiled) : m.root.toNat ∈ g.opIds := by
  rcases hFinds.exists_pattern hC with ⟨p, -, -, hDesc, hIds⟩
  have hHead : m.root.toNat ∈ p.nodes.map f := hIds ▸ mem_of_head? hFinds.root
  rcases hDesc.mem_image_iff.mp hHead with ⟨n, hN, hImage⟩
  rw [← hImage]
  exact hFinds.occurs.operation n hN

/-
  The list after an edit: matches whose roots are removed or
  near what was touched are dropped, and those that are near
  are searched for again.
-/
theorem Lists.rematched (hLists : rs.Lists g ms) (hC : rs.Compiled)
    (hFunnels : ∀ rule ∈ rs.rules, rule.pattern.Funnel) {touched removed : Nat → Prop}
    (hEdited : g.Edited touched removed g') (hS : g.Sound) (hAcy : g.Acyclic)
    (hS' : g'.Sound) (hAcy' : g'.Acyclic) {slots gone : List Slot}
    (hSlots : ∀ n ∈ g'.opIds, touched n → n ∈ slots.map Slot.toNat)
    (hGone : ∀ n, n ∈ gone.map Slot.toNat ↔ removed n) : rs.Lists g' (Greedy.byRoot
      (ms.filter (fun m =>
        !Slot.covers (g'.neighbourhood slots rs.radius ++ gone) m.root.toNat) ++
      (rs.anchors g' (some (g'.neighbourhood slots rs.radius))).flatMap (rs.matchesOf g'))) := by
  let near := g'.neighbourhood slots rs.radius
  have hFunnel : ∀ {m rule f}, rs.Names m rule f → rule.pattern.Funnel := fun hNames =>
    hFunnels _ (mem_of_getElem? hNames.member)
  have hFar : ∀ (m : Match) rule f, rs.Names m rule f → m.root.toNat ∈ g'.opIds →
      m.root.toNat ∉ near.map Slot.toNat → (rs.Finds g m rule f ↔ rs.Finds g' m rule f) :=
    fun m rule f hNames hRoot hAway => hNames.finds_iff_of_far hC (hFunnel hNames) hEdited
      hS hAcy hS' hAcy' hSlots hRoot hAway
  have hKept : ∀ m : Match, (!Slot.covers (near ++ gone) m.root.toNat) = true ↔
      m.root.toNat ∉ near.map Slot.toNat ∧ ¬ removed m.root.toNat := by
    intro m
    rw [Bool.not_eq_true', ← Bool.not_eq_true, Slot.covers_iff, map_append, mem_append,
      hGone, not_or]
  have hNear : ∀ m ∈ (rs.anchors g' (some near)).flatMap (rs.matchesOf g'),
      m.root.toNat ∈ near.map Slot.toNat ∧ ∃ rule f, rs.Finds g' m rule f := by
    intro m hM
    rcases mem_flatMap.mp hM with ⟨anchor, hAnchor, hM⟩
    rcases hC.finds_of_mem hS' hM with ⟨rfl, -, hFnd⟩
    refine ⟨?_, hFnd⟩
    have hSlot := (mem_filter.mp (mem_filter.mp hAnchor).1).1
    rw [← mem_sortIds, ← map_toNat_sortSlots]
    exact mem_map_of_mem hSlot
  constructor
  · apply Greedy.pairwise_byRoot
    · intro a b hLt
      exact List.Lex.rel hLt
    · rw [pairwise_append]
      have hOld := hLists.sorted.filter
        (fun m => !Slot.covers (g'.neighbourhood slots rs.radius ++ gone) m.root.toNat)
      have hNew := hC.flatMap_matchesOf_pairwise hS' (anchors_some_pairwise rs g' near)
      refine ⟨hOld.imp ?_, hNew.imp ?_, ?_⟩
      · exact fun hLt _ => hLt
      · exact fun hLt _ => hLt
      · intro a hA b hB hSame
        have hAway := ((hKept a).mp (mem_filter.mp hA).2).1
        exact absurd (hSame ▸ (hNear b hB).1) hAway
  · intro m hM
    rw [Greedy.byRoot, mem_mergeSort, mem_append, mem_filter, hKept] at hM
    rcases hM with ⟨hOld, hAway, hStays⟩ | hNew
    · rcases hLists.found m hOld with ⟨rule, f, hFinds⟩
      have hRoot : m.root.toNat ∈ g'.opIds :=
        hEdited.kept _ (hFinds.root_mem_opIds hC) hStays
      exact ⟨rule, f, (hFar m rule f hFinds.toNames hRoot hAway).mp hFinds⟩
    · exact (hNear m hNew).2
  · intro i rule f hRule hOcc hConv
    rcases hC.exists_mem_found hS' hRule hOcc hConv with ⟨m, -, rfl, hFinds⟩
    have hRoot := hFinds.root_mem_opIds hC
    simp only [Greedy.byRoot, mem_mergeSort, mem_append, mem_filter]
    by_cases hClose : m.root.toNat ∈ near.map Slot.toNat
    · -- a match near what was touched is searched for again
      rcases hC.exists_anchor hS' hFinds hClose with ⟨anchor, hAnchor, hSame⟩
      rcases hFinds.exists_pattern hC with ⟨p, hPat, -, -, hIds⟩
      have hHead : (p.nodes.map f).head? = some anchor.toNat := by
        rw [hSame, ← hFinds.root]
        exact congrArg List.head? hIds.symm
      rcases hC.exists_mem_matchesOf hS' hRule hOcc hConv hPat hHead with
        ⟨m', hM, hIndex, hFinds'⟩
      exact ⟨m', .inr (mem_flatMap.mpr ⟨anchor, hAnchor, hM⟩), hIndex, hFinds'⟩
    · -- any other match was there before
      have hBef := (hFar m rule f hFinds.toNames hRoot hClose).mpr hFinds
      rcases hLists.exists_plain_eq hBef with ⟨m', hM, hFinds', hPlain⟩
      have hSame : m'.root.toNat = m.root.toNat := congrArg (fun x => x.root.toNat) hPlain
      refine ⟨m', .inl ⟨hM, (hKept m').mpr ?_⟩, congrArg (fun x => x.rule) hPlain, ?_⟩
      · rw [hSame]
        exact ⟨hClose, fun hOut => (hEdited.gone _ hOut).2 hRoot⟩
      · rw [← hSame] at hRoot hClose
        exact (hFar m' rule f hFinds'.toNames hRoot hClose).mp hFinds'

end RuleSet

end CircuitGraph
