import CircuitGraph.Proofs.Graph.Sound
import CircuitGraph.Substitution.Acyclic

/-
  The search for cycles is exact.

  The nodes on the stack of the search lie on a path.  What
  has been visited and has left the stack is settled: no wire
  leads out of it, and no cycle goes through it.
-/

---- Settled Nodes ----

namespace CircuitGraph

open List

variable {n : Nat} {visited : List Nat}

def Leads (next : Nat → List Slot) (u v : Nat) : Prop :=
  v ∈ (next u).map Slot.toNat

/- Whether no step leads out of a set of nodes and no cycle goes through it. -/
structure Settled (next : Nat → List Slot) (done : Nat → Prop) : Prop where
  closed : ∀ n, done n → ∀ m, Leads next n m → done m
  acyclic : ∀ n, done n → ¬ Relation.TransGen (Leads next) n n

namespace Settled

variable {next : Nat → List Slot} {done : Nat → Prop}

theorem reaches (hSet : Settled next done) {m : Nat} (hStart : done n)
    (hPath : Relation.ReflTransGen (Leads next) n m) : done m := by
  induction hPath with
  | refl => exact hStart
  | tail _ hStep ih => exact hSet.closed _ ih _ hStep

theorem insert (hSet : Settled next done) (hNew : ¬ done n)
    (hNext : ∀ m, Leads next n m → done m) : Settled next (fun m => m = n ∨ done m) := by
  constructor
  · rintro m (rfl | hDone) k hStep
    · exact .inr (hNext k hStep)
    · exact .inr (hSet.closed m hDone k hStep)
  · rintro m (rfl | hDone) hLoop
    · rcases Relation.TransGen.head'_iff.mp hLoop with ⟨k, hStep, hBack⟩
      exact hNew (hSet.reaches (hNext k hStep) hBack)
    · exact hSet.acyclic m hDone hLoop

end Settled

---- The Stack ----

variable {domain : List Nat} {next : Nat → List Slot}

def Finished (visited : List Nat) (stack : List (Nat × List Slot)) (n : Nat) : Prop :=
  n ∈ visited ∧ n ∉ stack.map Prod.fst

/-
  Whether the stack is a path that leads to `top`, and where
  the other steps from its nodes lead to: those that are not
  to be taken any more lead to finished nodes.
-/
def OnPath (next : Nat → List Slot) (finished : Nat → Prop) : Option Nat → List (Nat × List Slot) → Prop
  | _, [] => True
  | top, (n, rest) :: below =>
    (∀ m, top = some m → Leads next n m) ∧
    (∀ m, Leads next n m → m ∈ rest.map Slot.toNat ∨ finished m ∨ top = some m) ∧
    OnPath next finished (some n) below

/- What holds while the search goes on. -/
structure Searching (domain : List Nat) (next : Nat → List Slot) (visited : List Nat)
    (stack : List (Nat × List Slot)) : Prop where
  nodup : (stack.map Prod.fst).Nodup
  seen : ∀ entry ∈ stack, entry.1 ∈ visited
  inside : ∀ n ∈ visited, n ∈ domain
  steps : ∀ entry ∈ stack, ∀ s ∈ entry.2, Leads next entry.1 s.toNat
  settled : Settled next (Finished visited stack)
  path : OnPath next (Finished visited stack) none stack

namespace OnPath

variable {finished finished' : Nat → Prop} {top : Option Nat} {stack : List (Nat × List Slot)}

theorem mono (hMore : ∀ n, finished n → finished' n) (hPath : OnPath next finished top stack) :
    OnPath next finished' top stack := by
  induction stack generalizing top with
  | nil => trivial
  | cons entry below ih =>
    refine ⟨hPath.1, fun m hStep => ?_, ih hPath.2.2⟩
    rcases hPath.2.1 m hStep with hRest | hDone | hTop
    · exact .inl hRest
    · exact .inr (.inl (hMore m hDone))
    · exact .inr (.inr hTop)

theorem reaches (hPath : OnPath next finished top stack) {m : Nat} (hTop : top = some m)
    (hM : n ∈ stack.map Prod.fst) : Relation.TransGen (Leads next) n m := by
  induction stack generalizing top m with
  | nil => simp at hM
  | cons entry below ih =>
    have hStep := hPath.1 m hTop
    rcases mem_cons.mp hM with rfl | hBelow
    · exact .single hStep
    · exact (ih hPath.2.2 rfl hBelow).tail hStep

end OnPath

---- The Search ----

namespace Searching

variable {m : Nat} {s : Slot} {rest : List Slot} {below : List (Nat × List Slot)}

theorem pop (hSea : Searching domain next visited ((n, []) :: below)) :
    Searching domain next visited below := by
  have hNodup := hSea.nodup
  rw [map_cons, nodup_cons] at hNodup
  have hPath := hSea.path
  have hMore : ∀ m, Finished visited below m ↔ m = n ∨ Finished visited ((n, []) :: below) m := by
    intro m
    have hSeen : n ∈ visited := hSea.seen _ mem_cons_self
    unfold Finished
    rw [map_cons, mem_cons]
    constructor
    · rintro ⟨hVisited, hBelow⟩
      by_cases hEq : m = n
      · exact .inl hEq
      · exact .inr ⟨hVisited, fun hM => hM.elim hEq hBelow⟩
    · rintro (rfl | ⟨hVisited, hStack⟩)
      · exact ⟨hSeen, hNodup.1⟩
      · exact ⟨hVisited, fun hM => hStack (.inr hM)⟩
  have hNext : ∀ m, Leads next n m → Finished visited ((n, []) :: below) m := by
    intro m hStep
    rcases hPath.2.1 m hStep with hRest | hDone | hTop
    · simp at hRest
    · exact hDone
    · simp at hTop
  have hSet := hSea.settled.insert (fun hDone => hDone.2 mem_cons_self) hNext
  refine ⟨hNodup.2, fun e hM => hSea.seen e (mem_cons_of_mem _ hM), hSea.inside,
    fun e hM => hSea.steps e (mem_cons_of_mem _ hM), ?_, ?_⟩
  · rwa [funext (fun m => propext (hMore m))]
  · cases below with
    | nil => trivial
    | cons entry below =>
      refine ⟨by simp, fun m hStep => ?_, hPath.2.2.2.2.mono (fun m hDone => (hMore m).mpr (.inr hDone))⟩
      rcases hPath.2.2.2.1 m hStep with hRest | hDone | hTop
      · exact .inl hRest
      · exact .inr (.inl ((hMore m).mpr (.inr hDone)))
      · exact .inr (.inl ((hMore m).mpr (.inl (Option.some.inj hTop).symm)))

section

variable (hSea : Searching domain next visited ((n, s :: rest) :: below))

include hSea

theorem seen_rest : ∀ e ∈ (n, rest) :: below, e.1 ∈ visited :=
  forall_mem_cons.mpr (forall_mem_cons.mp hSea.seen)

theorem steps_rest : ∀ e ∈ (n, rest) :: below, ∀ t ∈ e.2, Leads next e.1 t.toNat := by
  have hSteps := forall_mem_cons.mp hSea.steps
  exact forall_mem_cons.mpr ⟨(forall_mem_cons.mp hSteps.1).2, hSteps.2⟩

theorem skip (hDone : Finished visited ((n, s :: rest) :: below) s.toNat) :
    Searching domain next visited ((n, rest) :: below) := by
  refine ⟨hSea.nodup, hSea.seen_rest, hSea.inside, hSea.steps_rest, hSea.settled, hSea.path.1,
    fun m hStep => ?_, hSea.path.2.2⟩
  rcases hSea.path.2.1 m hStep with hRest | hFinished | hTop
  · rw [map_cons, mem_cons] at hRest
    rcases hRest with rfl | hLater
    · exact .inr (.inl hDone)
    · exact .inl hLater
  · exact .inr (.inl hFinished)
  · exact .inr (.inr hTop)

theorem push (hDomain : s.toNat ∈ domain) (hNew : s.toNat ∉ visited) :
    Searching domain next (s.toNat :: visited) ((s.toNat, next s.toNat) :: (n, rest) :: below) := by
  have hStack : s.toNat ∉ ((n, rest) :: below).map Prod.fst := by
    intro hM
    rcases mem_map.mp hM with ⟨entry, hEntry, hEq⟩
    exact hNew (hEq ▸ hSea.seen_rest entry hEntry)
  have hSame : ∀ m, Finished (s.toNat :: visited) ((s.toNat, next s.toNat) :: (n, rest) :: below) m ↔
      Finished visited ((n, s :: rest) :: below) m := by
    intro m
    unfold Finished
    simp only [map_cons, mem_cons, not_or]
    constructor
    · rintro ⟨hVisited, hNe, hOther⟩
      exact ⟨hVisited.resolve_left hNe, hOther⟩
    · rintro ⟨hVisited, hOther⟩
      exact ⟨.inr hVisited, fun hEq => hNew (hEq ▸ hVisited), hOther⟩
  have hFinished := funext (fun m => propext (hSame m))
  refine ⟨nodup_cons.mpr ⟨hStack, hSea.nodup⟩,
    forall_mem_cons.mpr ⟨mem_cons_self, fun e hM => mem_cons_of_mem _ (hSea.seen_rest e hM)⟩,
    forall_mem_cons.mpr ⟨hDomain, hSea.inside⟩,
    forall_mem_cons.mpr ⟨fun t hT => mem_map_of_mem hT, hSea.steps_rest⟩,
    hFinished ▸ hSea.settled, by simp, fun m hStep => .inl hStep, ?_⟩
  rw [hFinished]
  refine ⟨?_, fun m hStep => ?_, hSea.path.2.2⟩
  · rintro m ⟨⟩
    exact hSea.steps (n, s :: rest) mem_cons_self s mem_cons_self
  · rcases hSea.path.2.1 m hStep with hRest | hDone | hTop
    · rw [map_cons, mem_cons] at hRest
      rcases hRest with rfl | hLater
      · exact .inr (.inr rfl)
      · exact .inl hLater
    · exact .inr (.inl hDone)
    · simp at hTop

theorem cycle (hStack : s.toNat = n ∨ s.toNat ∈ below.map Prod.fst) :
    Relation.TransGen (Leads next) s.toNat s.toNat := by
  have hStep : Leads next n s.toNat :=
    hSea.steps (n, s :: rest) mem_cons_self s mem_cons_self
  rcases hStack with hEq | hBelow
  · rw [hEq] at hStep ⊢
    exact .single hStep
  · exact (hSea.path.2.2.reaches rfl hBelow).tail hStep

end

end Searching

/-
  A search either visits everything that the stack leads to,
  or finds a node on a cycle, which has any property that the
  steps of the search keep.
-/
theorem searchCycle_spec (hDomain : ∀ n ∈ domain, ∀ m, Leads next n m → m ∈ domain)
    {stack : List (Nat × List Slot)} (hSea : Searching domain next visited stack)
    {P : Nat → Prop} (hKeeps : ∀ n m, Leads next n m → P n → P m)
    (hStack : ∀ n ∈ stack.map Prod.fst, P n) :
    (∃ visited', searchCycle domain next visited stack = .ok visited' ∧
      (∀ n ∈ visited, n ∈ visited') ∧ Searching domain next visited' []) ∨
      ∃ s, searchCycle domain next visited stack = .error s ∧ P s.toNat ∧
        Relation.TransGen (Leads next) s.toNat s.toNat := by
  fun_induction searchCycle domain next visited stack with
  | case1 visited => exact .inl ⟨visited, rfl, fun _ hM => hM, hSea⟩
  | case2 visited n below ih => exact ih hSea.pop (forall_mem_cons.mp hStack).2
  | case3 visited n s rest below m hOnPath =>
    have hStep := hSea.steps (n, s :: rest) mem_cons_self s mem_cons_self
    refine .inr ⟨s, rfl, hKeeps n _ hStep (hStack n mem_cons_self), hSea.cycle ?_⟩
    rcases hOnPath with hEq | hBelow
    · exact .inl hEq
    · rcases any_eq_true.mp hBelow with ⟨entry, hM, hEq⟩
      exact .inr (mem_map.mpr ⟨entry, hM, by simpa using hEq⟩)
  | case4 visited n s rest below m hOnPath hNew ih =>
    have hStep := hSea.steps (n, s :: rest) mem_cons_self s mem_cons_self
    rcases ih (hSea.push hNew.1 hNew.2) (forall_mem_cons.mpr
      ⟨hKeeps n _ hStep (hStack n mem_cons_self), hStack⟩) with ⟨visited', hOk, hMore, hEnd⟩ | hError
    · exact .inl ⟨visited', hOk, fun k hM => hMore k (mem_cons_of_mem _ hM), hEnd⟩
    · exact .inr hError
  | case5 visited n s rest below m hOnPath hOld ih =>
    refine ih (hSea.skip ⟨?_, ?_⟩) hStack
    · by_contra hNew
      refine hOld ⟨hDomain n ?_ _ ?_, hNew⟩
      · exact hSea.inside n (hSea.seen _ mem_cons_self)
      · exact hSea.steps (n, s :: rest) mem_cons_self s mem_cons_self
    · intro hM
      rcases mem_map.mp hM with ⟨entry, hEntry, hEq⟩
      rcases mem_cons.mp hEntry with rfl | hBelow
      · exact hOnPath (.inl hEq.symm)
      · exact hOnPath (.inr (any_eq_true.mpr ⟨entry, hBelow, by simpa using hEq⟩))

---- Searches from Several Nodes ----

namespace Graph

variable {K : Type} {g : Graph K}

theorem leads_successorSlots : Leads g.successorSlots = g.Edge := by
  funext u v
  unfold Leads successorSlots Edge
  simp only [map_toNat_sortSlots, mem_sortIds, map_map, mem_map, mem_mergeSort,
    mem_filter, beq_iff_eq, and_assoc]
  rfl

theorem searching_nil (domain : List Nat) (next : Nat → List Slot) :
    Searching domain next [] [] := by
  refine ⟨by simp, by simp, by simp, by simp, ⟨?_, ?_⟩, trivial⟩
  · exact fun n hDone => absurd hDone.1 not_mem_nil
  · exact fun n hDone => absurd hDone.1 not_mem_nil

theorem searching_start {domain : List Nat} {next : Nat → List Slot}
    (hSea : Searching domain next visited []) (hDomain : n ∈ domain) (hNew : n ∉ visited) :
    Searching domain next (n :: visited) [(n, next n)] := by
  have hFinished : Finished (n :: visited) [(n, next n)] = Finished visited [] := by
    funext m
    unfold Finished
    simp only [map_cons, map_nil, mem_cons, not_mem_nil, or_false,
      not_false_eq_true, and_true, eq_iff_iff]
    constructor
    · exact fun hBoth => hBoth.1.resolve_left hBoth.2
    · exact fun hOld => ⟨.inr hOld, fun hEq => hNew (hEq ▸ hOld)⟩
  refine ⟨by simp, by simp, fun m hM => ?_, fun e hM t hT => ?_, hFinished ▸ hSea.settled,
    by simp, fun m hStep => .inl hStep, trivial⟩
  · rcases mem_cons.mp hM with rfl | hOld
    · exact hDomain
    · exact hSea.inside m hOld
  · obtain rfl := mem_singleton.mp hM
    exact mem_map_of_mem hT

/- A cycle that was not there before goes through the end of a new wire. -/
theorem Acyclic.exists_new_cycle {h : Graph K} {S : Nat → Prop} (hAcy : g.Acyclic)
    (hNew : ∀ u v, h.Edge u v → g.Edge u v ∨ S v) (hLoop : Relation.TransGen h.Edge n n) :
    ∃ v, S v ∧ Relation.TransGen h.Edge v v := by
  by_contra hNone
  have hOld : ∀ {u v}, h.Edge u v → Relation.ReflTransGen h.Edge v u → g.Edge u v :=
    fun hEdge hBack => (hNew _ _ hEdge).resolve_right (fun hEnd => hNone ⟨_, hEnd, .tail' hBack hEdge⟩)
  have hPath : ∀ {m}, Relation.TransGen h.Edge n m → Relation.ReflTransGen h.Edge m n →
      Relation.TransGen g.Edge n m := by
    intro m hPath
    induction hPath with
    | single hEdge => exact fun hBack => .single (hOld hEdge hBack)
    | tail hFirst hEdge ih =>
      exact fun hBack => (ih (.head hEdge hBack)).tail
        (hOld hEdge (hBack.trans hFirst.to_reflTransGen))
  exact hAcy n (hPath hLoop .refl)

def ReachesCycle (g : Graph K) (n : Nat) : Prop :=
  ∃ m, Relation.ReflTransGen g.Edge n m ∧ Relation.TransGen g.Edge m m

/-
  What a search ends with: there is no fault if all nodes asked
  about are in the graph and none of them leads to a cycle, and
  otherwise the first one for which this fails is at fault.
-/
def SearchEnds (g : Graph K) (ns : List Nat) (result : Except Fault Unit) : Prop :=
  (result = .ok () ∧ ∀ n ∈ ns, n ∈ g.nodeIds ∧ ¬ g.ReachesCycle n) ∨
    ∃ before n after, ns = before ++ n :: after ∧
      (∀ m ∈ before, m ∈ g.nodeIds ∧ ¬ g.ReachesCycle m) ∧
      ((∃ s, result = .error (.structural (.closedCycle s))) ∧ g.ReachesCycle n ∨
        result = .error (.unknownKey (.whole n)) ∧ n ∉ g.nodeIds)

theorem SearchEnds.cons {n : Nat} {ns : List Nat} {result : Except Fault Unit}
    (hEnds : g.SearchEnds ns result) (hFirst : n ∈ g.nodeIds ∧ ¬ g.ReachesCycle n) :
    g.SearchEnds (n :: ns) result := by
  rcases hEnds with ⟨hOk, hAll⟩ | ⟨before, m, after, rfl, hBef, hFault⟩
  · exact .inl ⟨hOk, forall_mem_cons.mpr ⟨hFirst, hAll⟩⟩
  · exact .inr ⟨n :: before, m, after, rfl, forall_mem_cons.mpr ⟨hFirst, hBef⟩, hFault⟩

theorem Sound.searchCycleFrom_ends (hS : g.Sound) (ns : List Nat)
    (hSea : Searching g.nodeIds g.successorSlots visited []) :
    g.SearchEnds ns (g.searchCycleFrom ns visited) := by
  have hDomain : ∀ n ∈ g.nodeIds, ∀ m, Leads g.successorSlots n m → m ∈ g.nodeIds := by
    intro n _ m hStep
    rw [leads_successorSlots] at hStep
    exact (hS.edge_mem hStep).2
  -- no cycle can be reached from what has been visited
  have hVisited : ∀ {seen n}, Searching g.nodeIds g.successorSlots seen [] → n ∈ seen →
      n ∈ g.nodeIds ∧ ¬ g.ReachesCycle n := by
    intro seen n hSeen hM
    refine ⟨hSeen.inside n hM, ?_⟩
    rintro ⟨m, hPath, hLoop⟩
    rw [← leads_successorSlots] at hPath hLoop
    exact hSeen.settled.acyclic m (hSeen.settled.reaches ⟨hM, not_mem_nil⟩ hPath) hLoop
  induction ns generalizing visited with
  | nil => exact .inl ⟨rfl, fun _ hM => absurd hM not_mem_nil⟩
  | cons n ns ih =>
    unfold searchCycleFrom
    by_cases hSeen : n ∈ visited
    · simp only [contains_eq_mem, hSeen, decide_true, if_true]
      exact (ih hSea).cons (hVisited hSea hSeen)
    · simp only [contains_eq_mem, hSeen, decide_false, Bool.false_eq_true, if_false]
      split
      · rename_i hN
        rcases searchCycle_spec hDomain (searching_start hSea (hasNode_iff.mp hN) hSeen)
          (P := Relation.ReflTransGen g.Edge n)
          (fun _ _ hStep hPath => hPath.tail (leads_successorSlots ▸ hStep))
          (forall_mem_singleton.mpr .refl) with
          ⟨visited', hOk, hMore, hEnd⟩ | ⟨s, hError, hPath, hLoop⟩
        · simp only [hOk]
          exact (ih hEnd).cons (hVisited hEnd (hMore n mem_cons_self))
        · rw [leads_successorSlots] at hLoop
          exact .inr ⟨[], n, ns, rfl, by simp, .inl ⟨⟨s, by simp only [hError]⟩, _, hPath, hLoop⟩⟩
      · rename_i hN
        exact .inr ⟨[], n, ns, rfl, by simp, .inr ⟨rfl, fun hM => hN (hasNode_iff.mpr hM)⟩⟩

end Graph

end CircuitGraph
