import CircuitGraph.Proofs.Reachable
import CircuitGraph.Rule.Identities

/-
  Graphs of circuits.

  The graph of a circuit is built by edits from an empty one,
  and so are the two graphs of every rule of the library.
-/

---- Circuits ----

namespace CircuitGraph

open List

namespace Graph

variable {K : Type} [Scalar K]

theorem Reachable.of_build {e : Edit K Unit} (hKeeps : Keeps Reachable e) {g g' : Graph K}
    (hReach : g.Reachable) (hBuild : e.build g = .ok g') : g'.Reachable := by
  unfold Edit.build at hBuild
  split at hBuild
  · rename_i u g₁ hRun
    obtain rfl := Except.ok.inj hBuild
    have hAfter := hKeeps g hReach
    rwa [show outcome e g = (.ok u, g₁) from hRun] at hAfter
  · cases hBuild

theorem keeps_reachable_join (src dst : Pin) : Keeps (Reachable (K := K)) (join src dst) :=
  fun _ hReach => .join hReach src dst

theorem keeps_reachable_addNode (kind : Kind) (params : Except Fault (List Param))
    {body : Option (Graph K)} (hB : ∀ b, body = some b → b.Reachable) :
    Keeps (Reachable (K := K)) (addNodeWith kind params body none) :=
  fun _ hReach => .addNode hReach kind params (.inr rfl) hB

theorem keeps_reachable_threadLines (n offset : Nat) (lines : List (Option Int)) (i : Nat)
    (front : List Pin) : Keeps (Reachable (K := K)) (threadLines n offset lines i front) := by
  induction lines generalizing i front with
  | nil => exact .of_pure front
  | cons line lines ih =>
    refine .bind (.bind (.ofExcept _) fun place => ?_) (ih (i + 1))
    exact .bind (keeps_reachable_join _ _) fun _ => .of_pure _

theorem reachable_of_ofOperation {kind : Kind} {params : Except Fault (List Param)} {g : Graph K}
    (hBuilt : ofOperation kind params = .ok g) : g.Reachable := by
  unfold ofOperation at hBuilt
  split at hBuilt
  · cases hBuilt
  · refine .of_build ?_ (.empty _ _) hBuilt
    refine .bind (keeps_reachable_addNode kind params (fun _ hNone => nomatch hNone)) fun n => ?_
    refine .forM fun i _ => .bind (keeps_reachable_join _ _) fun _ => ?_
    exact keeps_reachable_join _ _

theorem keeps_reachable_addOperation (qubits : Int) (front : List Pin) (op : Operation) :
    Keeps (Reachable (K := K)) (addOperation qubits front op) := by
  have hPlain : ∀ kind params, Keeps (Reachable (K := K)) (addOp kind params none) :=
    fun kind params => keeps_reachable_addNode kind (.ok params) (fun _ hNone => nomatch hNone)
  unfold addOperation
  refine .bind (.ofExcept _) fun lines => ?_
  split
  · exact .bind (hPlain _ _) fun n => keeps_reachable_threadLines n 0 lines 0 front
  · refine .ofExcept_bind fun body hB => .bind (hPlain _ _) fun read => ?_
    refine .bind (.bind (.ofExcept _) fun place => ?_) fun front => ?_
    · exact .bind (keeps_reachable_join _ _) fun _ => .of_pure _
    · refine .bind (keeps_reachable_addNode _ _ ?_) fun n => ?_
      · rintro b ⟨⟩
        exact reachable_of_ofOperation hB
      · exact .bind (keeps_reachable_join _ _) fun _ => keeps_reachable_threadLines n 1 lines 0 front

theorem reachable_of_ofCircuit {c : Circuit} {g : Graph K} (hBuilt : ofCircuit c = .ok g) :
    g.Reachable := by
  rcases bind_eq_ok_iff.mp hBuilt with ⟨qubits, -, hBuilt⟩
  rcases bind_eq_ok_iff.mp hBuilt with ⟨bits, -, hBuilt⟩
  refine .of_build ?_ (.empty _ _) hBuilt
  refine .bind (.foldlM (fun front op _ => keeps_reachable_addOperation qubits front op) _) ?_
  exact fun front => .forM fun _ _ => keeps_reachable_join _ _

end Graph

---- The Library ----

variable {K : Type} [Scalar K]

theorem Rule.reachable_of_ofCircuits {pattern replacement : Circuit} {priority name : Value}
    {rule : Rule K} (hRule : Rule.ofCircuits pattern replacement priority name = .ok rule) :
    rule.Reachable := by
  rcases bind_eq_ok_iff.mp hRule with ⟨p, hPat, hRule⟩
  rcases bind_eq_ok_iff.mp hRule with ⟨r, hRep, hRule⟩
  obtain rfl := Except.ok.inj hRule
  exact ⟨Graph.reachable_of_ofCircuit hPat, Graph.reachable_of_ofCircuit hRep⟩

namespace Identities

theorem reachable_of_mapM {α : Type} {entries : List α} {make : α → Except Fault (Rule K)}
    (hMake : ∀ entry rule, make entry = .ok rule → rule.Reachable) {rules : List (Rule K)}
    (hRules : entries.mapM make = .ok rules) : ∀ rule ∈ rules, rule.Reachable := by
  intro rule hM
  rcases exists_of_mapM_right hRules hM with ⟨entry, -, hRule⟩
  exact hMake entry rule hRule

theorem reachable_of_cancellations {rules : List (Rule K)} (hRules : cancellations = .ok rules) :
    ∀ rule ∈ rules, rule.Reachable := by
  rcases bind_eq_ok_iff.mp hRules with ⟨squares, hSquares, hRules⟩
  rcases bind_eq_ok_iff.mp hRules with ⟨crossed, hCrossed, hRules⟩
  rcases bind_eq_ok_iff.mp hRules with ⟨pairs, hPairs, hRules⟩
  obtain rfl := Except.ok.inj hRules
  intro rule hM
  rcases mem_append.mp hM with hM | hM
  · rcases mem_append.mp hM with hM | hM
    · exact reachable_of_mapM (fun _ _ => Rule.reachable_of_ofCircuits) hSquares rule hM
    · exact reachable_of_mapM (fun _ _ => Rule.reachable_of_ofCircuits) hCrossed rule hM
  · exact reachable_of_mapM (fun _ _ => Rule.reachable_of_ofCircuits) hPairs rule hM

theorem reachable_of_conjugations {rules : List (Rule K)} (hRules : conjugations = .ok rules) :
    ∀ rule ∈ rules, rule.Reachable := by
  rcases bind_eq_ok_iff.mp hRules with ⟨single, hSingle, hRules⟩
  rcases bind_eq_ok_iff.mp hRules with ⟨double, hDouble, hRules⟩
  obtain rfl := Except.ok.inj hRules
  intro rule hM
  rcases mem_append.mp hM with hM | hM
  · exact reachable_of_mapM (fun _ _ => Rule.reachable_of_ofCircuits) hSingle rule hM
  · exact reachable_of_mapM (fun _ _ => Rule.reachable_of_ofCircuits) hDouble rule hM

theorem reachable_of_swapElision {rule : Rule K} (hRule : swapElision = .ok rule) :
    rule.Reachable := by
  rcases bind_eq_ok_iff.mp hRule with ⟨pattern, hPat, hRule⟩
  rcases bind_eq_ok_iff.mp hRule with ⟨replacement, hRep, hRule⟩
  obtain rfl := Except.ok.inj hRule
  refine ⟨Graph.reachable_of_ofCircuit hPat, .of_build ?_ (.empty _ _) hRep⟩
  exact .bind (Graph.keeps_reachable_join _ _) fun _ => Graph.keeps_reachable_join _ _

theorem forall_mem_standard {P : Rule K → Prop}
    (hCancelling : ∀ rules, cancellations = .ok rules → ∀ rule ∈ rules, P rule)
    (hMerging : ∀ rules, merges = .ok rules → ∀ rule ∈ rules, P rule)
    (hConjugating : ∀ rules, conjugations = .ok rules → ∀ rule ∈ rules, P rule)
    (hElision : ∀ rule, swapElision = .ok rule → P rule) {elideSwaps : Bool} {rules : List (Rule K)}
    (hRules : standard elideSwaps = .ok rules) : ∀ rule ∈ rules, P rule := by
  rcases bind_eq_ok_iff.mp hRules with ⟨cancelling, hCancels, hRules⟩
  rcases bind_eq_ok_iff.mp hRules with ⟨merging, hMerges, hRules⟩
  rcases bind_eq_ok_iff.mp hRules with ⟨conjugating, hConjugates, hRules⟩
  have hPlain : ∀ rule ∈ cancelling ++ merging ++ conjugating, P rule := by
    intro rule hM
    rcases mem_append.mp hM with hM | hM
    · rcases mem_append.mp hM with hM | hM
      · exact hCancelling cancelling hCancels rule hM
      · exact hMerging merging hMerges rule hM
    · exact hConjugating conjugating hConjugates rule hM
  cases elideSwaps with
  | false =>
    obtain rfl := Except.ok.inj hRules
    exact hPlain
  | true =>
    rcases bind_eq_ok_iff.mp hRules with ⟨elision, hElides, hRules⟩
    obtain rfl := Except.ok.inj hRules
    intro rule hM
    rcases mem_append.mp hM with hM | hM
    · exact hPlain rule hM
    · obtain rfl := mem_singleton.mp hM
      exact hElision rule hElides

theorem reachable_of_standard {elideSwaps : Bool} {rules : List (Rule K)}
    (hRules : standard elideSwaps = .ok rules) : ∀ rule ∈ rules, rule.Reachable :=
  forall_mem_standard (fun _ => reachable_of_cancellations)
    (fun _ => reachable_of_mapM (fun _ _ => Rule.reachable_of_ofCircuits))
    (fun _ => reachable_of_conjugations) (fun _ => reachable_of_swapElision) hRules

/- The rules of the library, and two inversions in a row. -/
def standardTask (K : Type) [Scalar K] : Except Fault (List (Rule K) × RuleSet K × Graph K) := do
  let rules ← standard true
  let rs ← RuleSet.compile rules
  let g ← Graph.ofCircuit (circuit 1 [(.x, [0]), (.x, [0])])
  g.validate
  return (rules, rs, g)

theorem parts_of_standardTask {rules : List (Rule K)} {rs : RuleSet K} {g : Graph K}
    (hTask : standardTask K = .ok (rules, rs, g)) :
    standard true = .ok rules ∧ RuleSet.compile rules = .ok rs ∧
      Graph.ofCircuit (circuit 1 [(.x, [0]), (.x, [0])]) = .ok g ∧ g.validate = .ok () := by
  rcases bind_eq_ok_iff.mp hTask with ⟨rules', hRules, hTask⟩
  rcases bind_eq_ok_iff.mp hTask with ⟨rs', hComp, hTask⟩
  rcases bind_eq_ok_iff.mp hTask with ⟨g', hGraph, hTask⟩
  rcases bind_eq_ok_iff.mp hTask with ⟨⟨⟩, hValid, hTask⟩
  obtain ⟨rfl, rfl, rfl⟩ : rules' = rules ∧ rs' = rs ∧ g' = g := by
    simpa using Except.ok.inj hTask
  exact ⟨hRules, hComp, hGraph, hValid⟩

theorem exists_standard_inversions : ∃ (rules : List (Rule ℚ)) (rs : RuleSet ℚ) (g : Graph ℚ),
      standard true = .ok rules ∧ RuleSet.compile rules = .ok rs ∧
      Graph.ofCircuit (circuit 1 [(.x, [0]), (.x, [0])]) = .ok g ∧ g.validate = .ok () := by
  rcases exists_of_isOk (e := standardTask ℚ) (by decide +kernel) with ⟨⟨rules, rs, g⟩, hTask⟩
  exact ⟨rules, rs, g, parts_of_standardTask hTask⟩

end Identities

---- Inversions ----

namespace Graph

variable {K : Type} [Scalar K]

def placeInversions (body : Graph K) : Edit K Unit := do
  let first ← addOp .x [] none
  let second ← addOp .x [] none
  let third ← addOp .x [] none
  let region ← addOp .region [] (some body)
  join (.of inputId 0) (.of first 0)
  join (.of first 0) (.of second 0)
  join (.of second 0) (.of third 0)
  join (.of third 0) (.of outputId 0)
  join (.of inputId 1) (.of region 0)
  join (.of region 0) (.of outputId 1)

def nestedInversions : Except Fault (Graph K) := do
  let body ← ofCircuit (Identities.circuit 1 [(.x, [0]), (.x, [0])])
  (placeInversions body).build (.empty [.qubit, .qubit] [.qubit, .qubit])

theorem reachable_of_nestedInversions {g : Graph K} (hBuilt : nestedInversions = .ok g) :
    g.Reachable := by
  rcases bind_eq_ok_iff.mp hBuilt with ⟨body, hB, hBuilt⟩
  have hPlain : Keeps (Reachable (K := K)) (addOp .x [] none) :=
    keeps_reachable_addNode .x (.ok []) (fun _ hNone => nomatch hNone)
  refine .of_build ?_ (.empty _ _) hBuilt
  refine .bind hPlain fun first => .bind hPlain fun second => .bind hPlain fun third => ?_
  refine .bind (keeps_reachable_addNode _ _ ?_) fun region => ?_
  · rintro b ⟨⟩
    exact reachable_of_ofCircuit hB
  · exact .bind (keeps_reachable_join _ _) fun _ => .bind (keeps_reachable_join _ _) fun _ =>
      .bind (keeps_reachable_join _ _) fun _ => .bind (keeps_reachable_join _ _) fun _ =>
      .bind (keeps_reachable_join _ _) fun _ => keeps_reachable_join _ _

end Graph

/- The rule by which two inversions in a row vanish, and a graph where it applies on two levels. -/
def inversionTask : Except Fault (Rule ℚ × RuleSet ℚ × Graph ℚ) := do
  let rule ← Identities.squareVanishes .x
  let rs ← RuleSet.compile [rule]
  let g ← Graph.nestedInversions
  g.validate
  return (rule, rs, g)

theorem parts_of_inversionTask {rule : Rule ℚ} {rs : RuleSet ℚ} {g : Graph ℚ}
    (hTask : inversionTask = .ok (rule, rs, g)) :
    Identities.squareVanishes .x = .ok rule ∧ RuleSet.compile [rule] = .ok rs ∧ g.Reachable ∧
      g.validate = .ok () := by
  rcases bind_eq_ok_iff.mp hTask with ⟨rule', hRule, hTask⟩
  rcases bind_eq_ok_iff.mp hTask with ⟨rs', hComp, hTask⟩
  rcases bind_eq_ok_iff.mp hTask with ⟨g', hGraph, hTask⟩
  rcases bind_eq_ok_iff.mp hTask with ⟨⟨⟩, hValid, hTask⟩
  obtain ⟨rfl, rfl, rfl⟩ : rule' = rule ∧ rs' = rs ∧ g' = g := by
    simpa using Except.ok.inj hTask
  exact ⟨hRule, hComp, Graph.reachable_of_nestedInversions hGraph, hValid⟩

end CircuitGraph
