import CircuitGraph.Proofs.Graph.Mirror
import CircuitGraph.Proofs.Graph.Ranking
import CircuitGraph.Proofs.Substitution.Rollback

/-
  Graphs that can be built.

  A graph is built from an empty one by edits, whether they
  succeed or not.
-/

---- Building Graphs ----

namespace CircuitGraph

namespace Graph

variable {K : Type} [Scalar K]

/-
  A graph that can be built: by edits with any arguments, by
  committing any plan, by copying, by an edit of a nested
  graph, or by taking over the content of another graph.
-/
inductive Reachable : Graph K → Prop where
  | empty (inputs outputs : List WireType) :
      Reachable (.empty inputs outputs)
  | addNode {g : Graph K} (graph : Reachable g) (kind : Kind) (params : Except Fault (List Param))
      {body : Option (Graph K)} {enclosing : Option Signature}
      (owned : body = none ∨ enclosing = none) (nested : ∀ b, body = some b → Reachable b) :
      Reachable (outcome (addNodeWith kind params body enclosing) g).2
  | removeNode {g : Graph K} (graph : Reachable g) (id : Value) (cascade : Bool) :
      Reachable (outcome (removeNode id cascade) g).2
  | connect {g : Graph K} (graph : Reachable g) (src dst : PinName) :
      Reachable (outcome (connect src dst) g).2
  | join {g : Graph K} (graph : Reachable g) (src dst : Pin) :
      Reachable (outcome (join src dst) g).2
  | disconnect {g : Graph K} (graph : Reachable g) (src dst : PinName) :
      Reachable (outcome (disconnect src dst) g).2
  | rank {g : Graph K} (graph : Reachable g) :
      Reachable (outcome topologicalRanks g).2
  | commit {g : Graph K} (graph : Reachable g) {rs : RuleSet K}
      (rules : ∀ rule ∈ rs.rules, Reachable rule.replacement) (p : Plan) :
      Reachable (outcome (rs.commit p) g).2
  | copy {g : Graph K} (graph : Reachable g) :
      Reachable g.copy
  | nested {g body body' : Graph K} (graph : Reachable g) {path : List Nat}
      (place : g.bodyAt? path = some body) (changed : Reachable body')
      (boundary : body'.signature = body.signature) :
      Reachable (g.replaceAt path body')
  | takeOver {g other : Graph K} (graph : Reachable g) (content : Reachable other)
      (boundary : other.signature = g.signature) :
      Reachable (g.takeOver other)

end Graph

def Rule.Reachable {K : Type} [Scalar K] (rule : Rule K) : Prop :=
  rule.pattern.Reachable ∧ rule.replacement.Reachable

---- What Holds at Every Level ----

namespace Graph

variable {K : Type}

/- Whether a property holds of a graph and of all graphs nested in it. -/
inductive Everywhere (Q : Graph K → Prop) : Graph K → Prop where
  | intro {g : Graph K} (here : Q g)
      (bodies : ∀ node ∈ g.ops, ∀ body, node.body = some body → Everywhere Q body) :
      Everywhere Q g

namespace Everywhere

variable {Q R : Graph K → Prop} {g : Graph K}

section

variable (hAll : Everywhere Q g)

include hAll

theorem here : Q g := by
  cases hAll with
  | intro hHere _ => exact hHere

theorem body {node : Node (Graph K)} {b : Graph K} (hN : node ∈ g.ops)
    (hB : node.body = some b) : Everywhere Q b := by
  cases hAll with
  | intro _ hBodies => exact hBodies node hN b hB

theorem mono (hImplies : ∀ g, Q g → R g) : Everywhere R g := by
  induction hAll with
  | intro hHere _ ih => exact .intro (hImplies _ hHere) ih

theorem and (hOther : Everywhere R g) : Everywhere (fun h => Q h ∧ R h) g := by
  induction hAll with
  | intro hHere _ ih =>
    exact .intro ⟨hHere, hOther.here⟩ (fun node hN b hB => ih node hN b hB (hOther.body hN hB))

theorem bodyAt? {path : List Nat} {b : Graph K} (hB : g.bodyAt? path = some b) : Everywhere Q b :=
  of_bodyAt? Everywhere.body hAll hB

end

theorem of_all (hAll : ∀ g, Q g) (g : Graph K) : Everywhere Q g := by
  induction g using nested_induction with
  | _ g ih => exact .intro (hAll g) ih

theorem intact (hAll : Everywhere (fun g => g.Sound ∧ Q g) g) : g.Intact := by
  induction hAll with
  | intro hHere _ ih => exact .intro _ hHere.1 ih

theorem of_mirrors {related : Graph K → Graph K → Prop} {g' : Graph K}
    (hMir : g.Mirrors related g') (hHere : Q g')
    (hBodies : ∀ node ∈ g.ops, ∀ b b', node.body = some b → related b b' → Everywhere Q b') :
    Everywhere Q g' := by
  refine .intro hHere (fun node' hN b' hB' => ?_)
  rcases hMir.exists_original_body hN hB' with ⟨node, hOld, b, hB, hBoth⟩
  exact hBodies node hOld b b' hB hBoth

section

variable (hLevel : ∀ (g : Graph K) ops index version, (ops.map Node.id).Perm (g.ops.map Node.id) →
    Q g → Q { g with ops := ops, index := index, version := version })
  (hAll : Everywhere (fun g => g.Sound ∧ Q g) g)

include hLevel hAll

theorem copy : Everywhere (fun g => g.Sound ∧ Q g) g.copy := by
  induction hAll with
  | @intro g hHere _ ih =>
    have hMir := hHere.1.mirrors_copy
    refine .of_mirrors hMir ⟨hMir.sound related_copy_signature hHere.1, ?_⟩ ?_
    · have hPerm := hMir.ids_perm
      rw [hHere.1.copy_eq] at hPerm ⊢
      exact hLevel g _ _ _ hPerm hHere.2
    · rintro node hN b _ hB rfl
      exact ih node hN b hB

theorem replaceAt {path : List Nat} {body body' : Graph K} (hAt : g.bodyAt? path = some body)
    (hB : Everywhere (fun g => g.Sound ∧ Q g) body')
    (hSig : body'.signature = body.signature) :
    Everywhere (fun g => g.Sound ∧ Q g) (g.replaceAt path body') := by
  refine replaceAt_induction (R := fun _ g' => Everywhere (fun g => g.Sound ∧ Q g) g')
    (fun hAll => hAll.here.1) Everywhere.body (fun hAll => hAll)
    (fun hAll hMir hRel => ?_) hSig hB hAll hAt
  refine .of_mirrors hMir ⟨hMir.sound hRel hAll.here.1, ?_⟩
  exact hLevel _ _ _ _ hMir.ids_perm hAll.here.2

end

end Everywhere

/-
  A property of a level that the empty level has and that no
  change takes away.  Nested graphs, the order of operations
  and the version do not matter for it.
-/
structure Lasting [Scalar K] (Q : Graph K → Prop) : Prop where
  empty : ∀ inputs outputs, Q (.empty inputs outputs)
  change : ∀ P g g', g.Sound → Q g → Change P g g' → Q g'
  level : ∀ (g : Graph K) ops index version, (ops.map Node.id).Perm (g.ops.map Node.id) →
    Q g → Q { g with ops := ops, index := index, version := version }
  takeOver : ∀ g other : Graph K, Q (g.takeOver other)

namespace Lasting

variable [Scalar K] {Q : Graph K → Prop} {g g' : Graph K}

theorem changes (hLasting : Lasting Q) (hHere : g.Sound ∧ Q g) {P : Graph K → Prop}
    (hChanges : Relation.ReflTransGen (Change P) g g') : g'.Sound ∧ Q g' := by
  induction hChanges with
  | refl => exact hHere
  | tail _ hChange ih => exact ⟨ih.1.of_change hChange, hLasting.change P _ _ ih.1 ih.2 hChange⟩

section

variable (hLasting : Lasting Q) (hGraph : Everywhere (fun g => g.Sound ∧ Q g) g)

include hLasting hGraph

theorem keeps {α : Type} {e : Edit K α}
    (hKeeps : Keeps (Changed (Everywhere (fun g => g.Sound ∧ Q g)) g) e) :
    Everywhere (fun g => g.Sound ∧ Q g) (outcome e g).2 := by
  have hChg := hKeeps g ⟨hGraph.here.1, fun _ hN _ hB => hGraph.body hN hB, .refl⟩
  exact .intro (hLasting.changes hGraph.here hChg.changes) hChg.bodies

theorem of_reranked (hRer : g.Reranked g') : Everywhere (fun g => g.Sound ∧ Q g) g' := by
  have hStart : Changed (Everywhere (fun g => g.Sound ∧ Q g)) g g :=
    ⟨hGraph.here.1, fun _ hN _ hB => hGraph.body hN hB, .refl⟩
  have hChg := hStart.of_reranked hRer
  exact .intro (hLasting.changes hGraph.here hChg.changes) hChg.bodies

end

theorem everywhere_takeOver (hLasting : Lasting Q) {other : Graph K}
    (hOther : Everywhere (fun g => g.Sound ∧ Q g) other)
    (hSig : other.signature = g.signature) :
    Everywhere (fun g => g.Sound ∧ Q g) (g.takeOver other) := by
  have hS := (mirrors_takeOver hSig).sound related_eq_signature hOther.here.1
  exact .intro ⟨hS, hLasting.takeOver g other⟩ (fun _ hN _ hB => hOther.body hN hB)

end Lasting

namespace Reachable

variable [Scalar K] {Q : Graph K → Prop} {g : Graph K}

theorem everywhere (hReach : g.Reachable) (hLasting : Lasting Q) :
    Everywhere (fun g => g.Sound ∧ Q g) g := by
  induction hReach with
  | empty inputs outputs =>
    refine .intro ⟨?_, hLasting.empty inputs outputs⟩ (fun _ hN => nomatch hN)
    exact ⟨by simp [Graph.empty], by simp [Graph.empty], by simp [Graph.empty],
      by simp [Graph.empty], by simp [Graph.empty, outputId], by simp [Graph.empty],
      by simp [Graph.empty], by simp [Graph.empty]⟩
  | addNode _ kind params hOwned _ ih ihBody =>
    exact hLasting.keeps ih (keeps_addNodeWith kind params hOwned ihBody)
  | removeNode _ id cascade ih => exact hLasting.keeps ih (keeps_removeNode id cascade)
  | connect _ src dst ih => exact hLasting.keeps ih (keeps_connect src dst)
  | join _ src dst ih => exact hLasting.keeps ih (keeps_join src dst)
  | disconnect _ src dst ih => exact hLasting.keeps ih (keeps_disconnect src dst)
  | rank _ ih => exact hLasting.keeps ih (fun _ hChg => hChg.step (.rerank _))
  | commit _ _ p ih ihRules =>
    refine hLasting.keeps ih (RuleSet.keeps_commit (fun rule hRule node hN b hB => ?_) p)
    exact ((ihRules rule hRule).body hN hB).copy hLasting.level
  | copy _ ih => exact ih.copy hLasting.level
  | nested _ hAt _ hSig ih ihBody => exact ih.replaceAt hLasting.level hAt ihBody hSig
  | takeOver _ _ hSig _ ihOther => exact hLasting.everywhere_takeOver ihOther hSig

theorem intact (hReach : g.Reachable) : g.Intact :=
  (hReach.everywhere (Q := fun _ => True)
    ⟨fun _ _ => trivial, fun _ _ _ _ _ _ => trivial, fun _ _ _ _ _ _ => trivial,
      fun _ _ => trivial⟩).intact

end Reachable

theorem nextId_le_of_change [Scalar K] {P : Graph K → Prop} {g g' : Graph K}
    (hChange : Change P g g') : g.nextId ≤ g'.nextId := by
  cases hChange with
  | issue => exact Nat.le_succ _
  | insertWire => rw [(alike_insertWire g _).nextId]
  | rerank => rw [(unchanged_topologicalRanks g).1.nextId]
  | _ => exact Nat.le_refl _

variable [Scalar K] [Scalar.Ordered K]

theorem lasting_kept : Lasting (fun g : Graph K => Scalar.Counts K g.nextId → g.Kept) where
  empty _ _ _ := rfl
  change _ g _ hS hKept hChange hCnt := by
    have hBef := hCnt.mono (nextId_le_of_change hChange)
    exact (hKept hBef).of_change hS hBef hChange
  level g ops _ _ hPerm hKept hCnt := by
    refine (hKept hCnt).of_level rfl rfl (fun n => ?_) (fun _ _ hEdge => hEdge)
    simp only [mem_nodeIds_iff, opIds, mem_sortIds, hPerm.mem_iff]
  takeOver _ _ _ := rfl

theorem Reachable.kept {g : Graph K} (hReach : g.Reachable) (hCnt : Scalar.Counts K g.nextId) :
    g.Kept :=
  (hReach.everywhere lasting_kept).here.2 hCnt

end Graph

theorem RuleSet.compiled_of_reachable {K : Type} [Scalar K] {rules : List (Rule K)}
    (hRules : ∀ rule ∈ rules, rule.Reachable) {rs : RuleSet K}
    (hComp : RuleSet.compile rules = .ok rs) : rs.rules = rules ∧ rs.Compiled :=
  compiled_of_compile (fun rule hRule =>
    ⟨(hRules rule hRule).1.intact, (hRules rule hRule).2.intact⟩) hComp

end CircuitGraph
