import CircuitGraph.Circuit.Building
import CircuitGraph.Proofs.Running

/-
  Conditions under which operations are recorded.

  A builder has one current condition.  A block sets it when
  it is entered, and clears it when it is left.

  Main declarations:
    * `scopes`: the conditions that blocks give
    * `conditions_eq_scopes_iff`
-/

---- Blocks ----

namespace CircuitGraph

open List

def Attempt.isBlock : Attempt → Bool
  | block _ => true
  | _ => false

namespace Call

def records : Call → Attempt → Bool
  | .add .., .done _ => true
  | .measure .., .done _ => true
  | _, _ => false

def anyRecords (calls : List Call) (attempts : List Attempt) : Bool :=
  (calls.zip attempts).any (fun made => made.1.records made.2)

theorem anyRecords_cons (call : Call) (calls : List Call) (attempt : Attempt)
    (attempts : List Attempt) : anyRecords (call :: calls) (attempt :: attempts) =
      (call.records attempt || anyRecords calls attempts) :=
  rfl

mutual

/- The bit of the innermost open block, for each operation that is recorded. -/
def scopes (scope : Option Index) : Call → Attempt → List (Option Index)
  | .block bit calls, .block attempts =>
    scopesAll (Builder.indexOf bit).toOption calls attempts
  | call, attempt => if call.records attempt then [scope] else []

def scopesAll (scope : Option Index) : List Call → List Attempt → List (Option Index)
  | call :: calls, attempt :: attempts =>
    scopes scope call attempt ++ scopesAll scope calls attempts
  | _, _ => []

end

mutual

/- Within each block, all operations of its own come before the blocks inside of it. -/
def blocksLast : Call → Attempt → Bool
  | .block _ calls, .block attempts => blocksLastAll true calls attempts
  | _, _ => true

def blocksLastAll (inside : Bool) : List Call → List Attempt → Bool
  | call :: calls, attempt :: attempts =>
    blocksLast call attempt && blocksLastAll inside calls attempts &&
      !(inside && attempt.isBlock && anyRecords calls attempts)
  | _, _ => true

end

end Call

---- Recorded Conditions ----

namespace Builder

def conditions (b : Builder) : List (Option Index) :=
  b.circuit.ops.map Operation.condition

/-
  Operations were recorded under conditions that are those of
  `scopes` or are missing, and none is missing if `kept`.
-/
def Extends (b b' : Builder) (scopes : List (Option Index)) (kept : Prop) : Prop :=
  ∃ carried, b'.conditions = b.conditions ++ carried ∧
    Forall₂ (fun c scope => c = scope ∨ c = none) carried scopes ∧ (carried = scopes ↔ kept)

variable {b b' b'' : Builder} {scope : Option Index}

theorem Extends.refl {kept : Prop} (hKept : kept) : b.Extends b [] kept :=
  ⟨[], by simp, .nil, by simpa using hKept⟩

theorem Extends.trans {scopes scopes' : List (Option Index)} {kept kept' : Prop}
    (hL : b.Extends b' scopes kept) (hR : b'.Extends b'' scopes' kept') :
    b.Extends b'' (scopes ++ scopes') (kept ∧ kept') := by
  rcases hL with ⟨carried, hEq, hAll, hIff⟩
  rcases hR with ⟨carried', hEq', hAll', hIff'⟩
  refine ⟨carried ++ carried', by rw [hEq', hEq, append_assoc], rel_append hAll hAll', ?_⟩
  rw [← hIff, ← hIff']
  refine ⟨fun hAppend => append_inj hAppend hAll.length_eq, ?_⟩
  rintro ⟨rfl, rfl⟩
  rfl

theorem Extends.of_iff {scopes : List (Option Index)} {kept kept' : Prop}
    (hExtends : b.Extends b' scopes kept) (hIff : kept ↔ kept') : b.Extends b' scopes kept' := by
  rwa [← hIff]

theorem conditions_of_add {kind : Kind} {qubits params : List Value} {bit : Option Index}
    (hAdd : b.add kind qubits params bit = .ok b') :
    b'.conditions = b.conditions ++ [b.condition] ∧ b'.condition = b.condition := by
  unfold add at hAdd
  rcases bind_eq_ok_iff.mp hAdd with ⟨qs, -, hRest⟩
  split at hRest
  · cases hRest
  rcases bind_eq_ok_iff.mp hRest with ⟨ps, -, hLast⟩
  cases hLast
  exact ⟨by simp [conditions], rfl⟩

theorem conditions_of_measure {q c : Value} (hMeasure : b.measure q c = .ok b') :
    b'.conditions = b.conditions ++ [b.condition] ∧ b'.condition = b.condition := by
  rcases bind_eq_ok_iff.mp hMeasure with ⟨bit, -, hAdd⟩
  exact conditions_of_add hAdd

theorem indexOf_of_classicalBit {bit : Value} {c : Index} (hBit : b.classicalBit bit = .ok c) :
    indexOf bit = .ok c := by
  unfold classicalBit indexBelow at hBit
  repeat' split at hBit
  all_goals first | exact hBit | cases hBit

theorem settle_extends {made : Except Fault Builder} (hMade : ∀ b', made = .ok b' →
      b'.conditions = b.conditions ++ [b.condition] ∧ b'.condition = b.condition)
    (hScope : b.condition = scope ∨ b.condition = none) {attempt : Attempt}
    (hSettle : b.settle made = (attempt, b')) : b'.condition = b.condition ∧
      ((∃ count, attempt = .done count) ∧ b.Extends b' [scope] (b.condition = scope) ∨
        (∃ fault, attempt = .failed fault) ∧ b' = b) := by
  cases made with
  | error fault =>
    cases hSettle
    exact ⟨rfl, .inr ⟨⟨fault, rfl⟩, rfl⟩⟩
  | ok next =>
    cases hSettle
    rcases hMade _ rfl with ⟨hConditions, hCondition⟩
    exact ⟨hCondition, .inl ⟨⟨_, rfl⟩, [b.condition], hConditions, .cons hScope .nil, by simp⟩⟩

mutual

theorem run_extends {b b' : Builder} {scope : Option Index}
    (hScope : b.condition = scope ∨ b.condition = none) :
    (call : Call) → {attempt : Attempt} → b.run call = .ok (attempt, b') →
    (b'.condition = if attempt.isBlock then none else b.condition) ∧
      b.Extends b' (call.scopes scope attempt)
        ((b.condition = scope ∨ call.records attempt = false) ∧ call.blocksLast attempt = true)
  | .add kind qubits params, attempt, hRun => by
    rw [run] at hRun
    rcases settle_extends (fun _ => conditions_of_add) hScope (Except.ok.inj hRun) with
      ⟨hCondition, ⟨⟨count, rfl⟩, hExtends⟩ | ⟨⟨fault, rfl⟩, rfl⟩⟩
    · exact ⟨hCondition, by simpa [Call.scopes, Call.records, Call.blocksLast] using hExtends⟩
    · exact ⟨rfl, .refl ⟨.inr rfl, rfl⟩⟩
  | .measure q c, attempt, hRun => by
    rw [run] at hRun
    rcases settle_extends (fun _ => conditions_of_measure) hScope (Except.ok.inj hRun) with
      ⟨hCondition, ⟨⟨count, rfl⟩, hExtends⟩ | ⟨⟨fault, rfl⟩, rfl⟩⟩
    · exact ⟨hCondition, by simpa [Call.scopes, Call.records, Call.blocksLast] using hExtends⟩
    · exact ⟨rfl, .refl ⟨.inr rfl, rfl⟩⟩
  | .inverse, attempt, hRun => by
    rw [run, checkInverse] at hRun
    cases hInverse : b.circuit.inverse <;> rw [hInverse] at hRun <;> cases hRun <;>
      exact ⟨rfl, .refl ⟨.inr rfl, rfl⟩⟩
  | .block bit calls, attempt, hRun => by
    rw [run] at hRun
    split at hRun
    · cases hRun
      exact ⟨rfl, .refl ⟨.inr rfl, rfl⟩⟩
    · cases hRun
    · rename_i c hBit
      rcases bind_eq_ok_iff.mp hRun with ⟨⟨attempts, inner⟩, hIn, hLast⟩
      cases hLast
      rcases runAll_extends (.inl rfl) calls hIn with ⟨carried, hConditions, hAll, hIff⟩
      refine ⟨rfl, carried, hConditions, ?_⟩
      rw [Call.scopes, Call.blocksLast, indexOf_of_classicalBit hBit]
      simpa [Except.toOption, Call.records] using And.intro hAll hIff
  | .refused fault, attempt, hRun => by
    rw [run] at hRun
    cases hRun
    exact ⟨rfl, .refl ⟨.inr rfl, rfl⟩⟩
  | .broken fault, attempt, hRun => by
    rw [run] at hRun
    cases hRun

theorem runAll_extends {b b' : Builder} {scope : Option Index}
    (hScope : b.condition = scope ∨ b.condition = none) :
    (calls : List Call) → {attempts : List Attempt} → b.runAll calls = .ok (attempts, b') →
    b.Extends b' (Call.scopesAll scope calls attempts)
      ((b.condition = scope ∨ Call.anyRecords calls attempts = false) ∧
        Call.blocksLastAll scope.isSome calls attempts = true)
  | [], attempts, hRun => by
    rw [runAll] at hRun
    cases hRun
    exact .refl ⟨.inr rfl, rfl⟩
  | call :: calls, attempts, hRun => by
    rw [runAll] at hRun
    rcases bind_eq_ok_iff.mp hRun with ⟨⟨attempt, next⟩, hHead, hRest⟩
    rcases bind_eq_ok_iff.mp hRest with ⟨⟨rest, last⟩, hTail, hLast⟩
    cases hLast
    rcases run_extends hScope call hHead with ⟨hCondition, hFirst⟩
    have hNext : next.condition = scope ∨ next.condition = none := by
      rw [hCondition]
      split
      · exact .inr rfl
      · exact hScope
    refine (hFirst.trans (runAll_extends hNext calls hTail)).of_iff ?_
    have hMade : attempt.isBlock = true → call.records attempt = false := by
      cases attempt <;> cases call <;> simp [Call.records, Attempt.isBlock]
    -- Outside of all blocks, the missing condition is the right one.
    have hOut : scope.isSome = false ↔ none = scope := by cases scope <;> simp
    rw [hCondition, Call.anyRecords_cons, Call.blocksLastAll]
    cases hBlock : attempt.isBlock with
    | false => grind
    | true => grind

end

/-
  Each operation has the bit of the innermost open block as
  its condition or none at all; it is none for operations
  outside of all blocks.  No condition is lost if and only if
  no operation comes in a block after another block in it.
-/
theorem conditions_eq_scopes_iff
    (qubits bits : Value)
    (calls : List Call)
    (attempts : List Attempt)
    (b : Builder)
    (hRun : (start qubits bits).runAll calls = .ok (attempts, b)) :
    Forall₂ (fun c scope => c = scope ∨ c = none) b.conditions
        (Call.scopesAll none calls attempts) ∧
      (b.conditions = Call.scopesAll none calls attempts ↔
        Call.blocksLastAll false calls attempts = true) := by
  rcases runAll_extends (.inl rfl) calls hRun with ⟨carried, hConditions, hAll, hIff⟩
  rw [show b.conditions = carried from hConditions]
  exact ⟨hAll, by simpa [start] using hIff⟩

/- Two blocks, one in the other, with an operation of the outer one before or after the inner. -/
def nested (before after : List Call) : List Call :=
  [.block (.whole 0) (before ++ [.block (.whole 1) [.add .y [.whole 0] []]] ++ after)]

def nestedRun (before after : List Call) : List Attempt × Builder :=
  ((start (.whole 1) (.whole 2)).runAll (nested before after)).toOption.getD default

theorem conditions_eq_scopes_iff_nested :
    (nestedRun [.add .x [.whole 0] []] []).2.conditions = [some (.number 0), some (.number 1)] := by
  have hRun : (start (.whole 1) (.whole 2)).runAll (nested [.add .x [.whole 0] []] []) =
      .ok (nestedRun [.add .x [.whole 0] []] []) := rfl
  exact (conditions_eq_scopes_iff _ _ _ _ _ hRun).2.mpr (by decide)

theorem condition_lost_after_block :
    (nestedRun [.add .x [.whole 0] []] [.add .z [.whole 0] []]).2.conditions =
        [some (.number 0), some (.number 1), none] ∧
      Call.scopesAll none (nested [.add .x [.whole 0] []] [.add .z [.whole 0] []])
          (nestedRun [.add .x [.whole 0] []] [.add .z [.whole 0] []]).1 =
        [some (.number 0), some (.number 1), some (.number 0)] :=
  ⟨rfl, rfl⟩

end Builder

end CircuitGraph
