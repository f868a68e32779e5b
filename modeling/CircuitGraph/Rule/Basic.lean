import CircuitGraph.Graph.OfCircuit
import CircuitGraph.Graph.Validity

/-
  Rules: a pattern and what may stand in its place.

  Pattern and replacement are graphs with the same boundary.
  Where several rules apply at one place, the one of higher
  priority comes first.
-/

---- Rules ----

namespace CircuitGraph

/- A pattern, its replacement and the rank of the rule among others. -/
structure Rule (K : Type) where
  pattern : Graph K
  replacement : Graph K
  priority : Value
  name : Value

namespace Rule

variable {K : Type}

def label (rule : Rule K) : String :=
  (rule.name.orElse (.text "rule")).plain

def nameOr (rule : Rule K) (number : Nat) : String :=
  (rule.name.orElse (.whole number)).plain

def kindsText (c : Circuit) : String :=
  String.intercalate "," (c.ops.map (fun op => op.kind.lowerName))

def ofCircuits [Scalar K] (lhs rhs : Circuit) (priority name : Value) : Except Fault (Rule K) := do
  let pattern ← Graph.ofCircuit lhs
  let replacement ← Graph.ofCircuit rhs
  let kinds := kindsText lhs ++ "->" ++ kindsText rhs
  return ⟨pattern, replacement, priority, name.orElse (.text kinds)⟩

end Rule

/-
  A rule as it is handed over to be compiled: by itself, or as
  its two graphs followed by a priority and a name, which may
  be left out.
-/
inductive RuleEntry (K : Type) where
  | rule (rule : Rule K)
  | parts (pattern replacement : Graph K) (rest : List Value)

namespace RuleEntry

variable {K : Type}

def toRule : RuleEntry K → Except Fault (Rule K)
  | rule r => .ok r
  | parts pattern replacement [] => .ok ⟨pattern, replacement, .whole 0, .text ""⟩
  | parts pattern replacement [priority] => .ok ⟨pattern, replacement, priority, .text ""⟩
  | parts pattern replacement [priority, name] => .ok ⟨pattern, replacement, priority, name⟩
  | parts .. => .error .wrongType

def asRule : RuleEntry K → Except Fault (Rule K)
  | rule r => .ok r
  | parts .. => .error .absent

end RuleEntry

---- Usable Patterns ----

namespace Graph

variable {K : Type}

def containerFault? (g : Graph K) : Option PatternFault :=
  g.opIds.findSome? (fun n =>
    match g.kindOf? n with
    | some kind => if kind.isContainer then some (.container kind n) else none
    | none => none)

def inputFault? (g : Graph K) (i : Nat) : Option PatternFault :=
  match g.targets inputId i with
  | [] => some (.deadInput i)
  | pins => if pins.any (fun p => p.node == outputId) then some (.passThrough i) else none

def firstRepeated? (seen : List Pin) : List Pin → Option Pin
  | [] => none
  | p :: ps => if seen.any p.same then some p else firstRepeated? (p :: seen) ps

def outputSources (g : Graph K) : List Pin :=
  (List.range g.outputs.length).filterMap (g.source? outputId)

def patternFault? (g : Graph K) : Option PatternFault :=
  if g.ops.isEmpty then some .empty
  else
    g.containerFault?
      <|> (List.range g.inputs.length).findSome? g.inputFault?
      <|> (firstRepeated? [] g.outputSources).map .sharedOutput

end Graph

namespace Rule

variable {K : Type}

def checkSide (label side : String) (g : Graph K) : Except Fault Unit :=
  match g.validate with
  | .ok _ => .ok ()
  | .error cause => .error (.illFormed label side cause)

def check (rule : Rule K) : Except Fault Unit := do
  checkSide rule.label "pattern" rule.pattern
  checkSide rule.label "replacement" rule.replacement
  if rule.pattern.signature ≠ rule.replacement.signature then
    throw (.ruleBoundary rule.label rule.pattern.signature rule.replacement.signature)
  match rule.pattern.patternFault? with
  | some fault => throw (.pattern rule.label fault)
  | none => return ()

end Rule

end CircuitGraph
