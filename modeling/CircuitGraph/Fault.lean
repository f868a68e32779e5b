import CircuitGraph.Kind
import CircuitGraph.Pin

/-
  What can go wrong, and the texts that say so.

  A fault names its cause; the wording is in the functions
  `message`.
-/

---- Structural Faults ----

namespace CircuitGraph

/- An edit that would break a graph, or a graph that is broken. -/
inductive StructuralFault where
  | typeMismatch (src : PinName) (carried : WireType) (dst : PinName) (expected : WireType)
  | joinMismatch (wire : Wire) (carried expected : WireType)
  | inputTaken (dst : PinName)
  | outputTaken (src : PinName)
  | hasWires (node : Value) (count : Nat)
  | cycle (nodes : List Nat)
  | closedCycle (node : Slot)
  | noSource (node index : Nat)
  | wrongFanout (node index count : Nat)
  deriving Repr, Inhabited

namespace StructuralFault

def wireText (src dst : String) : String :=
  "Wire(src=" ++ src ++ ", dst=" ++ dst ++ ")"

def message : StructuralFault → String
  | typeMismatch src carried dst expected =>
    src.text ++ " carries " ++ carried.name ++ ", " ++ dst.text ++ " expects " ++ expected.name
  | joinMismatch w carried expected =>
    wireText (w.src.text .output) (w.dst.text .input) ++ " joins " ++ carried.name ++ " to "
      ++ expected.name
  | inputTaken dst => dst.text ++ " already has an incoming wire"
  | outputTaken src => src.text ++ " is linear and already wired"
  | hasWires node count =>
    "node " ++ node.plain ++ " has " ++ Nat.repr count ++ " incident wires"
  | cycle nodes => "cycle through nodes " ++ numbers nodes
  | closedCycle node => "rewrite closes a cycle through node " ++ node.text
  | noSource node index => (Pin.of node index).text .input ++ " has no incoming wire"
  | wrongFanout node index count =>
    "linear " ++ (Pin.of node index).text .output ++ " has " ++ Nat.repr count
      ++ " outgoing wires"

end StructuralFault

---- Argument Faults ----

def nodeText (id : Nat) (kind : Kind) (params : List Float) : String :=
  let args :=
    if params.isEmpty then ""
    else "(" ++ String.intercalate ", " (params.map (Decimal.general 4)) ++ ")"
  "Node(" ++ Nat.repr id ++ ", " ++ kind.name ++ args ++ ")"

/- A call with values that it cannot use. -/
inductive ArgumentFault where
  | boundaryAdded
  | boundaryRemoved
  | bodyMissing (kind : Kind)
  | bodyUnwanted (kind : Kind)
  | bodyOwned
  | selfOwned
  | paramCount (kind : Kind) (count : Nat)
  | wrongSide (pin : PinName) (side : Side)
  | unknownNode (id : Value)
  | pinRange (pin : PinName) (id : Nat) (kind : Kind) (params : List Float)
  | wireAbsent (src dst : PinName)
  | noSignature (kind : Kind)
  | notNumeric (text : String)
  | notComplex (text : String)
  | malformedComplex
  | qubitRange (qubit count : Value)
  | qubitsRepeated (kind : Kind) (qubits : List Value)
  | bitRange (bit count : Value)
  | noInverse (kind : Kind)
  | conditionalInverse
  | notCircuitShaped
  | deepCondition
  | bitsPermuted
  | noUnitary (kind : Kind)
  | notQubits
  | tooManyQubits (count limit : Nat)
  | angleDomain
  | noEntries
  | unevenShape (sides : List Nat)
  | emptyTruth
  | severalTruths
  | fewParts (expected count : Nat)
  | manyParts (expected : Nat)
  | fewLeadingParts (expected count : Nat)
  | pairLength (index count : Nat)
  | manyDigits (limit count : Nat)
  | longInteger (limit : Nat)
  | unknownMode (given : String)
  | unboundedSearch
  | iterationLimit
  | timeLimit
  | threadCount
  | queueLimit
  | verbosityRange
  | negativeWeight
  | unknownCost (given : String) (known : List String)
  deriving Repr, Inhabited

namespace ArgumentFault

def message : ArgumentFault → String
  | boundaryAdded => "boundary nodes are created with the graph"
  | boundaryRemoved => "boundary nodes cannot be removed"
  | bodyMissing kind => kind.name ++ " requires a body"
  | bodyUnwanted kind => kind.name ++ " does not take a body"
  | bodyOwned => "body graph is already owned by another node"
  | selfOwned => "graph cannot own itself"
  | paramCount kind count =>
    kind.name ++ " takes " ++ Nat.repr kind.arity ++ " params, got " ++ Nat.repr count
  | wrongSide pin side => pin.text ++ " is not an " ++ side.capitals ++ " port"
  | unknownNode id => "Unknown node " ++ id.plain
  | pinRange pin id kind params => pin.text ++ " out of range for " ++ nodeText id kind params
  | wireAbsent src dst => StructuralFault.wireText src.text dst.text ++ " is not in the graph"
  | noSignature kind => kind.name ++ " has no fixed signature"
  | notNumeric text => "could not convert string to float: " ++ quoted text
  | notComplex text => "could not convert string to complex: " ++ quoted text
  | malformedComplex => "complex() arg is a malformed string"
  | qubitRange qubit count =>
    "Qubit " ++ qubit.plain ++ " out of range for " ++ count.plain ++ "-qubit circuit"
  | qubitsRepeated kind qubits =>
    kind.name ++ " applied to repeated qubits " ++ tupled (qubits.map Value.describe)
  | bitRange bit count =>
    "Classical bit " ++ bit.plain ++ " out of range for " ++ count.plain ++ " bits"
  | noInverse kind => "inverse does not support " ++ kind.name
  | conditionalInverse => "inverse does not support conditional operations"
  | notCircuitShaped => "to_circuit needs a (qubits..., bits...) endomorphic signature"
  | deepCondition => "only single-level conditionals on a read bit linearise"
  | bitsPermuted => "classical bit wires are permuted"
  | noUnitary kind => kind.name ++ " has no unitary"
  | notQubits => "graph_unitary needs a qubit-only endomorphic signature"
  | tooManyQubits count limit =>
    Nat.repr count ++ " qubits is too many to simulate (max " ++ Nat.repr limit ++ ")"
  | angleDomain => "math domain error"
  | noEntries => "attempt to get argmax of an empty sequence"
  | unevenShape sides =>
    "setting an array element with a sequence. The requested array has an inhomogeneous shape "
      ++ "after " ++ Nat.repr sides.length ++ " dimensions. The detected shape was "
      ++ tupled (sides.map Nat.repr) ++ " + inhomogeneous part."
  | emptyTruth =>
    "The truth value of an empty array is ambiguous. Use `array.size > 0` to check that an array "
      ++ "is not empty."
  | severalTruths =>
    "The truth value of an array with more than one element is ambiguous. Use a.any() or a.all()"
  | fewParts expected count =>
    "not enough values to unpack (expected " ++ Nat.repr expected ++ ", got " ++ Nat.repr count
      ++ ")"
  | manyParts expected => "too many values to unpack (expected " ++ Nat.repr expected ++ ")"
  | fewLeadingParts expected count =>
    "not enough values to unpack (expected at least " ++ Nat.repr expected ++ ", got "
      ++ Nat.repr count ++ ")"
  | pairLength index count =>
    "dictionary update sequence element #" ++ Nat.repr index ++ " has length " ++ Nat.repr count
      ++ "; 2 is required"
  | manyDigits limit count =>
    "Exceeds the limit (" ++ Nat.repr limit ++ " digits) for integer string conversion: value has "
      ++ Nat.repr count ++ " digits; use sys.set_int_max_str_digits() to increase the limit"
  | longInteger limit =>
    "Exceeds the limit (" ++ Nat.repr limit ++ " digits) for integer string conversion; use "
      ++ "sys.set_int_max_str_digits() to increase the limit"
  | unknownMode given => "mode must be one of ('greedy', 'bounded'), got " ++ given
  | unboundedSearch => "bounded search needs max_iterations or timeout"
  | iterationLimit => "max_iterations must be >= 0"
  | timeLimit => "timeout must be > 0"
  | threadCount => "n_threads must be >= 1"
  | queueLimit => "queue_capacity must be >= 2"
  | verbosityRange => "verbosity must be 0..3"
  | negativeWeight => "weights must be non-negative"
  | unknownCost given known =>
    "Unknown cost " ++ quoted given ++ ", expected one of " ++ bracketed (known.map quoted)

end ArgumentFault

---- Pattern Faults ----

/- A pattern that cannot be searched for. -/
inductive PatternFault where
  | empty
  | container (kind : Kind) (node : Nat)
  | deadInput (index : Nat)
  | passThrough (index : Nat)
  | sharedOutput (source : Pin)
  deriving Repr, Inhabited

namespace PatternFault

def message : PatternFault → String
  | empty => "pattern has no operations"
  | container kind node => "pattern contains " ++ kind.name ++ " node " ++ Nat.repr node
  | deadInput index => "boundary input " ++ Nat.repr index ++ " feeds nothing"
  | passThrough index =>
    "boundary input " ++ Nat.repr index ++ " is wired straight to the output"
  | sharedOutput source => "boundary outputs share port " ++ source.text .output

end PatternFault

---- Faults ----

/- A description that cannot be read as a graph. -/
inductive DescriptionFault where
  | notMapping (typeName : String)
  | missingKeys (keys : List String)
  | notList (key typeName : String)
  | nodeNotMapping (entry : Value)
  | badLabel (label : Value)
  | unknownKind (label given : Value)
  deriving Repr, Inhabited

namespace DescriptionFault

def message : DescriptionFault → String
  | notMapping typeName => "expected a mapping, got " ++ typeName
  | missingKeys keys => "missing keys " ++ bracketed (keys.map quoted)
  | notList key typeName => key ++ " must be a list, got " ++ typeName
  | nodeNotMapping entry => "node entry " ++ entry.describe ++ " is not a mapping"
  | badLabel label => "missing, duplicate or non-scalar node id " ++ label.describe
  | unknownKind label given =>
    "node " ++ label.describe ++ " has unknown op " ++ given.describe

end DescriptionFault

/- Any reason for which an operation fails. -/
inductive Fault where
  | structural (fault : StructuralFault)
  | argument (fault : ArgumentFault)
  | unknownKey (key : Value)
  | outOfBounds
  | wrongType
  | incomparable
  | absent
  | overflow
  | unimplemented
  | outOfFuel
  | tooDeep
  | tooLarge
  | pattern (label : String) (fault : PatternFault)
  | illFormed (label side : String) (cause : Fault)
  | disconnected (nodes : List Nat) (root : Nat)
  | ruleBoundary (label : String) (pattern replacement : Signature)
  | hostBoundary (rule : String) (expected found : List WireType)
  | stale (rule : Nat) (root : Slot)
  | unsound (rule : String) (root : Slot) (cause : StructuralFault)
  | description (place : String) (fault : DescriptionFault)
  | wireTypes (place : String) (cause : Fault)
  | nodeEntry (place : String) (label : Value) (cause : Fault)
  | wireEntry (place : String) (entry : Value) (cause : Fault)
  | invalidGraph (cause : Fault)
  | invalidText
  deriving Repr, Inhabited

namespace Fault

def typeNames (ts : List WireType) : String :=
  bracketed (ts.map (fun t => quoted t.name))

def message : Fault → String
  | structural fault => fault.message
  | argument fault => fault.message
  | unknownKey key => key.describe
  | outOfBounds => ""
  | wrongType => "<TypeError>"
  | incomparable => ""
  | absent => ""
  | overflow => ""
  | unimplemented => ""
  | outOfFuel => ""
  | tooDeep => ""
  | tooLarge => ""
  | pattern label fault => label ++ ": " ++ fault.message
  | illFormed label side cause =>
    label ++ ": " ++ side ++ " is not well-formed: " ++ cause.message
  | disconnected nodes root =>
    "pattern is not connected: nodes " ++ numbers nodes ++ " unreachable from " ++ Nat.repr root
  | ruleBoundary label p r =>
    label ++ ": pattern boundary " ++ typeNames p.inputs ++ "->" ++ typeNames p.outputs
      ++ " != replacement " ++ typeNames r.inputs ++ "->" ++ typeNames r.outputs
  | hostBoundary rule expected found =>
    "replacement of " ++ rule ++ " expects " ++ typeNames expected ++ ", host has "
      ++ typeNames found
  | stale rule root =>
    "match of rule " ++ Nat.repr rule ++ " at node " ++ root.text ++ " no longer holds"
  | unsound rule root cause =>
    "rule " ++ rule ++ " at node " ++ root.text ++ ": " ++ cause.message
  | description place fault => place ++ ": " ++ fault.message
  | wireTypes place cause => place ++ ": unknown wire type " ++ cause.message
  | nodeEntry place label cause =>
    place ++ ": node " ++ label.describe ++ ": " ++ cause.message
  | wireEntry place entry cause =>
    place ++ ": bad wire " ++ entry.describe ++ ": " ++ cause.message
  | invalidGraph cause => cause.message
  | invalidText => "invalid JSON: <JSONDecodeError>"

end Fault

end CircuitGraph
