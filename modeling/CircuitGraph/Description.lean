import CircuitGraph.Graph.Copy
import CircuitGraph.Graph.Validity
import CircuitGraph.Value.Access
import CircuitGraph.Value.Json

/-
  Plain descriptions of graphs.

  A description is a record with the types of both boundaries,
  a list of node entries and a list of wires.
-/

---- Labels ----

namespace CircuitGraph

/- What a label is compared by; a truth value counts as its number. -/
inductive Label where
  | text (s : String)
  | number (i : Int)
  deriving DecidableEq, Repr, Inhabited

namespace Label

def ofValue? : Value → Option Label
  | .text s => some (text s)
  | .whole i => some (number i)
  | .truth b => some (number b.toNat)
  | _ => none

/-
  The label that the end of a wire refers to.  Lists and
  records cannot be compared with labels; a number may be
  written as a decimal.
-/
def ofReference (v : Value) : Except Fault (Option Label) :=
  match v with
  | .list _ | .record _ => .error .wrongType
  | .decimal x => .ok ((Binary64.integer? x).map number)
  | v => .ok (ofValue? v)

end Label

abbrev LabelMap : Type :=
  List (Label × Nat)

namespace LabelMap

def boundary : LabelMap :=
  [(.text "input", inputId), (.text "output", outputId)]

def find? (m : LabelMap) (l : Label) : Option Nat :=
  (List.find? (fun entry => entry.1 == l) m).map Prod.snd

def resolve (m : LabelMap) (v : Value) : Except Fault Nat := do
  match (← Label.ofReference v).bind m.find? with
  | some n => return n
  | none => throw (.unknownKey v)

end LabelMap

---- Long Integers ----

namespace Value

mutual

/- Whether a value holds an integer of more digits than a text may spell. -/
def isLong : Value → Bool
  | whole i => Nat.pow 10 Json.digitLimit ≤ i.natAbs
  | list items => anyLong items
  | record fields => anyFieldLong fields
  | _ => false

def anyLong : List Value → Bool
  | [] => false
  | v :: vs => isLong v || anyLong vs

def anyFieldLong : List (String × Value) → Bool
  | [] => false
  | (_, v) :: fields => isLong v || anyFieldLong fields

end

end Value

namespace Fault

def tooLong : Fault :=
  .argument (.longInteger Json.digitLimit)

/- Whether the message of a refusal would spell an integer that is too long. -/
def isLong : Fault → Bool
  | .description _ (.nodeNotMapping v) | .description _ (.badLabel v) | .nodeEntry _ v _
  | .wireEntry _ v _ | .wireTypes _ (.unknownKey v) => v.isLong
  | .description _ (.unknownKind label given) => label.isLong || given.isLong
  | _ => false

end Fault

---- Parts of a Description ----

namespace Description

def wireType (v : Value) : Except Fault WireType :=
  match v with
  | .text s =>
    match WireType.ofName? s with
    | some t => .ok t
    | none => .error (.unknownKey v)
  | .list _ | .record _ => .error .wrongType
  | _ => .error (.unknownKey v)

def wireTypes (place : String) (v : Value) : Except Fault (List WireType) :=
  let types :=
    match v.elements? with
    | some names => names.mapM wireType
    | none => .error .wrongType
  match types with
  | .ok ts => .ok ts
  | .error cause => .error (.wireTypes place cause)

def keys : List String :=
  ["inputs", "nodes", "outputs", "wires"]

def items (place key : String) (v : Value) : Except Fault (List Value) :=
  match v.field? key with
  | some (.list entries) => .ok entries
  | some other => .error (.description place (.notList key other.typeName))
  | none => .error (.description place (.missingKeys [key]))

def checkKeys (place : String) (v : Value) : Except Fault Unit :=
  match v with
  | .record _ =>
    let missing := keys.filter (fun key => (v.field? key).isNone)
    if missing.isEmpty then .ok () else .error (.description place (.missingKeys missing))
  | _ => .error (.description place (.notMapping v.typeName))

def entryLabel (place : String) (labels : LabelMap) (entry : Value) :
    Except Fault (Value × Label) :=
  match entry with
  | .record _ =>
    let label := (entry.field? "id").getD .null
    match Label.ofValue? label with
    | some l =>
      if (labels.find? l).isSome then .error (.description place (.badLabel label))
      else .ok (label, l)
    | none => .error (.description place (.badLabel label))
  | _ => .error (.description place (.nodeNotMapping entry))

def entryKind (place : String) (label entry : Value) : Except Fault Kind :=
  let given := (entry.field? "op").getD .null
  let found :=
    match given with
    | .text s => Kind.ofName? s
    | _ => none
  match found with
  | some kind => .ok kind
  | none => .error (.description place (.unknownKind label given))

def nestedPlace (place : String) (label : Value) : Except Fault String :=
  if label.isLong then .error .tooLong else .ok (place ++ "/" ++ label.plain)

def entryParams (entry : Value) : Except Fault (List Value) :=
  match entry.field? "params" with
  | none => .ok []
  | some v => v.items

def entryBody? (entry : Value) : Option Value :=
  match entry.field? "body" with
  | some .null => none
  | body => body

def wireParts (entry : Value) : Except Fault (Value × Value × Value × Value) :=
  match entry.parts 4 with
  | .ok [s, si, d, di] => .ok (s, si, d, di)
  | .ok _ => .error .wrongType
  | .error fault => .error fault

end Description

---- Nested Descriptions Are Smaller ----

namespace Value

theorem sizeOf_field?_lt {v w : Value} {key : String} (h : v.field? key = some w) :
    sizeOf w < sizeOf v := by
  cases v with
  | record fields =>
    simp only [field?, Option.map_eq_some_iff] at h
    obtain ⟨entry, hFind, rfl⟩ := h
    have hLt := List.sizeOf_lt_of_mem (List.mem_of_find?_eq_some hFind)
    cases entry
    simp at hLt
    simp
    omega
  | _ => simp [field?] at h

end Value

namespace Description

theorem sizeOf_items_lt {place key : String} {v entry : Value} {entries : List Value}
    (h : items place key v = .ok entries) (hMem : entry ∈ entries) : sizeOf entry < sizeOf v := by
  rw [items] at h
  split at h
  · next found hField =>
    injection h with h
    subst h
    have hLt := Value.sizeOf_field?_lt hField
    have hItem := List.sizeOf_lt_of_mem hMem
    simp at hLt
    omega
  · simp at h
  · simp at h

theorem sizeOf_entryBody?_lt {entry body : Value} (h : entryBody? entry = some body) :
    sizeOf body < sizeOf entry := by
  rw [entryBody?] at h
  split at h
  · simp at h
  · exact Value.sizeOf_field?_lt h

---- From Descriptions to Graphs ----

variable {K : Type} [Scalar K]

def blame {α : Type} (wrap : Fault → Fault) (e : Edit K α) : Edit K α :=
  tryCatch e (fun fault =>
    match fault with
    | .overflow => throw fault
    | fault => throw (wrap fault))

/-
  Adds the node of an entry.  The nested graph is given as a
  function of its place in the description.
-/
def addEntry (place : String) (labels : LabelMap) (entry : Value)
    (nested : Option (String → Except Fault (Graph K))) : Edit K LabelMap := do
  let (label, l) ← Edit.ofExcept (entryLabel place labels entry)
  let kind ← Edit.ofExcept (entryKind place label entry)
  let body ←
    match nested with
    | some build => do
      let body ← Edit.ofExcept (nestedPlace place label >>= build)
      pure (some body)
    | none => pure none
  let n ← blame (Fault.nodeEntry place label) (do
    let params ← Edit.ofExcept (entryParams entry)
    Graph.addNode kind params body)
  return labels ++ [(l, n)]

def addWire (place : String) (labels : LabelMap) (entry : Value) : Edit K Unit :=
  blame (Fault.wireEntry place entry) (do
    let (s, si, d, di) ← Edit.ofExcept (wireParts entry)
    let src ← Edit.ofExcept (labels.resolve s)
    let dst ← Edit.ofExcept (labels.resolve d)
    let _ ← Graph.connect ⟨.output, .whole src, si⟩ ⟨.input, .whole dst, di⟩)

end Description

namespace Graph

variable {K : Type} [Scalar K]

def ofDescriptionAt (place : String) (v : Value) : Except Fault (Graph K) := do
  Description.checkKeys place v
  let inputs ← Description.wireTypes place ((v.field? "inputs").getD .null)
  let outputs ← Description.wireTypes place ((v.field? "outputs").getD .null)
  match _h : Description.items place "nodes" v with
  | .error fault => throw fault
  | .ok nodes =>
    let wires ← Description.items place "wires" v
    let nested := nodes.attach.map (fun ⟨entry, _hMem⟩ =>
      match _hBody : Description.entryBody? entry with
      | some body => (entry, some (fun inner => ofDescriptionAt inner body))
      | none => (entry, none))
    let edit : Edit K Unit := do
      let labels ← nested.foldlM (fun labels (entry, body) =>
        Description.addEntry place labels entry body) LabelMap.boundary
      wires.forM (Description.addWire place labels)
    edit.build (.empty inputs outputs)
termination_by sizeOf v
decreasing_by
  exact Nat.lt_trans (Description.sizeOf_entryBody?_lt _hBody)
    (Description.sizeOf_items_lt _h _hMem)

/- What is refused is reported, unless the report itself fails. -/
def ofDescriptionUnchecked (v : Value) : Except Fault (Graph K) :=
  match ofDescriptionAt "graph" v with
  | .ok g => .ok g
  | .error fault => .error (if fault.isLong then .tooLong else fault)

def ofDescription (v : Value) : Except Fault (Graph K) := do
  let g ← ofDescriptionUnchecked v
  match g.validate with
  | .ok _ => return g
  | .error cause => throw (.invalidGraph cause)

---- From Graphs to Descriptions ----

variable {K : Type}

/- The label of a node in an exported description; operations keep their spelling. -/
def exportLabel (s : Slot) : Value :=
  if s.toNat = inputId then .text "input"
  else if s.toNat = outputId then .text "output"
  else s.toValue

def exportWire (w : Wire) : Value :=
  .list [exportLabel w.src.owner, w.src.slot.toValue, exportLabel w.dst.owner,
    w.dst.slot.toValue]

def exportTypes (ts : List WireType) : Value :=
  .list (ts.map (fun t => .text t.name))

def exportNode (bodies : List (Nat × Value)) (node : Node (Graph K)) : Value :=
  let body :=
    match valueOf? bodies node.id with
    | some v => [("body", v)]
    | none => []
  .record ([("id", .whole node.id), ("op", .text node.kind.name),
    ("params", .list ((Param.values node.params).map Value.decimal))] ++ body)

def toDescription (g : Graph K) : Value :=
  g.fold (fun g bodies =>
    .record [("inputs", exportTypes g.inputs), ("outputs", exportTypes g.outputs),
      ("nodes", .list (g.sortedOps.map (exportNode bodies))),
      ("wires", .list (g.sortedWires.map exportWire))])

def write (g : Graph K) : String :=
  g.toDescription.render

def read [Scalar K] (s : String) : Except Fault (Graph K) :=
  match Value.read s with
  | .ok v => ofDescription v
  | .error fault => .error fault

end Graph

end CircuitGraph
