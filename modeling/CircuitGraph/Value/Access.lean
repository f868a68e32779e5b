import CircuitGraph.Value.Order

/-
  Parts of values that must be there.

  Where a value does not have the shape that is asked for, the
  fault says what is missing.
-/

---- Fields and Elements ----

namespace CircuitGraph

namespace Value

def get (v : Value) (name : String) : Except Fault Value :=
  match v with
  | record _ =>
    match v.field? name with
    | some w => .ok w
    | none => .error (.unknownKey (.text name))
  | _ => .error .wrongType

def items (v : Value) : Except Fault (List Value) :=
  match v.elements? with
  | some vs => .ok vs
  | none => .error .wrongType

def element (v : Value) (i : Nat) : Except Fault Value :=
  match v with
  | record _ => .error (.unknownKey (.whole i))
  | _ => do
    match (← v.items)[i]? with
    | some w => return w
    | none => throw .outOfBounds

def parts (n : Nat) (v : Value) : Except Fault (List Value) := do
  let vs ← v.items
  if vs.length < n then
    throw (.argument (.fewParts n vs.length))
  if n < vs.length then
    throw (.argument (.manyParts n))
  return vs

def leadingParts (n : Nat) (v : Value) : Except Fault (List Value) := do
  let vs ← v.items
  if vs.length < n then
    throw (.argument (.fewLeadingParts n vs.length))
  return vs

def position (v : Value) : Except Fault Int :=
  match v.position? with
  | some i => .ok i
  | none => .error .wrongType

---- Entries ----

def pair (i : Nat) (v : Value) : Except Fault (Value × Value) := do
  match ← v.items with
  | [key, value] => if key.isScalar then return (key, value) else throw .wrongType
  | vs => throw (.argument (.pairLength i vs.length))

/-
  The entries of a record, or of a sequence of pairs.  If a
  key comes twice, its last value counts.
-/
def entries (v : Value) : Except Fault (List (Value × Value)) :=
  match v with
  | record fields => .ok (fields.map (fun e => (text e.1, e.2)))
  | _ => do
    let pairs ← (← v.items).zipIdx.mapM (fun (w, i) => w.pair i)
    return pairs.foldl (fun done e => done.filter (fun d => !d.1.isSameKey e.1) ++ [e]) []

def entry? (entries : List (Value × Value)) (key : Value) : Option Value :=
  (entries.find? (fun e => e.1.isSameKey key)).map Prod.snd

---- Ids ----

def isText : Value → Bool
  | text _ => true
  | _ => false

def sortable (vs : List Value) : Bool :=
  vs.all isNumeric || vs.all isText || vs.all (fun v => !v.isPresent)

def lookups (v : Value) : Except Fault (List Value) := do
  let vs ← v.items
  if vs.all isScalar then return vs else throw .wrongType

def slots (v : Value) : Except Fault (List Slot) := do
  return (← v.lookups).filterMap Slot.ofValue?

def sortableSlots (v : Value) : Except Fault (List Slot) := do
  let vs ← v.lookups
  if sortable vs then return vs.filterMap Slot.ofValue? else throw .wrongType

end Value

end CircuitGraph
