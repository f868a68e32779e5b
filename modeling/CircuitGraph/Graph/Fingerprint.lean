import CircuitGraph.Digest.Blake2b
import CircuitGraph.Graph.Order

/-
  Fingerprints of graphs.

  The digest of a node covers its kind, its parameters, its
  nested graph and the digests of the nodes that feed it, with
  the places that the wires leave from.
-/

---- Messages ----

namespace CircuitGraph

abbrev Digest : Type :=
  List UInt8

namespace Digest

def ofText (s : String) : List UInt8 :=
  s.toUTF8.toList

def hex (d : Digest) : String :=
  String.ofList (d.flatMap (fun b => Quoted.hex 2 b.toNat))

def before : Digest → Digest → Bool
  | [], _ => true
  | _ :: _, [] => false
  | a :: as, b :: bs => a < b || (a == b && before as bs)

end Digest

namespace Graph

variable {K : Type}

def sourceMessage (g : Graph K) (digests : List (Nat × Digest)) (n i : Nat) : List UInt8 :=
  match g.source? n i with
  | some p => (valueOf? digests p.node).getD [] ++ Digest.ofText p.slot.text
  | none => Digest.ofText "-" ++ Digest.ofText "-1"

def nodeMessage (g : Graph K) (bodies : List (Nat × Except Fault Digest))
    (digests : List (Nat × Digest)) (n : Nat) : Except Fault (List UInt8) := do
  let kind := (g.kindOf? n).getD .input
  let params := tupled ((Param.values (g.paramsOf n)).map Layout.value.write)
  let nested ←
    match valueOf? bodies n with
    | some body => body.map (fun digest => Digest.ofText digest.hex)
    | none => pure []
  let types :=
    if n = inputId then Digest.ofText (Fault.typeNames g.inputs) else []
  let sources :=
    (List.range (g.signatureOf n).inputs.length).flatMap (g.sourceMessage digests n)
  return Digest.ofText kind.name ++ Digest.ofText params ++ nested ++ types ++ sources

---- Digests ----

def nodeDigests (hash : List UInt8 → Digest) (g : Graph K)
    (bodies : List (Nat × Except Fault Digest)) : Except Fault (List (Nat × Digest)) := do
  let order ← g.topologicalOrder
  order.foldlM (fun digests n => do
    let message ← g.nodeMessage bodies digests n
    return (n, hash message) :: digests) []

def digestWith (hash : List UInt8 → Digest) (g : Graph K) : Except Fault Digest :=
  g.foldWith (.error .tooDeep) (fun g bodies => do
    let digests ← g.nodeDigests hash bodies
    return hash ((digests.map Prod.snd).mergeSort Digest.before).flatten)

def fingerprint (g : Graph K) : Except Fault String := do
  return (← g.digestWith digest16).hex

end Graph

end CircuitGraph
