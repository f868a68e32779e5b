import CircuitGraph.Graph.Rank
import CircuitGraph.Rule.RuleSet

/-
  Matches of patterns.

  A match binds the variables of a pattern to operations of a
  host graph.
-/

---- Matches ----

namespace CircuitGraph

/-
  A place where a rule applies:
    * `nodes`: the operation bound to each variable,
    * `inputs`: the input pins that each input of the
      pattern's boundary feeds,
    * `outputs`: the output pin behind each output of the
      pattern's boundary.
-/
structure Match where
  rule : Nat
  root : Slot
  nodes : List Slot
  inputs : List (List Pin)
  outputs : List Pin
  deriving DecidableEq, Repr, Inhabited

namespace Match

def ids (m : Match) : List Nat :=
  m.nodes.map Slot.toNat

def places (m : Match) : List (List (Nat × Nat)) × List (Nat × Nat) :=
  (m.inputs.map (fun pins => pins.map Pin.place), m.outputs.map Pin.place)

def same (m m' : Match) : Bool :=
  m.rule == m'.rule && m.root.toNat == m'.root.toNat && m.ids == m'.ids && m.places == m'.places

def overlaps (m m' : Match) : Bool :=
  m.ids.any (Slot.covers m'.nodes)

def nodeMap {K : Type} (m : Match) (rs : RuleSet K) : Except Fault (List (Nat × Slot)) := do
  return (← rs.pattern m.rule).nodes.zip m.nodes

def text (m : Match) : String :=
  let inputs := m.inputs.map (fun pins => tupled (pins.map (Pin.text .input)))
  "Match(rule=" ++ Nat.repr m.rule ++ ", root=" ++ m.root.text ++ ", nodes="
    ++ tupled (m.nodes.map Slot.text) ++ ", inputs=" ++ tupled inputs ++ ", outputs="
    ++ tupled (m.outputs.map (Pin.text .output)) ++ ")"

end Match

---- Bindings ----

namespace Constraint

variable {K : Type}

def fits (g : Graph K) (kind : Kind) (params : List Param) (n : Nat) : Bool :=
  g.kindOf? n == some kind && paramsMatch (Param.values params) (Param.values (g.paramsOf n))

def farPins (g : Graph K) (n index : Nat) : Side → List Pin
  | .input => (g.source? n index).toList
  | .output => g.targets n index

def linked (g : Graph K) (src dst : Nat × Nat) : Bool :=
  (g.source? dst.1 dst.2).any (fun p => p.place == src)

def advance (g : Graph K) (binding : List Slot) : Constraint → List (List Slot)
  | root kind params =>
    if binding.head?.any (fun s => fits g kind params s.toNat) then [binding] else []
  | follow var side index target kind params =>
    match binding[var]? with
    | none => []
    | some s =>
      ((farPins g s.toNat index side).filter (fun p =>
        p.index == target.toNat && isOpId p.node && !Slot.covers binding p.node
          && fits g kind params p.node)).map (fun p => binding ++ [p.owner])
  | link var side index other target =>
    match binding[var]?, binding[other]? with
    | some s, some t =>
      let joined :=
        match side with
        | .input => linked g (t.toNat, target.toNat) (s.toNat, index)
        | .output => linked g (s.toNat, index) (t.toNat, target.toNat)
      if joined then [binding] else []
    | _, _ => []

end Constraint

namespace Trie

variable {K : Type}

mutual

def bindings (g : Graph K) (binding : List Slot) : Trie → List (Nat × List Slot)
  | state rules branches =>
    rules.map (fun r => (r, binding)) ++ bindingsAll g binding branches

def bindingsAll (g : Graph K) (binding : List Slot) :
    List (Constraint × Trie) → List (Nat × List Slot)
  | [] => []
  | (c, t) :: rest =>
    (c.advance g binding).flatMap (fun b => bindings g b t) ++ bindingsAll g binding rest

end

end Trie

namespace RuleSet

variable {K : Type}

def bindingBefore (rs : RuleSet K) (a b : Nat × List Slot) : Bool :=
  idsBefore (rankOf rs.ranks a.1 :: a.2.map Slot.toNat)
    (rankOf rs.ranks b.1 :: b.2.map Slot.toNat)

def bindingsAt (rs : RuleSet K) (g : Graph K) (anchor : Slot) : List (Nat × List Slot) :=
  (rs.trie.bindings g [anchor]).mergeSort rs.bindingBefore

end RuleSet

end CircuitGraph
