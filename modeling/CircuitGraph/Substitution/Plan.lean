import CircuitGraph.Match.Find

/-
  Plans of substitutions.

  A plan says which pins of the host stand at the boundary of
  a match.
-/

namespace CircuitGraph

/-
  What a substitution will join:
    * `sources`: the output pin that feeds each boundary input,
    * `consumers`: the input pins outside that each boundary
      output feeds,
    * `version`: the version of the graph that this holds for.
-/
structure Plan where
  found : Match
  sources : List Pin
  consumers : List (List Pin)
  version : Nat
  deriving DecidableEq, Repr, Inhabited

namespace Plan

def same (p q : Plan) : Bool :=
  p.found.same q.found && p.sources.map Pin.place == q.sources.map Pin.place
    && p.consumers.map (fun pins => pins.map Pin.place)
      == q.consumers.map (fun pins => pins.map Pin.place)

end Plan

namespace RuleSet

variable {K : Type} [Scalar K]

def boundarySource (g : Graph K) (pins : List Pin) : Except Fault (Option Pin) :=
  match pins with
  | [] => .error .outOfBounds
  | p :: _ => .ok (g.source? p.node p.index)

def sourceType (g : Graph K) (source : Option Pin) : Except Fault (Pin × WireType) :=
  match source with
  | none => .error .absent
  | some src =>
    match g.carriedType? src with
    | some t => .ok (src, t)
    | none => .error .outOfBounds

def boundaryConsumers (g : Graph K) (m : Match) (p : Pin) : List Pin :=
  (g.targets p.node p.index).filter (fun t => !Slot.covers m.nodes t.node)

def plan (rs : RuleSet K) (m : Match) : Edit K Plan := do
  if !(← rs.isLive m) then
    throw (.stale m.rule m.root)
  let g ← get
  let rule ← Edit.ofExcept (rs.rule m.rule)
  let pins ← Edit.ofExcept (m.inputs.mapM (boundarySource g))
  let sources ← Edit.ofExcept (pins.mapM (sourceType g))
  let types := sources.map Prod.snd
  if types ≠ rule.replacement.inputs then
    throw (.hostBoundary (rule.nameOr m.rule) rule.replacement.inputs types)
  return ⟨m, sources.map Prod.fst, m.outputs.map (boundaryConsumers g m), g.version⟩

/-
  The plan for the graph as it is now, made anew if the graph
  has another version, and whether it joins other pins than
  the given one.
-/
def refresh (rs : RuleSet K) (p : Plan) : Edit K (Plan × Bool) := do
  if (← get).version = p.version then
    return (p, false)
  let fresh ← rs.plan p.found
  return (fresh, !fresh.same p)

end RuleSet

end CircuitGraph
