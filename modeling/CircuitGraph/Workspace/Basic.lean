import CircuitGraph.Optimize.Outcome

/-
  A workspace of named graphs.

  A name holds a place: a graph that stands by itself, and the
  path of container ids that leads from there to a nested
  graph.
-/

---- Workspaces ----

namespace CircuitGraph

/- Where a graph is: the number of a root and a path below it. -/
structure Place where
  root : Nat
  path : List Nat
  deriving DecidableEq, Repr, Inhabited

/-
  Graphs with their names, the rules in use, the matches found
  last, plans by name, and all events so far.  A name may also
  hold nothing.  Each loop is a root that is a body inside of
  itself, with the path of its container.
-/
structure Workspace (K : Type) where
  roots : List (Nat × Graph K)
  loops : List (Nat × List Nat)
  names : List (Value × Option Place)
  nextRoot : Nat
  rules : Option (RuleSet K)
  found : List Match
  plans : List (Value × Plan)
  events : List (Event K)

/- A step in a workspace: it may fail, and what was done before stays done. -/
abbrev Action (K : Type) (α : Type) : Type :=
  ExceptT Fault (StateM (Workspace K)) α

namespace Workspace

variable {K : Type} {α : Type}

def empty : Workspace K :=
  ⟨[], [], [], 0, none, [], [], []⟩

def entry? (entries : List (Value × α)) (name : Value) : Option α :=
  (entries.find? (fun e => e.1.isSameKey name)).map Prod.snd

def setEntry (entries : List (Value × α)) (name : Value) (a : α) : List (Value × α) :=
  (name, a) :: entries.filter (fun e => !e.1.isSameKey name)

def held? (w : Workspace K) (name : Value) : Option (Option Place) :=
  entry? w.names name

def graphAt? (w : Workspace K) (p : Place) : Option (Graph K) :=
  (Graph.valueOf? w.roots p.root).bind (fun g => g.bodyAt? p.path)

def loop? (w : Workspace K) (root : Nat) : Option (List Nat) :=
  Graph.valueOf? w.loops root

/-
  The graph at a place with all that is inside of it.  On a
  circle the graphs around it are inside of it too, up to the
  container that it is the body of.
-/
def seenAt? (w : Workspace K) (p : Place) : Option (Graph K) := do
  let g ← w.graphAt? p
  match w.loop? p.root with
  | none => return g
  | some loop =>
    if p.path.isEmpty || !p.path.isPrefixOf loop then
      return g
    else
      let outer ← w.graphAt? ⟨p.root, []⟩
      return g.fillAt (loop.drop p.path.length) (outer.openAt p.path)

def graph? (w : Workspace K) (name : Value) : Option (Graph K) :=
  ((w.held? name).join).bind w.seenAt?

def setGraph (w : Workspace K) (p : Place) (g : Graph K) : Workspace K :=
  { w with
    roots := w.roots.map (fun e =>
      if e.1 = p.root then (e.1, e.2.replaceAt p.path g) else e) }

def setName (w : Workspace K) (name : Value) (p : Option Place) : Workspace K :=
  { w with names := setEntry w.names name p }

def addGraph (w : Workspace K) (name : Value) (g : Graph K) : Workspace K :=
  { w.setName name (some ⟨w.nextRoot, []⟩) with
    roots := w.roots ++ [(w.nextRoot, g)]
    nextRoot := w.nextRoot + 1 }

def movePlaces (w : Workspace K) (move : Place → Place) : Workspace K :=
  { w with names := w.names.map (fun e => (e.1, e.2.map move)) }

---- Actions ----

def ofExcept (r : Except Fault α) : Action K α :=
  match r with
  | .ok a => pure a
  | .error fault => throw fault

def note (e : Event K) : Action K Unit :=
  modify (fun w => { w with events := w.events ++ [e] })

def noting (c : Noting K α) : Action K α := do
  let (outcome, events) := c.runOn (← get).events
  modify (fun w => { w with events := events })
  ofExcept outcome

def checkName (name : Value) : Action K Unit :=
  if name.isScalar then pure () else throw .wrongType

def held (name : Value) : Action K (Option Place) := do
  checkName name
  match (← get).held? name with
  | some p => return p
  | none => throw (.unknownKey name)

def hold (name : Value) (g : Graph K) : Action K Unit := do
  checkName name
  modify (fun w => w.addGraph name g)

def place (name : Value) : Action K Place := do
  match ((← get).held? name).join with
  | some p => return p
  | none => throw .absent

def graphAt (p : Place) : Action K (Graph K) := do
  match (← get).graphAt? p with
  | some g => return g
  | none => throw .absent

def graphOr (fault : Fault) (name : Value) : Action K (Graph K) := do
  match (← get).graph? name with
  | some g => return g
  | none => throw fault

def graph (name : Value) : Action K (Graph K) :=
  graphOr .absent name

def finiteGraph (name : Value) : Action K (Graph K) := do
  let g ← graph name
  if g.isFinite then return g else throw .tooDeep

def query (name : Value) (f : Graph K → Except Fault α) : Action K α := do
  ofExcept (f (← graph name))

def finiteQuery (name : Value) (f : Graph K → Except Fault α) : Action K α := do
  ofExcept (f (← finiteGraph name))

end Workspace

end CircuitGraph
