import CircuitGraph.Optimize.Run

/-
  Greedy optimisation of one level.

  In every iteration a batch of improving matches without
  common operations is applied.
-/

---- Selection ----

namespace CircuitGraph

namespace Greedy

variable {K : Type} [Scalar K]

def orderKey (ranks : List Nat) (m : Match) : List Nat :=
  RuleSet.rankOf ranks m.rule :: m.root.toNat :: m.ids

def before (ranks : List Nat) (a b : K × Match) : Bool :=
  if b.1 < a.1 then true
  else if a.1 < b.1 then false
  else idsBefore (orderKey ranks a.2) (orderKey ranks b.2)

def improving (gains : List K) (ms : List Match) : List (K × Match) :=
  ms.filterMap (fun m =>
    match gains[m.rule]? with
    | some gain => if ((0 : Nat) : K) < gain then some (gain, m) else none
    | none => none)

def disjoint (claimed : List Nat) : List Match → List Match
  | [] => []
  | m :: ms =>
    if m.ids.any (fun n => claimed.contains n) then disjoint claimed ms
    else m :: disjoint (claimed ++ m.ids) ms

/- The batch for a local cost: the best matches without common operations. -/
def batchOf (ranks : List Nat) (gains : List K) (ms : List Match) : List Match :=
  disjoint [] (((improving gains ms).mergeSort (before ranks)).map Prod.snd)

def trialGain (t : Task K) (path : List Nat) (current : K) (m : Match) :
    Search K (Option (K × Match)) := do
  match ← Search.applyTo t (← get).level m with
  | none => return none
  | some (_, trial) =>
    let gain := current - (← Search.score t path trial)
    if ((0 : Nat) : K) < gain then
      return some (gain, m)
    else
      return none

def trialGains (t : Task K) (path : List Nat) (current : K) :
    List Match → Search K (List (K × Match))
  | [] => return []
  | m :: ms => do
    let scored ← trialGain t path current m
    let others ← trialGains t path current ms
    return scored.toList ++ others

/-
  The batch to apply.  Gains in a cost of whole graphs do not
  add up, so only the single best match is taken then.
-/
def select (t : Task K) (path : List Nat) (ms : List Match) : Search K (List Match) := do
  if t.cost.isLocal then
    return batchOf t.rules.ranks t.gains ms
  else
    let current ← Search.score t path (← get).level
    let scored ← trialGains t path current ms
    return ((scored.mergeSort (before t.rules.ranks)).map Prod.snd).take 1

---- Batches ----

def planLive (t : Task K) (m : Match) : Search K (Match × Option Plan) := do
  let (outcome, g) := (t.rules.plan m).runOn (← get).level
  modify (fun r => { r with level := g })
  match outcome with
  | .ok p => return (m, some p)
  | .error (.stale ..) => return (m, none)
  | .error fault => throw fault

def commitLive (t : Task K) (p : Plan) : Search K (Option Step) := do
  let (refreshed, g) := (t.rules.refresh p).runOn (← get).level
  modify (fun r => { r with level := g })
  match refreshed with
  | .error (.stale ..) => return none
  | .error fault => throw fault
  | .ok (fresh, moved) =>
    if moved then
      Search.note (.planMoved p.found)
    let step ← Search.onLevel (t.rules.carryOut fresh)
    Search.note (.substituted step)
    return some step

def commitAll (t : Task K) : List (Match × Option Plan) → Search K (List Step × List Match)
  | [] => return ([], [])
  | (m, planned) :: rest => do
    let step ←
      match planned with
      | some p => commitLive t p
      | none => pure none
    let (steps, stale) ← commitAll t rest
    match step with
    | some s => return (s :: steps, stale)
    | none => return (steps, m :: stale)

def applyBatch (t : Task K) (batch : List Match) : Search K (List Step × List Match) := do
  commitAll t (← batch.mapM (planLive t))

def recordBatch (t : Task K) (path : List Nat) (steps : List Step) : Search K Unit := do
  modify (fun r =>
    { r with
      iterations := r.iterations + 1
      log := r.log ++ steps.map (fun s => { s with path := path }) })
  let r ← get
  Search.measure t (r.root.replaceAt path r.level) steps.length
  Search.note (.batchDone r.iterations path steps.length)

---- The Loop ----

def byRoot (ms : List Match) : List Match :=
  ms.mergeSort (fun a b => a.root.toNat ≤ b.root.toNat)

def rematch (t : Task K) (steps : List Step) (ms : List Match) : Search K (List Match) := do
  let near := (← get).level.neighbourhood (sortSlots (steps.flatMap Step.touched)) t.rules.radius
  let changed := near ++ steps.flatMap Step.removed
  let found ← Search.findInLevel t (some near)
  return byRoot (ms.filter (fun m => !Slot.covers changed m.root.toNat) ++ found)

/-
  Applies batches until nothing improves or the budget is
  spent.  The matches known are `ms`; `fresh` says that they
  are all matches there are.
-/
def loop (t : Task K) (path : List Nat) : Nat → Bool → List Match → Search K (Option Status)
  | 0, _, _ => throw .outOfFuel
  | fuel + 1, fresh, ms => do
    let batch ← select t path ms
    if batch.isEmpty then
      if fresh then
        return none
      else
        loop t path fuel true (← Search.findInLevel t none)
    else
      match ← Search.exceeded t with
      | some stop => return some stop
      | none =>
        let (steps, stale) ← applyBatch t batch
        stale.forM (fun m => Search.note (.staleDropped m))
        let known := stale.foldl List.erase ms
        if steps.isEmpty then
          loop t path fuel fresh known
        else
          recordBatch t path steps
          if t.settings.incremental then
            loop t path fuel false (← rematch t steps known)
          else
            loop t path fuel fresh (← Search.findInLevel t none)

def optimize (t : Task K) (fuel : Nat) (path : List Nat) : Search K (Option Status) := do
  loop t path fuel true (← Search.findInLevel t none)

end Greedy

end CircuitGraph
