import ModuleGraph.Scenario.Perform

/-! # The scripted host

The operations of this host run what the scenario says. A body can itself link, evaluate or import
modules, so the host for its actions is the same host with less depth. -/

namespace ModuleGraph.Scenario

variable (inner : Unit → Host Stage Code)

/-- The override for a specifier: one for this referrer goes before one for all. -/
def Stage.override? (st : Stage) (referrer specifier : String) : Option Override :=
  (st.overrides.get? (some referrer, specifier)).orElse fun _ =>
    st.overrides.get? (none, specifier)

def findModule (referrer specifier : String) : Doing ModuleId := do
  match ← Act.view fun s => s.host.override? referrer specifier with
  | some (.to name) => moduleNamed name
  | some (.throws t) => do
    let v ← forceTerm (inner ()) t
    throw v
  | none =>
    match ← Act.view fun s => s.host.registered.get? specifier with
    | some m => pure m
    | none => .fail .typeError ("Cannot find module '" ++ specifier ++ "'")

/-- Finds a module and notes the result if resolutions are traced. -/
def resolveModule (referrer : Referrer) (specifier : String) : Doing ModuleId := do
  let name ← Act.view fun s => s.host.referrerName referrer
  let outcome ← Act.ofRun (findModule inner name specifier).outcome
  if ← Act.view fun s => s.host.trace then
    match outcome with
    | .ok m => Act.update fun s => World.note s (.resolved name specifier (s.host.moduleName m))
    | .error e => do
      let shown ← Act.make fun s => World.display s e
      note (.resolveThrew name specifier shown)
  .ofExcept outcome

def descriptionOf (m : ModuleId) : Doing Description :=
  Act.view fun s => (s.host.descriptions.get? m).getD default

def noteModule (event : String → Event) (m : ModuleId) : Doing Unit :=
  Act.update fun s => World.note s (event (s.host.moduleName m))

/-- Throws the value of an expression, if there is one. -/
def throwIfAny : Option Term → Doing Unit
  | none => pure ()
  | some t => do
    let v ← forceTerm (inner ()) t
    throw v

/-- Initializes the functions of a module and runs its environment steps. -/
def prepareModule (m : ModuleId) : Doing Unit := do
  if ← Act.view fun s => s.host.scripted then
    let lexical ← Act.view fun s => ((s.record? m).map (·.lexical)).getD []
    lexical.forM fun (name, kind) => do
      if kind = .function then initializeBinding m name (.string ("function " ++ name))
    let steps ← Act.view fun s => (s.host.environments.get? m).getD []
    let label ← Act.view fun s => "env:" ++ s.host.moduleName m
    let _ ← runSteps (inner ()) label (some m) steps

def startBody (m : ModuleId) : Doing (Execution Code) := do
  noteModule .started m
  let steps ← Act.view fun s => (s.host.bodies.get? m).getD []
  runBodySteps (inner ()) m steps

def executeModule (m : ModuleId) : Doing (Execution Code) := do
  if ← Act.view fun s => s.host.scripted then startBody inner m else pure .completed

def resumeCode (code : Code) (settlement : Settlement) : Doing (Execution Code) := do
  match code with
  | .callbacks .. => pure .completed
  | .rest m catching steps =>
    let got ← Act.make fun s => World.showSettlement s settlement
    noteModule (.resumed · got) m
    match settlement with
    | .rejected e => if catching then runBodySteps (inner ()) m steps else throw e
    | .fulfilled _ => runBodySteps (inner ()) m steps

def callCode (code : Code) (settlement : Settlement) : Doing Value := do
  match code with
  | .rest .. => .ofExcept settlement.toExcept
  | .callbacks label onFulfilled onRejected =>
    let got ← Act.make fun s => World.showSettlement s settlement
    note (.called label got)
    match settlement with
    | .fulfilled _ => runCallback (inner ()) label settlement onFulfilled
    | .rejected _ => runCallback (inner ()) label settlement onRejected

def linkScriptedLeaf (m : ModuleId) : Doing Unit := do
  let d ← descriptionOf m
  if d.plain then pure ()
  else
    noteModule .leafLinked m
    throwIfAny inner d.linkThrow

def evaluateScriptedLeaf (m : ModuleId) : Doing Unit := do
  noteModule .leafEvaluated m
  let d ← descriptionOf m
  throwIfAny inner d.evaluateThrow

def initializeScripted (m : ModuleId) : Doing Unit := do
  noteModule .initialized m
  let d ← descriptionOf m
  throwIfAny inner d.initializeThrow

def instantiateScripted (m : ModuleId) : Doing Bool := do
  noteModule .instantiated m
  let d ← descriptionOf m
  throwIfAny inner d.instantiateThrow
  pure d.hasAwait

/-- Resolves an export as the description of the module says. -/
def resolveProvided (m : ModuleId) (name : String) (visited : Visited) :
    Doing (Option Resolution × Visited) := do
  let d ← descriptionOf m
  let isLeaf ← Act.view fun s => !s.isCyclic m
  if isLeaf && d.plain then pure (ownResolution (d.exports.map (·.1)) m name, visited)
  else if visited.contains (m, name) then pure (none, visited)
  else
    let visited := (m, name) :: visited
    match d.exports.lookup name with
    | none | some .nothing => pure (none, visited)
    | some .ambiguous => pure (some .ambiguous, visited)
    | some (.throws t) => do
      let v ← forceTerm (inner ()) t
      throw v
    | some (.own binding) => pure (some (.found m (.name binding)), visited)
    | some (.namespace specifier) => do
      let target ← resolveModule inner (.module m) specifier
      pure (some (.found target .namespace), visited)
    | some (.reexport specifier imported) => do
      let target ← resolveModule inner (.module m) specifier
      let host := inner ()
      resolveExport host host.depth target imported visited

def readProvided (m : ModuleId) (name : String) : Doing Value := do
  let d ← descriptionOf m
  match d.values.lookup name with
  | none => pure .undefined
  | some (.gives t) => forceTerm (inner ()) t
  | some (.throws t) => do
    let v ← forceTerm (inner ()) t
    throw v

/-- Deals with a new dynamic import as the current mode says. -/
def receiveImport (referrer : Referrer) (specifier : String) (ticket : TicketId) :
    Run Stage Code Unit := do
  match ← Run.view fun s => s.host.mode with
  | .queue => queueImport referrer specifier ticket
  | .manual =>
    Run.update fun s => World.setStage s fun st =>
      let number := st.tickets.length
      let st := { st with tickets := st.tickets ++ [ticket] }
      st.note (.ticket number specifier (st.referrerName referrer))
  | .sync => do
    let found ← (resolveModule inner referrer specifier).outcome
    (inner ()).finishImport ticket found

/-- The values of properties; a value whose computation throws is what that throws. -/
def forceProperties : List (String × Term) → Doing (List (String × Value))
  | [] => pure []
  | (key, t) :: rest => do
    let v ← forceTerm (inner ()) t
    let others ← forceProperties rest
    pure ((key, v) :: others)

def settledRun {α : Type} (a : Doing α) (otherwise : α) : Run Stage Code α := do
  match ← a.outcome with
  | .ok x => pure x
  | .error _ => pure otherwise

def metaPlanOf (m : ModuleId) : Run Stage Code MetaPlan :=
  Run.view fun s => (s.host.metaPlans.get? m).getD default

/-- The scripted host whose actions inside bodies are done by `inner`. -/
def hostOver (depth : Nat) : Host Stage Code :=
  { depth
    resolve := resolveModule inner
    prepare := prepareModule inner
    execute := executeModule inner
    resume := resumeCode inner
    call := callCode inner
    linkLeaf := linkScriptedLeaf inner
    evaluateLeaf := evaluateScriptedLeaf inner
    initializeForeign := initializeScripted inner
    instantiateForeign := instantiateScripted inner
    executeForeign := startBody inner
    exportedNames := fun m => settledRun ((descriptionOf m).map fun d => d.exports.map (·.1)) []
    resolveExport := resolveProvided inner
    bindingValue := readProvided inner
    importRequested := receiveImport inner
    metaProperties := fun m => do
      let plan ← metaPlanOf m
      settledRun (forceProperties inner plan.properties) []
    finishMeta := fun o m => do
      let plan ← metaPlanOf m
      let values ← settledRun (forceProperties inner plan.final) []
      Run.update fun s =>
        values.foldl (fun s p => s.setObject o ((s.object o).put p.1 p.2)) s
    track := Stage.track }

/-- The scripted host of a given depth. -/
def scriptedHost : Nat → Host Stage Code
  | 0 => Host.spent
  | depth + 1 => hostOver (fun _ => scriptedHost depth) depth

end ModuleGraph.Scenario
