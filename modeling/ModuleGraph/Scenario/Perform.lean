import ModuleGraph.Scenario.Stage

/-! # Performing actions

An action first computes the value among its arguments, then uses the thing that it is for. Its
result is shown when the action ends; inside a body it is logged after what the action itself
logged. -/

namespace ModuleGraph.Scenario

abbrev Doing := Act Stage Code

variable (host : Host Stage Code)

/-- What a name stands for. A name that stands for nothing is a mistake of the scenario. -/
def named {α : Type} (find : Stage → Option α) : Doing α := do
  match ← Act.view fun s => find s.host with
  | some x => pure x
  | none => throw .undefined

def moduleNamed (name : String) : Doing ModuleId := named (·.modules.lookup name)

/-- The module that an action is for: the named one, else the one whose body runs. -/
def moduleOf (here : Option ModuleId) : Option String → Doing ModuleId
  | some name => moduleNamed name
  | none =>
    match here with
    | some m => pure m
    | none => throw .undefined

def promiseNamed (name : String) : Doing PromiseId :=
  named fun st => (st.promises.find? fun q => q.name == name).map (·.promise)

def capabilityNamed (name : String) : Doing Capability := named (·.capabilities.get? name)

def objectNamed (name : String) : Doing ObjectId :=
  named fun st =>
    match st.values.get? name with
    | some (.object o) => some o
    | _ => none

def setStage (f : Stage → Stage) : Doing Unit := Act.update fun s => World.setStage s f

/-- The value of an expression. -/
def evaluateTerm : Term → Doing Value
  | .literal v => pure v
  | .stored name => named (·.values.get? name)
  | .promise name => do
    let p ← promiseNamed name
    pure (.promise p)
  | .namespace name => do
    let m ← moduleNamed name
    host.namespaceOf m
  | .newError kind message => Act.make fun s => s.newError kind message

/-- The value of an expression, or what computing it throws. -/
def forceTerm (t : Term) : Doing Value := do
  match ← Act.ofRun (evaluateTerm host t).outcome with
  | .ok v => pure v
  | .error e => pure e

def showValue (v : Value) : Doing Payload := do
  let shown ← Act.make fun s => World.display s v
  pure (.value shown)

/-- Stores a value under a name, if there is one, and shows it. -/
def storeValue (v : Value) (as : Option String) : Doing Payload := do
  match as with
  | some name => setStage fun st => { st with values := st.values.put name v }
  | none => pure ()
  showValue v

/-- Names a promise, if there is a name, and shows it. -/
def storePromise (p : PromiseId) (as : Option String) : Doing Payload := do
  match as with
  | some name => setStage (·.bindPromise name p)
  | none => pure ()
  let n ← Act.make fun s => World.numberPromise s p
  pure (.promise n)

def storeCapability (c : Capability) (as : Option String) : Doing Payload := do
  match as with
  | some name => setStage fun st => { st with capabilities := st.capabilities.put name c }
  | none => pure ()
  storePromise c.promise as

/-- Names a new module and registers it under its name if asked to. -/
def addModule (m : ModuleId) (name : String) (register : Bool) : Doing Unit :=
  setStage fun st =>
    { st with
      modules := st.modules ++ [(name, m)]
      registered := if register then st.registered.put name m else st.registered }

def parse (name text : String) (program : Option Syntax.Program) (body environment : List Step)
    (register : Bool) : Doing Payload := do
  match SourceRecord.ofText text program with
  | .error refusal => pure (.refused refusal)
  | .ok record =>
    let m ← Act.make fun s => s.newSource record (some name)
    addModule m name register
    setStage fun st =>
      { st with
        bodies := st.bodies.put m body
        environments := st.environments.put m environment }
    pure .nothing

def addLeaf (name : String) (description : Description) (register : Bool) : Doing Payload := do
  let m ← Act.make fun s => s.newLeaf none
  addModule m name register
  setStage fun st => { st with descriptions := st.descriptions.put m description }
  pure .nothing

def addForeign (name : String) (requests : List String) (description : Description)
    (body : List Step) (register : Bool) : Doing Payload := do
  let m ← Act.make fun s => s.newForeign requests none
  addModule m name register
  setStage fun st =>
    { st with
      descriptions := st.descriptions.put m description
      bodies := st.bodies.put m body }
  pure .nothing

def changeDescription (m : ModuleId) (changes : List DescriptionChange) : Doing Payload := do
  setStage fun st =>
    let old := (st.descriptions.get? m).getD default
    { st with descriptions := st.descriptions.put m (changes.foldl Description.change old) }
  pure .nothing

def moduleInfo (m : ModuleId) : Doing Payload := do
  let report ← Act.make fun s => World.report s m
  Act.view fun s =>
    .module report (s.isCyclic m) (s.module m).kind.isSource (s.requested m) (s.module m).label

def exportedNamesOf (m : ModuleId) (seen : List String) : Doing Payload := do
  let seen ← seen.mapM moduleNamed
  let (names, seen) ← exportedNames host host.depth m seen
  Act.view fun s => .exportedNames names (seen.map s.host.moduleName)

/-- How a resolved export is shown. -/
def bindingReport (st : Stage) : Option Resolution → BindingReport
  | none => .none
  | some .ambiguous => .ambiguous
  | some (.found m (.name binding)) => .name (st.moduleName m) binding
  | some (.found m .namespace) => .namespace (st.moduleName m)

def resolveExportOf (m : ModuleId) (name : String) (visited : List (String × String)) :
    Doing Payload := do
  let visited ← visited.mapM fun (x, n) => do
    let x ← moduleNamed x
    pure (x, n)
  let (found, visited) ← resolveExport host host.depth m name visited
  Act.view fun s => .binding (bindingReport s.host found) visited.length

def promiseState (p : PromiseId) : Doing Payload := do
  match ← Act.view fun s => (s.promise p).settlement? with
  | none => pure (.state none)
  | some settlement =>
    let got ← Act.make fun s => World.showSettlement s settlement
    pure (.state (some got))

def unhandledPromises : Doing Payload := do
  let promises ← Act.view fun s => s.unhandled
  let numbers ← promises.mapM fun p => Act.make fun s => World.numberPromise s p
  pure (.promises numbers)

def ticketInfo (number : Nat) : Doing Payload := do
  let ticket ← named (·.tickets[number]?)
  match ← Act.view fun s => s.import? ticket with
  | none => pure (.ticket none none none)
  | some i =>
    let n ← Act.make fun s => World.numberPromise s i.capability.promise
    Act.view fun s => .ticket (some (s.host.referrerName i.referrer)) (some i.specifier) (some n)

def importReferrer (here : Option ModuleId) (script module : Option String) : Doing Referrer := do
  match script with
  | some name =>
    let i ← named (·.scripts.get? name)
    pure (.script i)
  | none =>
    let m ← moduleOf here module
    pure (.module m)

def linkModule (m : ModuleId) : Doing Result := do
  match ← Act.ofRun (host.link m) with
  | .ok () => pure (.ok .nothing)
  | .error e =>
    let v ← Act.ofRun e.toValue
    let thrown ← Act.make fun s => World.display s v
    pure (.linkError
      { kind := e.fault.kindName, specifier := e.fault.specifier?, name := e.fault.name?
        message := e.message, path := e.path, thrown })

/-- Performs an action other than linking. -/
def performPlain (here : Option ModuleId) : Action → Doing Payload
  | .parse name text program body environment register =>
    parse name text program body environment register
  | .leaf name description register => addLeaf name description register
  | .foreign name requests description body register =>
    addForeign name requests description body register
  | .change m changes => do changeDescription (← moduleOf here m) changes
  | .setBody m steps => do
    let m ← moduleOf here m
    setStage fun st => { st with bodies := st.bodies.put m steps }
    pure .nothing
  | .setEnvironment m steps => do
    let m ← moduleOf here m
    setStage fun st => { st with environments := st.environments.put m steps }
    pure .nothing
  | .register specifier m => do
    let m ← moduleOf here m
    setStage fun st => { st with registered := st.registered.put specifier m }
    pure .nothing
  | .map referrer specifier override => do
    setStage fun st => { st with overrides := st.overrides.put (referrer, specifier) override }
    pure .nothing
  | .unmap referrer specifier => do
    setStage fun st =>
      { st with overrides := st.overrides.filter fun p => p.1 != (referrer, specifier) }
    pure .nothing
  | .link _ => pure .nothing
  | .evaluate m as => do
    let m ← moduleOf here m
    let p ← Act.ofRun (host.evaluate m)
    storePromise p as
  | .info m => do moduleInfo (← moduleOf here m)
  | .exportedNames m seen => do exportedNamesOf host (← moduleOf here m) seen
  | .resolveExport m name visited => do resolveExportOf host (← moduleOf here m) name visited
  | .namespace m => do
    let v ← host.namespaceOf (← moduleOf here m)
    showValue v
  | .namespaceKeys m => do
    let keys ← host.namespaceKeys (← moduleOf here m)
    pure (.names keys)
  | .namespaceHas m key => do
    let m ← moduleOf here m
    let _ ← host.namespaceKeys m
    Act.view fun s => .flag (s.namespaceHas m key)
  | .namespaceGet m key => do
    let m ← moduleOf here m
    let _ ← host.namespaceKeys m
    let v ← host.namespaceGet m key
    showValue v
  | .namespaceSet m _ value => do
    let _ ← evaluateTerm host value
    let _ ← host.namespaceKeys (← moduleOf here m)
    pure (.flag false)
  | .namespaceDelete m key => do
    let m ← moduleOf here m
    let _ ← host.namespaceKeys m
    Act.view fun s => .flag (!s.namespaceHas m key)
  | .getBinding m name => do
    let v ← host.getBinding (← moduleOf here m) name
    showValue v
  | .hasBinding m name => do
    let m ← moduleOf here m
    Act.view fun s => .flag (s.hasBinding m name)
  | .initializeBinding m name value => do
    let v ← evaluateTerm host value
    initializeBinding (← moduleOf here m) name v
    pure .nothing
  | .assignBinding m name value => do
    let v ← evaluateTerm host value
    assignBinding (← moduleOf here m) name v
    pure .nothing
  | .metaProperties m properties final => do
    let m ← moduleOf here m
    setStage fun st => { st with metaPlans := st.metaPlans.put m ⟨properties, final⟩ }
    pure .nothing
  | .importMeta m as => do
    let m ← moduleOf here m
    let o ← Act.ofRun (host.importMeta m)
    storeValue (.object o) as
  | .object as => do
    let o ← Act.make fun s => s.newObject []
    storeValue (.object o) as
  | .objectSet object key value => do
    let v ← evaluateTerm host value
    let o ← objectNamed object
    Act.update fun s => s.setObject o ((s.object o).put key v)
    pure (.flag true)
  | .objectGet object key => do
    let o ← objectNamed object
    let v ← Act.view fun s => (s.object o).get key
    showValue v
  | .objectHas object key => do
    let o ← objectNamed object
    Act.view fun s => .flag ((s.object o).has key)
  | .objectKeys object => do
    let o ← objectNamed object
    Act.view fun s => .names (s.object o).keys
  | .value value as => do
    let v ← evaluateTerm host value
    storeValue v as
  | .repr value => do
    let v ← evaluateTerm host value
    Act.view fun s => .representation (s.describe v) (v == .undefined) v.isObject
  | .capability as => do
    let c ← Act.make Machine.newCapability
    storeCapability c as
  | .fromPromise promise strict as => do
    let p ← promiseNamed promise
    storeCapability ⟨p, strict⟩ as
  | .resolve capability value => do
    let v ← evaluateTerm host value
    let c ← capabilityNamed capability
    Act.update fun s => s.resolve host.track c v
    pure .nothing
  | .reject capability value => do
    let v ← evaluateTerm host value
    let c ← capabilityNamed capability
    Act.update fun s => s.reject host.track c v
    pure .nothing
  | .promise form value as => do
    let v ← evaluateTerm host value
    let p ← Act.make fun s =>
      match form with
      | .fulfilled => s.newFulfilled v
      | .rejected => s.newRejected host.track v
      | .resolved => s.promiseOf host.track v
    storePromise p as
  | .then promise as onFulfilled onRejected => do
    let p ← promiseNamed promise
    let label := "then:" ++ as.getD ""
    let q ← Act.make fun s => s.thenCall host.track p (.callbacks label onFulfilled onRejected)
    storePromise q as
  | .all promises as => do
    let promises ← promises.mapM promiseNamed
    let p ← Act.make fun s => s.all host.track promises
    storePromise p as
  | .state promise => do promiseState (← promiseNamed promise)
  | .describe promise => do
    let p ← promiseNamed promise
    Act.view fun s => .text (s.describePromise p)
  | .unhandled => unhandledPromises
  | .runJobs => do
    host.runJobs
    pure .nothing
  | .runJob => do
    let found ← runNextJob host
    pure (.flag found)
  | .script as label => do
    let i ← Act.make fun s => s.newScript label
    match as with
    | some name => setStage fun st => { st with scripts := st.scripts.put name i }
    | none => pure ()
    Act.view fun s => .optionalText (s.script i)
  | .importMode mode => do
    setStage fun st => { st with mode }
    pure .nothing
  | .importCall script m specifier as => do
    let v ← evaluateTerm host specifier
    let referrer ← importReferrer here script m
    let p ← Act.ofRun (host.importCall referrer v)
    storePromise p as
  | .ticket number => ticketInfo number
  | .finish number m => do
    let ticket ← named (·.tickets[number]?)
    let m ← moduleOf here m
    Act.ofRun (host.finishImport ticket (.ok m))
    pure .nothing
  | .finishThrowing number value => do
    let v ← forceTerm host value
    let ticket ← named (·.tickets[number]?)
    Act.ofRun (host.finishImport ticket (.error v))
    pure .nothing

def perform (here : Option ModuleId) (action : Action) : Doing Result := do
  match action with
  | .link m => linkModule host (← moduleOf here m)
  | action =>
    let payload ← performPlain host here action
    pure (.ok payload)

def showResult : Except Value Result → Doing Result
  | .ok result => pure result
  | .error e => do
    let shown ← Act.make fun s => World.display s e
    pure (.threw shown)

def note (event : Event) : Doing Unit := Act.update fun s => World.note s event

def runSteps (label : String) (here : Option ModuleId) : List Step → Doing (Execution Code)
  | [] => pure .completed
  | .throw t :: _ => do
    let v ← forceTerm host t
    throw v
  | .await t catching :: rest =>
    match here with
    | none => runSteps label here rest
    | some m => do
      let v ← forceTerm host t
      let p ← Act.make fun s => s.promiseOf host.track v
      note (.awaited label)
      pure (.waiting p (.rest m catching rest))
  | .act action catching :: rest => do
    let outcome ← Act.ofRun (perform host here action).outcome
    let result ← showResult outcome
    note (.stepped label action.word result)
    match outcome with
    | .ok _ => runSteps label here rest
    | .error e => if catching then runSteps label here rest else throw e

/-- Runs the steps of a body, or what is left of them, and notes its end. -/
def runBodySteps (m : ModuleId) (steps : List Step) : Doing (Execution Code) := do
  let label ← Act.view fun s => s.host.moduleName m
  match ← runSteps host label (some m) steps with
  | .completed =>
    note (.finished label)
    pure .completed
  | waiting => pure waiting

/-- Runs a callback with the settlement of its promise. -/
def runCallback (label : String) (settlement : Settlement) : Option Callback → Doing Value
  | none => .ofExcept settlement.toExcept
  | some (.mk steps ending) => do
    let _ ← runSteps host label none steps
    match ending with
    | .throws t => do
      let v ← forceTerm host t
      throw v
    | .returns t => evaluateTerm host t
    | .passOn => .ofExcept settlement.toExcept

end ModuleGraph.Scenario
