import ModuleGraph.Evaluation.Jobs
import ModuleGraph.Scenario.Answer
import ModuleGraph.Scenario.Step

/-! # The stage of a scenario

The stage is what the scripted host keeps: the names of things, the behaviour of modules, the
numbers under which things are shown, and the log of the current action. -/

namespace ModuleGraph.Scenario

/-- A promise with a name; `told` once its settlement was shown. -/
structure NamedPromise where
  name : String
  promise : PromiseId
  told : Bool
  deriving Repr, Inhabited

/-- Properties of `import.meta`: those it starts with and those added at last. -/
structure MetaPlan where
  properties : List (String × Term)
  final : List (String × Term)
  deriving Repr, Inhabited

structure Stage where
  mode : ImportMode
  /-- Whether resolutions are logged. -/
  trace : Bool
  /-- Whether source text modules have bodies. -/
  scripted : Bool
  /-- The modules in order of creation. -/
  modules : List (String × ModuleId)
  registered : Table String ModuleId
  overrides : Table (Option String × String) Override
  bodies : Table ModuleId (List Step)
  environments : Table ModuleId (List Step)
  descriptions : Table ModuleId Description
  metaPlans : Table ModuleId MetaPlan
  values : Table String Value
  promises : List NamedPromise
  capabilities : Table String Capability
  scripts : Table String ScriptId
  /-- The dynamic imports that the scenario has to finish. -/
  tickets : List TicketId
  shownPromises : List PromiseId
  shownErrors : List ErrorId
  shownObjects : List ObjectId
  shownModules : Table ModuleId ModuleReport
  /-- What happened during the current action, the last event first. -/
  log : List Event
  deriving Inhabited

/-- Suspended code of the scripted host. -/
inductive Code where
  /-- The rest of a body that waits. -/
  | rest (module : ModuleId) (catching : Bool) (steps : List Step)
  /-- The callbacks for a fulfilled and a rejected promise. -/
  | callbacks (label : String) (onFulfilled onRejected : Option Callback)

abbrev World := Machine Stage Code

/-- The number of a thing, and the list with it. -/
def numberIn {α : Type} [BEq α] (things : List α) (thing : α) : Nat × List α :=
  match things.idxOf? thing with
  | some n => (n, things)
  | none => (things.length, things ++ [thing])

namespace Stage

def numberPromise (st : Stage) (p : PromiseId) : Nat × Stage :=
  let (n, shownPromises) := numberIn st.shownPromises p
  (n, { st with shownPromises })

def numberError (st : Stage) (e : ErrorId) : Nat × Stage :=
  let (n, shownErrors) := numberIn st.shownErrors e
  (n, { st with shownErrors })

def numberObject (st : Stage) (o : ObjectId) : Nat × Stage :=
  let (n, shownObjects) := numberIn st.shownObjects o
  (n, { st with shownObjects })

def note (st : Stage) (event : Event) : Stage := { st with log := event :: st.log }

def moduleName (st : Stage) (m : ModuleId) : String :=
  ((st.modules.find? fun p => p.2 == m).map (·.1)).getD ""

def scriptName (st : Stage) (i : ScriptId) : String :=
  ((st.scripts.find? fun p => p.2 == i).map (·.1)).getD ""

def referrerName (st : Stage) : Referrer → String
  | .module m => st.moduleName m
  | .script i => "script:" ++ st.scriptName i

/-- Names a promise; a name that was bound before keeps its place. -/
def bindPromise (st : Stage) (name : String) (p : PromiseId) : Stage :=
  let entry := ⟨name, p, false⟩
  if st.promises.any fun q => q.name == name then
    { st with promises := st.promises.map fun q => if q.name == name then entry else q }
  else { st with promises := st.promises ++ [entry] }

/-- Logs what the machine tells of a rejected promise. -/
def track : Tracker Stage := fun p event st =>
  let (n, st) := st.numberPromise p
  match event with
  | .unhandled => st.note (.rejected n)
  | .handled => st.note (.handled n)

end Stage

namespace World

def setStage (s : World) (f : Stage → Stage) : World := s.setHost (f s.host)

def note (s : World) (event : Event) : World := setStage s (·.note event)

def numberPromise (s : World) (p : PromiseId) : Nat × World :=
  let (n, st) := s.host.numberPromise p
  (n, s.setHost st)

def showInner (s : World) : Value → Shown × World
  | .undefined => (.undefined, s)
  | .null => (.null, s)
  | .boolean b => (.boolean b, s)
  | .number d => (.number d.canonical, s)
  | .string t => (.string t, s)
  | .promise p =>
    let (n, s) := numberPromise s p
    (.promise n, s)
  | .namespace m => (.namespace (s.host.moduleName m), s)
  | .error e =>
    let (n, st) := s.host.numberError e
    let object := s.error e
    (.error n object.kind object.message, s.setHost st)
  | .object o =>
    let (n, st) := s.host.numberObject o
    (.inner n, s.setHost st)

def showProperties (s : World) : Properties → List (String × Shown) × World
  | [] => ([], s)
  | (key, v) :: rest =>
    let (shown, s) := showInner s v
    let (others, s) := showProperties s rest
    ((key, shown) :: others, s)

def display (s : World) : Value → Shown × World
  | .object o =>
    let (n, st) := s.host.numberObject o
    let (properties, s) := showProperties (s.setHost st) (s.object o)
    (.object n properties, s)
  | v => showInner s v

def showSettlement (s : World) : Settlement → Got × World
  | .fulfilled v =>
    let (shown, s) := display s v
    (.ok shown, s)
  | .rejected e =>
    let (shown, s) := display s e
    (.threw shown, s)

def report (s : World) (m : ModuleId) : ModuleReport × World :=
  let (error, s) := match s.evaluationError? m with
    | some e =>
      let (shown, s) := display s e
      (some shown, s)
    | none => (none, s)
  ({ name := s.host.moduleName m
     status := s.status m
     hasAwait := s.hasAwait m
     root := (s.cycleRoot? m).map s.host.moduleName
     error }, s)

end World

end ModuleGraph.Scenario
