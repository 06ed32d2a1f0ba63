import ModuleGraph.Scenario.Script

/-! # Sessions

A session performs the actions of a scenario one after the other. After each action it shows the
result, the log, the modules that are new or have changed, and the named promises that were
settled since they were last looked at. -/

namespace ModuleGraph.Scenario

structure Options where
  /-- Whether source text modules run their bodies. -/
  scripted : Bool
  mode : ImportMode
  trace : Bool
  deriving Repr, Inhabited

def Stage.initial (options : Options) : Stage :=
  { (default : Stage) with
    mode := options.mode, trace := options.trace, scripted := options.scripted }

/-- The reports of the modules that do not look as they did before. -/
def changedModules (s : World) : List ModuleId → List ModuleReport × World
  | [] => ([], s)
  | m :: rest =>
    let (report, s) := World.report s m
    let known := match s.host.shownModules.get? m with
      | some before => before.same report
      | none => false
    if known then changedModules s rest
    else
      let s := World.setStage s fun st =>
        { st with shownModules := st.shownModules.put m report }
      let (others, s) := changedModules s rest
      (report :: others, s)

/-- The settlements of the named promises that were not told yet. -/
def newlySettled (s : World) : List NamedPromise → List (String × Got) × List NamedPromise × World
  | [] => ([], [], s)
  | q :: rest =>
    match q.told, (s.promise q.promise).settlement? with
    | false, some settlement =>
      let (got, s) := World.showSettlement s settlement
      let (others, told, s) := newlySettled s rest
      ((q.name, got) :: others, { q with told := true } :: told, s)
    | _, _ =>
      let (others, told, s) := newlySettled s rest
      (others, q :: told, s)

def step (host : Host Stage Code) (action : Action) : Run Stage Code Answer := do
  let outcome ← (perform host none action).outcome
  let result ← settledRun (showResult outcome) default
  Run.make fun s =>
    let log := s.host.log.reverse
    let (modules, s) := changedModules s (s.host.modules.map (·.2))
    let (settled, promises, s) := newlySettled s s.host.promises
    ({ result, log, modules, settled },
      World.setStage s fun st => { st with promises, log := [] })

/-- A depth that scenarios do not reach. -/
def ampleDepth : Nat := 1000000

def run (options : Options) (actions : List Action) : Option (List Answer) :=
  ((actions.mapM (step (scriptedHost ampleDepth))).run (.initial (.initial options))).map (·.1)

end ModuleGraph.Scenario
