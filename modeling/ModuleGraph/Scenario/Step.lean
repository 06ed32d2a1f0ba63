import ModuleGraph.Machine.Basic

/-! # Scenarios

A scenario is a list of actions on one machine with a scripted host. Bodies of modules and
callbacks are lists of steps: an action, an `await`, or a `throw`. Modules, promises and other
things are named by texts that the scenario chooses. -/

namespace ModuleGraph.Scenario

inductive Term where
  | literal (value : Value)
  /-- A value that was stored under a name. -/
  | stored (name : String)
  | promise (name : String)
  /-- The namespace object of a module; getting it may throw. -/
  | namespace (module : String)
  /-- An error object, a new one each time. -/
  | newError (kind : ErrorKind) (message : String)
  deriving Repr, Inhabited

/-- How a module of the host resolves one of its exports. -/
inductive Provision where
  | nothing
  | ambiguous
  | throws (value : Term)
  /-- A binding of the module itself. -/
  | own (binding : String)
  /-- An export of another module. -/
  | reexport (specifier name : String)
  /-- The namespace of another module. -/
  | namespace (specifier : String)
  deriving Repr, Inhabited

/-- What reading a binding of a module of the host does. -/
inductive Reading where
  | gives (value : Term)
  | throws (value : Term)
  deriving Repr, Inhabited

structure Description where
  exports : List (String × Provision)
  values : List (String × Reading)
  /-- A plain leaf links without notice and provides its names by bindings of the same names. -/
  plain : Bool
  linkThrow : Option Term
  evaluateThrow : Option Term
  initializeThrow : Option Term
  instantiateThrow : Option Term
  hasAwait : Bool
  deriving Repr, Inhabited

/-- A change of one part of a description; absent parts are taken away. -/
inductive DescriptionChange where
  | exports (exports : List (String × Provision))
  | values (values : List (String × Reading))
  | plain (plain : Bool)
  | linkThrow (value : Option Term)
  | evaluateThrow (value : Option Term)
  | initializeThrow (value : Option Term)
  | instantiateThrow (value : Option Term)
  | hasAwait (hasAwait : Bool)
  deriving Repr, Inhabited

def Description.change (d : Description) : DescriptionChange → Description
  | .exports exports => { d with exports }
  | .values values => { d with values }
  | .plain plain => { d with plain }
  | .linkThrow value => { d with linkThrow := value }
  | .evaluateThrow value => { d with evaluateThrow := value }
  | .initializeThrow value => { d with initializeThrow := value }
  | .instantiateThrow value => { d with instantiateThrow := value }
  | .hasAwait hasAwait => { d with hasAwait }

/-- What the host does with a new dynamic import. -/
inductive ImportMode where
  /-- A job finishes it. -/
  | queue
  /-- The scenario finishes it. -/
  | manual
  /-- It is finished at once. -/
  | sync
  deriving DecidableEq, Repr, Inhabited

inductive Override where
  | to (module : String)
  | throws (value : Term)
  deriving Repr, Inhabited

inductive PromiseForm where
  | fulfilled
  | rejected
  | resolved
  deriving DecidableEq, Repr, Inhabited

inductive Ending where
  | throws (value : Term)
  | returns (value : Term)
  /-- Passes the settlement on. -/
  | passOn
  deriving Repr, Inhabited

mutual

/-- One step of a body or a callback. A step that catches lets the list go on when it throws. -/
inductive Step where
  | throw (value : Term)
  | await (value : Term) (catching : Bool)
  | act (action : Action) (catching : Bool)

inductive Callback where
  | mk (steps : List Step) (ending : Ending)

/-- One action. Where the name of a module is left out, the module whose body runs is meant. -/
inductive Action where
  | parse (name text : String) (program : Option Syntax.Program) (body environment : List Step)
      (register : Bool)
  | leaf (name : String) (description : Description) (register : Bool)
  | foreign (name : String) (requests : List String) (description : Description)
      (body : List Step) (register : Bool)
  | change (module : Option String) (changes : List DescriptionChange)
  | setBody (module : Option String) (steps : List Step)
  | setEnvironment (module : Option String) (steps : List Step)
  | register (specifier : String) (module : Option String)
  | map (referrer : Option String) (specifier : String) (override : Override)
  | unmap (referrer : Option String) (specifier : String)
  | link (module : Option String)
  | evaluate (module : Option String) (as : Option String)
  | info (module : Option String)
  | exportedNames (module : Option String) (seen : List String)
  | resolveExport (module : Option String) (name : String) (visited : List (String × String))
  | namespace (module : Option String)
  | namespaceKeys (module : Option String)
  | namespaceHas (module : Option String) (key : String)
  | namespaceGet (module : Option String) (key : String)
  | namespaceSet (module : Option String) (key : String) (value : Term)
  | namespaceDelete (module : Option String) (key : String)
  | getBinding (module : Option String) (name : String)
  | hasBinding (module : Option String) (name : String)
  | initializeBinding (module : Option String) (name : String) (value : Term)
  | assignBinding (module : Option String) (name : String) (value : Term)
  | metaProperties (module : Option String) (properties final : List (String × Term))
  | importMeta (module : Option String) (as : Option String)
  | object (as : Option String)
  | objectSet (object key : String) (value : Term)
  | objectGet (object key : String)
  | objectHas (object key : String)
  | objectKeys (object : String)
  | value (value : Term) (as : Option String)
  | repr (value : Term)
  | capability (as : Option String)
  | fromPromise (promise : String) (strict : Bool) (as : Option String)
  | resolve (capability : String) (value : Term)
  | reject (capability : String) (value : Term)
  | promise (form : PromiseForm) (value : Term) (as : Option String)
  | then (promise : String) (as : Option String) (onFulfilled onRejected : Option Callback)
  | all (promises : List String) (as : Option String)
  | state (promise : String)
  | describe (promise : String)
  | unhandled
  | runJobs
  | runJob
  | script (as : Option String) (label : Option String)
  | importMode (mode : ImportMode)
  | importCall (script : Option String) (module : Option String) (specifier : Term)
      (as : Option String)
  | ticket (number : Nat)
  | finish (number : Nat) (module : Option String)
  | finishThrowing (number : Nat) (value : Term)

end

instance : Inhabited Action := ⟨.runJobs⟩
instance : Inhabited Step := ⟨.act default false⟩
instance : Inhabited Callback := ⟨.mk [] .passOn⟩

def Action.word : Action → String
  | .parse .. => "parse"
  | .leaf .. => "leaf"
  | .foreign .. => "cyclic"
  | .change .. => "host_update"
  | .setBody .. => "body"
  | .setEnvironment .. => "env"
  | .register .. => "register"
  | .map .. => "map"
  | .unmap .. => "unmap"
  | .link .. => "link"
  | .evaluate .. => "evaluate"
  | .info .. => "info"
  | .exportedNames .. => "exported_names"
  | .resolveExport .. => "resolve_export"
  | .namespace .. => "ns"
  | .namespaceKeys .. => "ns_keys"
  | .namespaceHas .. => "ns_has"
  | .namespaceGet .. => "ns_get"
  | .namespaceSet .. => "ns_set"
  | .namespaceDelete .. => "ns_delete"
  | .getBinding .. => "get"
  | .hasBinding .. => "has"
  | .initializeBinding .. => "init"
  | .assignBinding .. => "set"
  | .metaProperties .. => "meta_props"
  | .importMeta .. => "meta"
  | .object .. => "object"
  | .objectSet .. => "obj_set"
  | .objectGet .. => "obj_get"
  | .objectHas .. => "obj_has"
  | .objectKeys .. => "obj_keys"
  | .value .. => "value"
  | .repr .. => "repr"
  | .capability .. => "capability"
  | .fromPromise .. => "from_promise"
  | .resolve .. => "resolve"
  | .reject .. => "reject"
  | .promise .. => "promise"
  | .then .. => "then"
  | .all .. => "all"
  | .state .. => "state"
  | .describe .. => "describe"
  | .unhandled => "unhandled"
  | .runJobs => "run_jobs"
  | .runJob => "run_job"
  | .script .. => "script"
  | .importMode .. => "dynamic"
  | .importCall .. => "import"
  | .ticket .. => "ticket"
  | .finish .. | .finishThrowing .. => "finish"

end ModuleGraph.Scenario
