import ModuleGraph.Machine.Host

/-! # Reading and writing bindings

Reads are live: an import binding gives the value that the exporting module holds at the time of
the read. A binding is initialized once, and only a mutable one is assigned afterwards. -/

namespace ModuleGraph

variable {σ κ α : Type}

/-- Why a binding cannot be read or written. -/
inductive BindingFault where
  | notLinked
  | uninitialized
  | missing
  | imported
  | constant
  | notInitializable
  deriving DecidableEq, Repr

namespace BindingFault

def kind : BindingFault → ErrorKind
  | .notLinked | .uninitialized | .missing | .notInitializable => .referenceError
  | .imported | .constant => .typeError

def message (name : String) : BindingFault → String
  | .notLinked => "Cannot access '" ++ name ++ "': module is not linked"
  | .uninitialized => "Cannot access '" ++ name ++ "' before initialization"
  | .missing => name ++ " is not defined"
  | .imported => "Cannot assign to import '" ++ name ++ "'"
  | .constant => "Assignment to constant variable."
  | .notInitializable => "Binding '" ++ name ++ "' cannot be initialized"

def ofAssignment : AssignmentFault → BindingFault
  | .missing => .missing
  | .uninitialized => .uninitialized
  | .imported => .imported
  | .constant => .constant

def throw (fault : BindingFault) (name : String) : Act σ κ α :=
  .fail fault.kind (fault.message name)

end BindingFault

/-- The value of a binding, read through at most `depth` modules. -/
def readBinding (host : Host σ κ) : Nat → ModuleId → String → Act σ κ Value
  | 0, _, _ => .ofRun .exhausted
  | depth + 1, m, name => do
    match ← Act.view fun s => (s.module m).kind with
    | .source _ none _ => BindingFault.throw .notLinked name
    | .source _ (some env) _ =>
      match env.get? name with
      | some (.import target binding) => readBinding host depth target binding
      | some (.local (some v) _) => pure v
      | some (.local none _) => BindingFault.throw .uninitialized name
      | none => BindingFault.throw .missing name
    | .foreign false _ => BindingFault.throw .notLinked name
    | .foreign true _ => host.bindingValue m name
    | .leaf _ => host.bindingValue m name

namespace Host

def getBinding (host : Host σ κ) (m : ModuleId) (name : String) : Act σ κ Value :=
  readBinding host host.depth m name

end Host

/-- Whether a linked source text module has a binding. -/
def Machine.hasBinding (s : Machine σ κ) (m : ModuleId) (name : String) : Bool :=
  ((s.environment? m).map (·.has name)).getD false

/-- Gives a local binding of a module its first value. -/
def initializeBinding (m : ModuleId) (name : String) (value : Value) : Act σ κ Unit := do
  match (← Act.view fun s => s.environment? m).bind (·.initialize? name value) with
  | some env => Act.update fun s => s.setEnvironment m env
  | none => BindingFault.throw .notInitializable name

def assignBinding (m : ModuleId) (name : String) (value : Value) : Act σ κ Unit := do
  match ← Act.view fun s => s.environment? m with
  | none => BindingFault.throw .notLinked name
  | some env =>
    match env.assign name value with
    | .ok env => Act.update fun s => s.setEnvironment m env
    | .error fault => BindingFault.throw (.ofAssignment fault) name

end ModuleGraph
