import ModuleGraph.Export.Namespace
import ModuleGraph.Linking.Error

/-! # Module environments at link time

All indirect exports and imports of a module must resolve. The environment then gets an import
binding for each import of a name, a constant for each import of a namespace, an initialized
variable for each `var` name and an uninitialized binding for each lexical declaration. -/

namespace ModuleGraph

open Syntax

variable {σ κ α : Type}

/-- Work on a module that may fail with a link error. -/
abbrev Linking (σ κ : Type) := ExceptT LinkError (Run σ κ)

namespace Linking

def update (f : Machine σ κ → Machine σ κ) : Linking σ κ Unit := ExceptT.lift (Run.update f)

def view (f : Machine σ κ → α) : Linking σ κ α := ExceptT.lift (Run.view f)

/-- An action whose thrown value becomes a link error. -/
def ofAct (wrap : Value → LinkError) (a : Act σ κ α) : Linking σ κ α := do
  match ← ExceptT.lift a.outcome with
  | .ok v => pure v
  | .error e => throw (wrap e)

end Linking

variable (host : Host σ κ)

/-- The error of a request of the module that `path` leads to. -/
def requestError (path : List String) (request : String) (thrown : Value) : LinkError :=
  ⟨.resolution request thrown, path ++ [request]⟩

/-- The module that a request means. -/
def resolveRequest (path : List String) (m : ModuleId) (request : String) :
    Linking σ κ ModuleId :=
  .ofAct (requestError path request) (host.resolve (.module m) request)

/-- The binding that an import or an indirect export of a name means. -/
def resolveImport (path : List String) (m : ModuleId) (request name : String) :
    Linking σ κ (ModuleId × BindingName) := do
  let resolution ← Linking.ofAct (requestError path request) do
    let target ← host.resolve (.module m) request
    host.resolution target name
  match resolution with
  | some (.found target b) => pure (target, b)
  | some .ambiguous => throw ⟨.ambiguous request name, path ++ [request]⟩
  | none => throw ⟨.unresolvable request name, path ++ [request]⟩

/-- Checks that an indirect export resolves. -/
def checkIndirect (path : List String) (m : ModuleId) (e : IndirectExport) : Linking σ κ Unit := do
  match e.importName with
  | some name => do
    let _ ← resolveImport host path m e.request name
    pure ()
  | none => do
    let _ ← resolveRequest host path m e.request
    pure ()

/-- The constant for a namespace. -/
def namespaceBinding (path : List String) (request : String) (target : ModuleId) :
    Linking σ κ Binding := do
  let value ← Linking.ofAct (requestError path request) (host.namespaceOf target)
  pure (.local (some value) false)

/-- The binding of an imported name. -/
def importBinding (path : List String) (m : ModuleId) (i : ImportEntry) : Linking σ κ Binding := do
  match i.importName with
  | none => do
    let target ← resolveRequest host path m i.request
    namespaceBinding host path i.request target
  | some name => do
    let (target, b) ← resolveImport host path m i.request name
    match b with
    | .namespace => namespaceBinding host path i.request target
    | .name binding => pure (.import target binding)

/-- Adds the bindings of all imports. -/
def bindImports (path : List String) (m : ModuleId) :
    List ImportEntry → Environment → Linking σ κ Environment
  | [], env => pure env
  | i :: rest, env => do
    let b ← importBinding host path m i
    bindImports path m rest (env.put i.localName b)

/-- Adds a binding for a name that has none. -/
def Environment.declare (env : Environment) (name : String) (b : Binding) : Environment :=
  if env.has name then env else env.put name b

/-- Adds the `var` names of a module, all `undefined`. -/
def Environment.declareVars (env : Environment) (names : List String) : Environment :=
  names.foldl (fun env n => env.declare n (.local (some .undefined) true)) env

/-- Whether a lexical declaration can be assigned to. -/
def isMutable : LexicalKind → Bool
  | .const | .default => false
  | .let | .function | .class => true

/-- Adds the lexical declarations of a module, all uninitialized. -/
def Environment.declareLexical (env : Environment) (names : List (String × LexicalKind)) :
    Environment :=
  names.foldl (fun env n => env.declare n.1 (.local none (isMutable n.2))) env

/-- Makes the environment of a source text module and lets the host prepare it. -/
def initializeSource (path : List String) (m : ModuleId) (record : SourceRecord) :
    Linking σ κ Unit := do
  record.indirectExports.forM (checkIndirect host path m)
  let env ← bindImports host path m record.imports .empty
  let env := (env.declareVars record.varNames).declareLexical record.lexical
  Linking.update fun s => s.setEnvironment m env
  Linking.ofAct (fun e => ⟨.host e, path⟩) (host.prepare m)

def initializeForeign (path : List String) (m : ModuleId) : Linking σ κ Unit := do
  let hasAwait ← Linking.ofAct (fun e => ⟨.host e, path⟩) do
    host.initializeForeign m
    host.instantiateForeign m
  Linking.update fun s => s.updateKind m fun
    | .foreign _ c => .foreign true { c with hasAwait }
    | k => k

def initializeModule (path : List String) (m : ModuleId) : Linking σ κ Unit := do
  match ← Linking.view fun s => s.record? m with
  | some record => initializeSource host path m record
  | none => initializeForeign host path m

end ModuleGraph
