import ModuleGraph.Export.Names
import ModuleGraph.Export.Resolution
import ModuleGraph.Machine.Bindings
import ModuleGraph.Text.Units

/-! # Namespace objects

The keys of a namespace object are the exported names that resolve, in the order of their 16-bit
units. They are fixed when the namespace is first asked for; the values are read live. -/

namespace ModuleGraph

variable {σ κ : Type}

/-- The names that resolve to a binding of the module's exports. -/
def keepResolvable (host : Host σ κ) (m : ModuleId) : List String → Act σ κ (List String)
  | [] => pure []
  | name :: rest => do
    let found ← host.boundTo m name
    let kept ← keepResolvable host m rest
    pure (if found.isSome then name :: kept else kept)

namespace Host

/-- The keys of the namespace object of a module, which is made if there is none. -/
def namespaceKeys (host : Host σ κ) (m : ModuleId) : Act σ κ (List String) := do
  match ← Act.view fun s => (s.module m).exports with
  | some keys => pure keys
  | none =>
    let (names, _) ← ModuleGraph.exportedNames host host.depth m []
    let kept ← keepResolvable host m (names.getD [])
    let keys := Text.sortDistinct kept
    Act.update fun s => s.updateModule m fun x => { x with exports := some keys }
    pure keys

/-- The namespace object of a module as a value. -/
def namespaceOf (host : Host σ κ) (m : ModuleId) : Act σ κ Value := do
  let _ ← host.namespaceKeys m
  pure (.namespace m)

/-- The value of a key of an existing namespace object; other keys give `undefined`. -/
def namespaceGet (host : Host σ κ) (m : ModuleId) (key : String) : Act σ κ Value := do
  let keys ← Act.view fun s => ((s.module m).exports).getD []
  if keys.contains key then
    match ← host.boundTo m key with
    | none => .fail .referenceError ("Export '" ++ key ++ "' cannot be resolved")
    | some (target, .namespace) => host.namespaceOf target
    | some (target, .name binding) => host.getBinding target binding
  else pure .undefined

end Host

def Machine.namespaceHas (s : Machine σ κ) (m : ModuleId) (key : String) : Bool :=
  (((s.module m).exports).getD []).contains key

end ModuleGraph
