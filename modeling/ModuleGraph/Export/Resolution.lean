import ModuleGraph.Machine.Host

/-! # Resolving exported names

An exported name leads to the module and the binding behind it. A local export gives the binding
itself, an indirect one leads to another module, and a name that is not listed is looked for
behind every `export *`. The visited pairs cut circular paths. -/

namespace ModuleGraph

variable {σ κ : Type}

/-- Joins what the `export *` items give: nothing, one binding, or an ambiguity. `visit` resolves
the name behind one of the requests. -/
def joinStars (visit : String → Visited → Act σ κ (Option Resolution × Visited)) :
    List String → Option (ModuleId × BindingName) → Visited →
      Act σ κ (Option Resolution × Visited)
  | [], found, visited => pure (found.map fun (m, b) => .found m b, visited)
  | request :: rest, found, visited => do
    let (resolution, visited) ← visit request visited
    match resolution with
    | none => joinStars visit rest found visited
    | some .ambiguous => pure (some .ambiguous, visited)
    | some (.found m b) =>
      match found with
      | none => joinStars visit rest (some (m, b)) visited
      | some other =>
        if other = (m, b) then joinStars visit rest found visited
        else pure (some .ambiguous, visited)

/-- The binding behind an exported name, with the pairs visited so far and then. -/
def resolveExport (host : Host σ κ) :
    Nat → ModuleId → String → Visited → Act σ κ (Option Resolution × Visited)
  | 0, _, _, _ => .ofRun .exhausted
  | depth + 1, m, name, visited => do
    match ← Act.view fun s => s.record? m with
    | none => host.resolveExport m name visited
    | some record =>
      if visited.contains (m, name) then pure (none, visited)
      else
        let visited := (m, name) :: visited
        match record.localExports.find? fun e => e.exportName == name with
        | some e => pure (some (.found m (.name e.localName)), visited)
        | none =>
          match record.indirectExports.find? fun e => e.exportName == name with
          | some e => do
            let target ← host.resolve (.module m) e.request
            match e.importName with
            | none => pure (some (.found target .namespace), visited)
            | some imported => resolveExport host depth target imported visited
          | none =>
            if name = "default" then pure (none, visited)
            else
              joinStars
                (fun request visited => do
                  let target ← host.resolve (.module m) request
                  resolveExport host depth target name visited)
                record.starExports none visited

namespace Host

def resolution (host : Host σ κ) (m : ModuleId) (name : String) : Act σ κ (Option Resolution) := do
  let (found, _) ← ModuleGraph.resolveExport host host.depth m name []
  pure found

/-- The same, where an ambiguous name counts as not found. -/
def boundTo (host : Host σ κ) (m : ModuleId) (name : String) :
    Act σ κ (Option (ModuleId × BindingName)) := do
  match ← host.resolution m name with
  | some (.found target b) => pure (some (target, b))
  | some .ambiguous | none => pure none

end Host

end ModuleGraph
