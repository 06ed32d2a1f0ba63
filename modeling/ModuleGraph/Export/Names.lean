import ModuleGraph.Machine.Host

/-! # Exported names

A source text module exports the names of its own entries, then those behind each `export *`
except `default`. A module that was seen before gives nothing, so star cycles end. -/

namespace ModuleGraph

variable {σ κ : Type}

def addStarNames (names : List String) : List String → List String
  | [] => names
  | n :: rest =>
    if n = "default" || names.contains n then addStarNames names rest
    else addStarNames (names ++ [n]) rest

/-- Adds the names behind every `export *` in turn. `visit` gives those of one request. -/
def collectStars
    (visit : String → List ModuleId → Act σ κ (Option (List String) × List ModuleId)) :
    List String → List String → List ModuleId → Act σ κ (List String × List ModuleId)
  | [], names, seen => pure (names, seen)
  | request :: rest, names, seen => do
    let (found, seen) ← visit request seen
    collectStars visit rest (addStarNames names (found.getD [])) seen

/-- The exported names of a module, or nothing if it was seen; with the modules seen then. -/
def exportedNames (host : Host σ κ) :
    Nat → ModuleId → List ModuleId → Act σ κ (Option (List String) × List ModuleId)
  | 0, _, _ => .ofRun .exhausted
  | depth + 1, m, seen => do
    if seen.contains m then pure (none, seen)
    else
      let seen := seen ++ [m]
      match ← Act.view fun s => s.record? m with
      | none =>
        let names ← Act.ofRun (host.exportedNames m)
        pure (some names, seen)
      | some record =>
        let own := record.localExports.map (·.exportName) ++
          record.indirectExports.map (·.exportName)
        let (names, seen) ← collectStars
          (fun request seen => do
            let target ← host.resolve (.module m) request
            exportedNames host depth target seen)
          record.starExports own seen
        pure (some names, seen)

end ModuleGraph
