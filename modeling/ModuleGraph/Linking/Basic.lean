import ModuleGraph.Linking.Environment

/-! # Linking

Linking visits the requested modules depth first. A module stays `linking` while it can still turn
out to belong to a cycle with one that was visited before; the stack holds exactly these modules.
When the first visited module of a cycle is left, the whole cycle is linked. After a failure every
module on the stack is unlinked again. -/

namespace ModuleGraph

variable {σ κ α : Type}

/-- The state of a depth-first traversal: the modules whose cycles are open, the last one first,
and the number of visits. -/
structure Traversal where
  stack : List ModuleId
  visits : Nat
  deriving DecidableEq, Repr, Inhabited

/-- Splits the stack after `m`: the cycle that `m` is the root of, and what is below. -/
def Traversal.close (t : Traversal) (m : ModuleId) : List ModuleId × Traversal :=
  let rest := t.stack.dropWhile (· != m)
  (t.stack.takeWhile (· != m) ++ rest.take 1, { t with stack := rest.drop 1 })

/-- Closing a cycle cuts the stack in two. -/
theorem Traversal.close_append (t : Traversal) (m : ModuleId) :
    (t.close m).1 ++ (t.close m).2.stack = t.stack := by
  simp only [close, List.append_assoc, List.take_append_drop, List.takeWhile_append_dropWhile]

/-- Linking in a traversal, which is kept when linking fails. -/
abbrev LinkVisit (σ κ : Type) := ExceptT LinkError (StateT Traversal (Run σ κ))

namespace LinkVisit

def ofRun (r : Run σ κ α) : LinkVisit σ κ α := ExceptT.lift (StateT.lift r)

def update (f : Machine σ κ → Machine σ κ) : LinkVisit σ κ Unit := ofRun (Run.update f)

def view (f : Machine σ κ → α) : LinkVisit σ κ α := ofRun (Run.view f)

def ofLinking (l : Linking σ κ α) : LinkVisit σ κ α := do
  match ← ofRun l.run with
  | .ok v => pure v
  | .error e => throw e

end LinkVisit

variable (host : Host σ κ)

/-- Links a leaf that is not linked yet. -/
def linkLeaf (path : List String) (m : ModuleId) : Linking σ κ Unit := do
  match ← Linking.view fun s => (s.module m).kind with
  | .leaf .unlinked =>
    Linking.ofAct (fun e => ⟨.host e, path⟩) (host.linkLeaf m)
    Linking.update fun s => s.updateKind m fun
      | .leaf _ => .leaf .linked
      | k => k
  | _ => pure ()

/-- Marks a module as being linked and puts it on the stack. -/
def openLinking (m : ModuleId) : LinkVisit σ κ Unit := do
  let t ← get
  LinkVisit.update fun s => s.updateCyclic m fun c =>
    { c with status := .linking, visit := some t.visits, ancestor := some t.visits }
  set { t with stack := m :: t.stack, visits := t.visits + 1 : Traversal }

/-- Notes what `m` can reach through a module that it requests and that is still being linked. -/
def reachOpen (m required : ModuleId) (s : Machine σ κ) : Machine σ κ :=
  match s.cyclic? required with
  | some c => if c.status = .linking then s.updateCyclic m (·.reach c.ancestor) else s
  | none => s

/-- Links the whole cycle if `m` is its root. -/
def closeLinking (m : ModuleId) : LinkVisit σ κ Unit := do
  if ← LinkVisit.view fun s => (s.cyclic m).isRoot then
    let (cycle, t) := (← get).close m
    LinkVisit.update fun s => cycle.foldl (fun s x => s.setStatus x .linked) s
    set t

/-- Links a module that `path` leads to and everything below it. -/
def visitLinking : Nat → List String → ModuleId → LinkVisit σ κ Unit
  | 0, _, _ => .ofRun .exhausted
  | depth + 1, path, m => do
    match ← LinkVisit.view fun s => s.cyclic? m with
    | none => .ofLinking (linkLeaf host path m)
    | some c =>
      if c.status = .unlinked then do
        openLinking m
        c.requested.forM fun request => do
          let required ← LinkVisit.ofLinking (resolveRequest host path m request)
          visitLinking depth (path ++ [request]) required
          LinkVisit.update (reachOpen m required)
        LinkVisit.ofLinking (initializeModule host path m)
        closeLinking m

/-- Takes back the linking of a module. -/
def Machine.unlink (s : Machine σ κ) (m : ModuleId) : Machine σ κ :=
  (s.updateCyclic m fun c => { c with status := .unlinked, visit := none, ancestor := none })
    |>.updateKind m ModuleKind.unlink

namespace Host

/-- Links a module and everything that it requests. -/
def link (host : Host σ κ) (m : ModuleId) : Run σ κ (Except LinkError Unit) := do
  let (result, t) ← (visitLinking host host.depth [] m).run.run ⟨[], 0⟩
  match result with
  | .ok () => pure (.ok ())
  | .error e =>
    Run.update fun s => t.stack.foldl Machine.unlink s
    pure (.error e)

end Host

end ModuleGraph
