import ModuleGraph.Proofs.Linking.Conduct

/-! # A host that follows a plan

The host finds modules by a table and runs bodies by another one. It keeps the journal as its own
state and does nothing else, so it shows that the conduct which the properties of runs ask of a
host can be met. -/

namespace ModuleGraph

inductive BodyPlan where
  | completes
  | throws (reason : Value)
  /-- It waits for a promise and completes unless that is rejected. -/
  | waits (promise : PromiseId)

structure Plan where
  /-- The module that a request means. -/
  target : ModuleId → String → Option ModuleId
  body : ModuleId → BodyPlan

def Act.note {κ : Type} (entry : Machine Journal κ → Entry) : Act Journal κ Unit :=
  Act.update fun s => s.setHost (s.host ++ [entry s])

namespace Plan

def refuse (m : ModuleId) (request : String) : Act Journal ModuleId ModuleId := do
  let e ← Act.make fun s => s.newError .typeError "Cannot find module"
  Act.note fun _ => .refused m request e
  throw e

def answer (plan : Plan) (m : ModuleId) (request : String) : Act Journal ModuleId ModuleId := do
  let made ← Act.view fun s => (plan.target m request).filter (·.index < s.modules.size)
  match made with
  | some n => do
    Act.note fun _ => .resolved m request n
    pure n
  | none => refuse m request

def start (plan : Plan) (m : ModuleId) : Act Journal ModuleId (Execution ModuleId) := do
  Act.note fun s => .started m s.outline
  match plan.body m with
  | .completes => do
    Act.note fun _ => .ended m
    pure .completed
  | .throws reason => do
    Act.note fun _ => .threw m reason
    throw reason
  | .waits promise => do
    Act.note fun s => .waited m ⟨s.errors.size⟩
    pure (.waiting promise m)

def proceed (m : ModuleId) (settlement : Settlement) :
    Act Journal ModuleId (Execution ModuleId) := do
  match settlement with
  | .fulfilled _ => do
    Act.note fun _ => .ended m
    pure .completed
  | .rejected reason => do
    Act.note fun _ => .threw m reason
    throw reason

def host (plan : Plan) (depth : Nat) : Host Journal ModuleId :=
  { Host.bare depth with
    resolve := fun referrer request =>
      match referrer with
      | .module m => plan.answer m request
      | .script _ => .fail .typeError "Cannot find module"
    execute := plan.start
    executeForeign := plan.start
    resume := proceed
    evaluateLeaf := fun m => do
      Act.note fun s => .started m s.outline
      Act.note fun _ => .ended m }

theorem within_note {free : ModuleId → Prop} {entry : Machine Journal ModuleId → Entry}
    (h : ∀ s, (entry s).isAnswer) : Within (Machine.Keeps id free) (Act.note entry) := by
  refine Within.update fun s => Machine.Keeps.of_modules rfl ⟨[entry s], fun e he => ?_, rfl⟩
  rw [List.mem_singleton.1 he]
  exact h s

theorem within_answer (plan : Plan) (m : ModuleId) (request : String) :
    Within (Machine.Keeps id fun _ => False) (plan.answer m request) := by
  have hc := Machine.Keeps.composes (κ := ModuleId) id fun _ => False
  refine Within.bind hc (Within.view hc _) fun made => ?_
  split
  · exact Within.bind hc (within_note fun _ => rfl) fun _ => Within.pure hc _
  · refine Within.bind hc (fun s r s' e => ?_) fun e => ?_
    · cases e
      exact Machine.Keeps.of_modules rfl ⟨[], Journal.answers_nil, (List.append_nil _).symm⟩
    · exact Within.bind hc (within_note fun _ => rfl) fun _ => Within.throw hc _

theorem answer_noted {plan : Plan} {m n : ModuleId} {request : String}
    {s s' : Machine Journal ModuleId} (h : plan.answer m request s = some (.ok n, s')) :
    Entry.resolved m request n ∈ s'.host ∧ s'.Has n := by
  rw [answer, Act.view_bind] at h
  cases hmade : (plan.target m request).filter (·.index < s.modules.size) with
  | none =>
    simp only [hmade] at h
    cases h
  | some n' =>
    simp only [hmade] at h
    cases h
    refine ⟨List.mem_append_right _ (List.mem_cons_self ..), ?_⟩
    have hn : n.index < s.modules.size := by simpa using (Option.filter_eq_some_iff.1 hmade).2
    exact hn

/-- An answer changes the journal and makes an error, and nothing else. -/
theorem answer_beside {plan : Plan} {m : ModuleId} {request : String}
    {r : Except Value ModuleId} {s s' : Machine Journal ModuleId}
    (h : plan.answer m request s = some (r, s')) :
    s'.modules = s.modules ∧ s'.reactions = s.reactions := by
  rw [answer, Act.view_bind] at h
  cases hmade : (plan.target m request).filter (·.index < s.modules.size) with
  | some n =>
    simp only [hmade] at h
    cases h
    exact ⟨rfl, rfl⟩
  | none =>
    simp only [hmade] at h
    cases h
    exact ⟨rfl, rfl⟩

theorem linkConduct (plan : Plan) (depth : Nat) : LinkConduct id (plan.host depth) := by
  have hc := Machine.Keeps.composes (κ := ModuleId) id fun _ => False
  exact
    { resolve := plan.within_answer
      answers := answer_noted
      exportedNames := fun _ => Within.pure hc _
      resolveExport := fun _ _ _ => Within.pure hc _
      linkLeaf := fun _ => Within.pure hc _
      initializeForeign := fun _ => Within.pure hc _
      instantiateForeign := fun _ => Within.pure hc _
      prepare := fun m => Within.pure (Machine.Keeps.composes id (· = m)) _ }

end Plan

end ModuleGraph
