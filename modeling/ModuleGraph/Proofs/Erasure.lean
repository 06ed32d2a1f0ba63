import ModuleGraph.Proofs.Lookups
import ModuleGraph.Proofs.Promises.Wired

/-! # Hosts that keep more

A host may keep more in its state than another one and otherwise do the same. When what it keeps in
addition is erased, each of its evaluations, and each job that ends or goes on with a body, is one
with the other host. So a run can be observed without being changed. -/

namespace ModuleGraph

variable {σ τ κ α β ε : Type} {π : σ → τ}

def Machine.seen (π : σ → τ) (s : Machine σ κ) : Machine τ κ :=
  { modules := s.modules, promises := s.promises, reactions := s.reactions, joins := s.joins
    objects := s.objects, errors := s.errors, scripts := s.scripts, imports := s.imports
    nextTurn := s.nextTurn, jobs := s.jobs, unhandled := s.unhandled, host := π s.host }

theorem Machine.promise_seen (s : Machine σ κ) (p : PromiseId) :
    (s.seen π).promise p = s.promise p := rfl

/-- Whatever the first work does, the second one does where less is seen. -/
def Erases (π : σ → τ) (x : Run σ κ α) (y : Run τ κ α) : Prop :=
  ∀ s a s', x s = some (a, s') → y (s.seen π) = some (a, s'.seen π)

namespace Erases

protected theorem pure (a : α) : Erases π (pure a : Run σ κ α) (pure a) := by
  intro s b s' h
  cases h
  rfl

theorem exhausted {y : Run τ κ α} : Erases π Run.exhausted y := nofun

protected theorem bind {x : Run σ κ α} {y : Run τ κ α} {f : α → Run σ κ β} {g : α → Run τ κ β}
    (hx : Erases π x y) (hf : ∀ a, Erases π (f a) (g a)) : Erases π (x >>= f) (y >>= g) := by
  intro s b s' h
  obtain ⟨a, s₁, h₁, h₂⟩ := Run.bind_eq_some.1 h
  exact Run.bind_eq_some.2 ⟨a, _, hx _ _ _ h₁, hf a _ _ _ h₂⟩

theorem view_bind {look : Machine σ κ → α} {look' : Machine τ κ → α} {f : α → Run σ κ β}
    {g : α → Run τ κ β} (hlook : ∀ s, look' (s.seen π) = look s) (hf : ∀ a, Erases π (f a) (g a)) :
    Erases π (Run.view look >>= f) (Run.view look' >>= g) := by
  intro s b s' h
  rw [Run.view_bind] at h
  rw [Run.view_bind, hlook]
  exact hf _ _ _ _ h

theorem update {f : Machine σ κ → Machine σ κ} {g : Machine τ κ → Machine τ κ}
    (h : ∀ s, g (s.seen π) = (f s).seen π) : Erases π (Run.update f) (Run.update g) := by
  intro s b s' hrun
  cases hrun
  rw [Run.update_apply, h]

theorem make {f : Machine σ κ → α × Machine σ κ} {g : Machine τ κ → α × Machine τ κ}
    (h : ∀ s, g (s.seen π) = ((f s).1, (f s).2.seen π)) : Erases π (Run.make f) (Run.make g) := by
  intro s b s' hrun
  rw [Run.make_apply, Option.some_inj] at hrun
  rw [Run.make_apply, h, hrun]

protected theorem forM {f : β → Run σ κ PUnit} {g : β → Run τ κ PUnit}
    (h : ∀ x, Erases π (f x) (g x)) (xs : List β) : Erases π (xs.forM f) (xs.forM g) := by
  induction xs with
  | nil => exact .pure _
  | cons x rest ih => exact .bind (h x) fun _ => ih

/-! ## Work that may throw -/

theorem act_bind {x : Act σ κ α} {y : Act τ κ α} {f : α → Act σ κ β} {g : α → Act τ κ β}
    (hx : Erases π x.run y.run) (hf : ∀ a, Erases π (f a).run (g a).run) :
    Erases π (x >>= f).run (y >>= g).run := by
  refine Erases.bind hx fun r => ?_
  cases r with
  | ok a => exact hf a
  | error e => exact .pure _

theorem act_lift {x : Run σ κ α} {y : Run τ κ α} (h : Erases π x y) :
    Erases π (Act.ofRun x).run (Act.ofRun y).run := .bind h fun _ => .pure _

theorem act_view_bind {look : Machine σ κ → α} {look' : Machine τ κ → α} {f : α → Act σ κ β}
    {g : α → Act τ κ β} (hlook : ∀ s, look' (s.seen π) = look s)
    (hf : ∀ a, Erases π (f a).run (g a).run) :
    Erases π (Act.view look >>= f).run (Act.view look' >>= g).run := by
  intro s b s' h
  have h : (Act.view look >>= f) s = some (b, s') := h
  change (Act.view look' >>= g) (s.seen π) = _
  rw [Act.view_bind] at h
  rw [Act.view_bind, hlook]
  exact hf _ _ _ _ h

theorem act_update {f : Machine σ κ → Machine σ κ} {g : Machine τ κ → Machine τ κ}
    (h : ∀ s, g (s.seen π) = (f s).seen π) : Erases π (Act.update f).run (Act.update g).run :=
  act_lift (update h)

theorem fail (kind : ErrorKind) (message : String) :
    Erases π (Act.fail kind message : Act σ κ α).run (Act.fail kind message).run := by
  intro s b s' h
  cases h
  rfl

/-! ## Visits -/

theorem visit_bind {x : ExceptT ε (StateT Traversal (Run σ κ)) α}
    {y : ExceptT ε (StateT Traversal (Run τ κ)) α}
    {f : α → ExceptT ε (StateT Traversal (Run σ κ)) β}
    {g : α → ExceptT ε (StateT Traversal (Run τ κ)) β} (hx : ∀ t, Erases π (x t) (y t))
    (hf : ∀ a t, Erases π (f a t) (g a t)) (t : Traversal) :
    Erases π ((x >>= f) t) ((y >>= g) t) := by
  rintro s ⟨r, t'⟩ s' h
  obtain ⟨a, t₁, s₁, h₁, h₂⟩ | ⟨e, h₁, rfl⟩ := ModuleGraph.visit_bind.1 h
  · exact ModuleGraph.visit_bind.2 (.inl ⟨a, t₁, _, hx t _ _ _ h₁, hf a t₁ _ _ _ h₂⟩)
  · exact ModuleGraph.visit_bind.2 (.inr ⟨e, hx t _ _ _ h₁, rfl⟩)

theorem visit_ofRun {x : Run σ κ α} {y : Run τ κ α} (h : Erases π x y) (t : Traversal) :
    Erases π (EvalVisit.ofRun x t) (EvalVisit.ofRun y t) := by
  rintro s ⟨r, t'⟩ s' hrun
  obtain ⟨rfl, a, rfl, hx⟩ := EvalVisit.ofRun_eq_some.1 hrun
  exact EvalVisit.ofRun_eq_some.2 ⟨rfl, a, rfl, h _ _ _ hx⟩

theorem visit_ofAct {x : Act σ κ α} {y : Act τ κ α} (h : Erases π x.run y.run) (t : Traversal) :
    Erases π (EvalVisit.ofAct x t) (EvalVisit.ofAct y t) := by
  rintro s ⟨r, t'⟩ s' hrun
  obtain ⟨rfl, hx⟩ := EvalVisit.ofAct_eq_some.1 hrun
  exact EvalVisit.ofAct_eq_some.2 ⟨rfl, h _ _ _ hx⟩

theorem visit_view_bind {look : Machine σ κ → α} {look' : Machine τ κ → α}
    {f : α → EvalVisit σ κ β} {g : α → EvalVisit τ κ β} (hlook : ∀ s, look' (s.seen π) = look s)
    (hf : ∀ a t, Erases π (f a t) (g a t)) (t : Traversal) :
    Erases π ((EvalVisit.view look >>= f) t) ((EvalVisit.view look' >>= g) t) := by
  intro s b s' h
  rw [EvalVisit.view_bind] at h
  rw [EvalVisit.view_bind, hlook]
  exact hf _ t _ _ _ h

theorem visit_update {f : Machine σ κ → Machine σ κ} {g : Machine τ κ → Machine τ κ}
    (h : ∀ s, g (s.seen π) = (f s).seen π) (t : Traversal) :
    Erases π (EvalVisit.update f t) (EvalVisit.update g t) := visit_ofRun (update h) t

theorem visit_pure (a : α) (t : Traversal) :
    Erases π ((pure a : EvalVisit σ κ α) t) ((pure a : EvalVisit τ κ α) t) := .pure _

theorem visit_throw (e : Value) (t : Traversal) :
    Erases π ((throw e : EvalVisit σ κ α) t) ((throw e : EvalVisit τ κ α) t) := .pure _

theorem visit_ite {p : Prop} [Decidable p] {x x' : EvalVisit σ κ α} {y y' : EvalVisit τ κ α}
    (h : ∀ t, Erases π (x t) (y t)) (h' : ∀ t, Erases π (x' t) (y' t)) (t : Traversal) :
    Erases π ((if p then x else x') t) ((if p then y else y') t) := by
  by_cases hp : p
  · simpa only [if_pos hp] using h t
  · simpa only [if_neg hp] using h' t

theorem visit_forM {f : β → EvalVisit σ κ PUnit} {g : β → EvalVisit τ κ PUnit}
    (h : ∀ x t, Erases π (f x t) (g x t)) (xs : List β) :
    ∀ t, Erases π ((xs.forM f) t) ((xs.forM g) t) := by
  induction xs with
  | nil => exact fun t => visit_pure _ t
  | cons x rest ih => exact visit_bind (h x) fun _ => ih

end Erases

/-- A host that keeps more than another one, and otherwise answers requests and runs bodies like
it. -/
structure Host.Keeps (π : σ → τ) (first : Host σ κ) (second : Host τ κ) : Prop where
  depth : first.depth = second.depth
  track : ∀ p e x, second.track p e (π x) = π (first.track p e x)
  resolve : ∀ m request,
    Erases π (first.resolve (.module m) request).run (second.resolve (.module m) request).run
  execute : ∀ m, Erases π (first.execute m).run (second.execute m).run
  executeForeign : ∀ m, Erases π (first.executeForeign m).run (second.executeForeign m).run
  leaf : ∀ m, Erases π (first.evaluateLeaf m).run (second.evaluateLeaf m).run
  resume : ∀ code x, Erases π (first.resume code x).run (second.resume code x).run

namespace Host.Keeps

variable {first : Host σ κ} {second : Host τ κ} {s s' : Machine σ κ}

/-! ## Promises -/

section Promises

variable (h : first.Keeps π second)
include h

theorem noteRejection (s : Machine σ κ) (p : PromiseId) (e : RejectionEvent) :
    (s.seen π).noteRejection second.track p e = (s.noteRejection first.track p e).seen π := by
  simp only [Machine.noteRejection, Machine.seen, h.track]

theorem rejectPending (s : Machine σ κ) (p : PromiseId) (e : Value) :
    (s.seen π).rejectPending second.track p e = (s.rejectPending first.track p e).seen π := by
  rw [Machine.rejectPending, Machine.promise_seen, Machine.rejectPending]
  cases s.promise p with
  | pending reactions resolved =>
    dsimp only
    split
    · exact congrArg (·.enqueueReactions reactions (.rejected e)) (noteRejection h
        (s.setPromise p (.rejected e !reactions.isEmpty)) p .unhandled)
    · rfl
  | fulfilled | rejected => rfl

omit h in
theorem fulfil (s : Machine σ κ) (p : PromiseId) (v : Value) :
    (s.seen π).fulfil p v = (s.fulfil p v).seen π := by
  rw [Machine.fulfil, Machine.promise_seen, Machine.fulfil]
  cases s.promise p <;> rfl

omit h in
theorem markResolved (s : Machine σ κ) (p : PromiseId) :
    (s.seen π).markResolved p = (s.markResolved p).seen π := by
  rw [Machine.markResolved, Machine.promise_seen, Machine.markResolved]
  cases s.promise p <;> rfl

theorem reject (s : Machine σ κ) (c : Capability) (e : Value) :
    (s.seen π).reject second.track c e = (s.reject first.track c e).seen π := by
  rw [Machine.reject, Machine.reject, rejectPending h]
  exact (apply_ite (Machine.seen π) (s.isSpent c = true) s _).symm

omit h in
theorem resolve_undefined (track : Tracker σ) (track' : Tracker τ) (s : Machine σ κ)
    (c : Capability) :
    (s.seen π).resolve track' c .undefined = (s.resolve track c .undefined).seen π := by
  rw [Machine.resolve, Machine.resolve]
  dsimp only
  rw [markResolved, fulfil]
  exact (apply_ite (Machine.seen π) (s.isSpent c = true) s _).symm

theorem markHandled (s : Machine σ κ) (p : PromiseId) :
    (s.seen π).markHandled second.track p = (s.markHandled first.track p).seen π := by
  rw [Machine.markHandled, Machine.promise_seen, Machine.markHandled]
  cases s.promise p with
  | rejected e handled =>
    cases handled with
    | false => exact noteRejection h (s.setPromise p (.rejected e true)) p .handled
    | true => rfl
  | pending | fulfilled => rfl

theorem attach (s : Machine σ κ) (p : PromiseId) (reaction : Reaction κ) :
    (s.seen π).attach second.track p reaction = (s.attach first.track p reaction).seen π := by
  have hpromise : ((s.seen π).newReaction reaction).2.promise p =
      (s.newReaction reaction).2.promise p := rfl
  rw [Machine.attach, Machine.attach]
  dsimp only
  rw [hpromise]
  cases (s.newReaction reaction).2.promise p with
  | pending | fulfilled => rfl
  | rejected e handled =>
    exact congrArg (·.enqueue (.react (s.newReaction reaction).1 (.rejected e)))
      (markHandled h (s.newReaction reaction).2 p)

theorem newRejected (s : Machine σ κ) (e : Value) : (s.seen π).newRejected second.track e =
    ((s.newRejected first.track e).1, (s.newRejected first.track e).2.seen π) :=
  congrArg (Prod.mk _) (reject h s.newCapability.2 s.newCapability.1 e)

end Promises

/-! ## Bodies -/

theorem runBody (h : first.Keeps π second) (m : ModuleId) :
    Erases π (ModuleGraph.runBody first m).run (ModuleGraph.runBody second m).run := by
  refine .act_view_bind (fun _ => rfl) fun kind => ?_
  split
  · exact h.execute m
  · exact h.executeForeign m
  · exact .fail _ _
  · exact .fail _ _

theorem runSyncBody (h : first.Keeps π second) (m : ModuleId) :
    Erases π (ModuleGraph.runSyncBody first m).run (ModuleGraph.runSyncBody second m).run := by
  refine .act_bind (h.runBody m) fun execution => ?_
  cases execution with
  | completed => exact .pure _
  | waiting => exact .fail _ _

theorem continueBody (h : first.Keeps π second) (s : Machine σ κ) (m : ModuleId) (c : Capability)
    (r : Except Value (Execution κ)) :
    (s.seen π).continueBody second m c r = (s.continueBody first m c r).seen π := by
  cases r with
  | error e => exact h.reject s c e
  | ok execution =>
    cases execution with
    | completed => exact resolve_undefined first.track second.track s c
    | waiting p code => exact h.attach s p _

theorem startAsyncBody (h : first.Keeps π second) (m : ModuleId) :
    Erases π (ModuleGraph.startAsyncBody first m) (ModuleGraph.startAsyncBody second m) := by
  refine .bind (.make fun _ => rfl) fun c => ?_
  refine .bind (.update fun s => h.attach s _ _) fun _ => ?_
  exact .bind (h.runBody m) fun r => .update fun s => h.continueBody s m c r

/-! ## Visits -/

theorem keepPromise (π : σ → τ) (m : ModuleId) (p : PromiseId) : Erases π (κ := κ) (do
    Run.update fun s => s.updateKind m fun
      | .leaf _ => .leaf (.evaluated p)
      | k => k
    pure p) (do
    Run.update fun s => s.updateKind m fun
      | .leaf _ => .leaf (.evaluated p)
      | k => k
    pure p) := .bind (.update fun _ => rfl) fun _ => .pure p

theorem evaluateLeaf (h : first.Keeps π second) (m : ModuleId) :
    Erases π (ModuleGraph.evaluateLeaf first m) (ModuleGraph.evaluateLeaf second m) := by
  refine .view_bind (fun _ => rfl) fun kind => ?_
  split
  · refine .bind (h.leaf m) fun r => ?_
    cases r with
    | ok => exact .bind (.make fun _ => rfl) (keepPromise π m)
    | error e => exact .bind (.make fun s => h.newRejected s e) (keepPromise π m)
  · exact .pure _
  · exact .bind (.make fun _ => rfl) fun e => .make fun s => h.newRejected s e

theorem requireLeaf (h : first.Keeps π second) (m : ModuleId) :
    Erases π (ModuleGraph.requireLeaf first m).run (ModuleGraph.requireLeaf second m).run := by
  refine .act_bind (.act_lift (h.evaluateLeaf m)) fun p => ?_
  refine .act_view_bind (fun _ => rfl) fun state => ?_
  cases state with
  | rejected e handled =>
    exact .act_bind (.act_update fun s => h.markHandled s p) fun _ => .pure _
  | pending | fulfilled => exact .pure _

theorem openEvaluation (m : ModuleId) (t : Traversal) :
    Erases π (ModuleGraph.openEvaluation (σ := σ) (κ := κ) m t)
      (ModuleGraph.openEvaluation m t) := by
  intro s a s' hrun
  cases hrun
  rfl

theorem await (s : Machine σ κ) (m d : ModuleId) : (s.seen π).await m d = (s.await m d).seen π := by
  have hd : (s.seen π).cyclic d = s.cyclic d := rfl
  rw [Machine.await, Machine.await, hd]
  split <;> rfl

theorem afterRequest (m d : ModuleId) :
    ∀ t, Erases π (ModuleGraph.afterRequest (σ := σ) (κ := κ) m d t)
      (ModuleGraph.afterRequest m d t) := by
  refine .visit_view_bind (fun _ => rfl) fun fields => ?_
  cases fields with
  | none => exact .visit_pure _
  | some c =>
    refine .visit_ite (.visit_update fun s => ?_) (.visit_view_bind (fun _ => rfl) fun root => ?_)
    · exact await (s.updateCyclic m (·.reach c.ancestor)) m d
    · refine .visit_view_bind (fun _ => rfl) fun error => ?_
      cases error with
      | none => exact .visit_update fun s => await s m root
      | some e => exact .visit_throw e

theorem runOrWait (h : first.Keeps π second) (m : ModuleId) :
    ∀ t, Erases π (ModuleGraph.runOrWait first m t) (ModuleGraph.runOrWait second m t) := by
  refine .visit_view_bind (fun _ => rfl) fun c => ?_
  refine .visit_ite (.visit_bind (.visit_update fun _ => rfl) fun _ => ?_)
    (.visit_ofAct (h.runSyncBody m))
  exact .visit_ite (.visit_ofRun (h.startAsyncBody m)) (.visit_pure _)

theorem foldl_seen {f : Machine σ κ → ModuleId → Machine σ κ}
    {g : Machine τ κ → ModuleId → Machine τ κ} (hf : ∀ s x, g (s.seen π) x = (f s x).seen π)
    (xs : List ModuleId) (s : Machine σ κ) : xs.foldl g (s.seen π) = (xs.foldl f s).seen π := by
  induction xs generalizing s with
  | nil => rfl
  | cons x rest ih => rw [List.foldl_cons, hf, ih, List.foldl_cons]

theorem closeEvaluation (m : ModuleId) :
    ∀ t, Erases π (ModuleGraph.closeEvaluation (σ := σ) (κ := κ) m t)
      (ModuleGraph.closeEvaluation m t) := by
  refine .visit_view_bind (fun _ => rfl) fun root => .visit_ite ?_ (.visit_pure _)
  refine .visit_bind (fun t => .pure _) fun t => ?_
  refine .visit_bind (.visit_update fun s => ?_) fun _ t => .pure _
  exact foldl_seen (fun _ _ => rfl) (t.close m).1 s

/-- A module that is evaluated already, or waits, says again how its evaluation has ended. -/
theorem restate (π : σ → τ) (e : Option Value) (t : Traversal) : Erases π
    ((match e with
      | some e => throw e
      | none => pure () : EvalVisit σ κ Unit) t)
    ((match e with
      | some e => throw e
      | none => pure () : EvalVisit τ κ Unit) t) := by
  cases e with
  | none => exact .visit_pure _ t
  | some e => exact .visit_throw e t

theorem visitEvaluation (h : first.Keeps π second) (depth : Nat) :
    ∀ m t, Erases π (ModuleGraph.visitEvaluation first depth m t)
      (ModuleGraph.visitEvaluation second depth m t) := by
  induction depth with
  | zero => exact fun m => .visit_ofRun .exhausted
  | succ depth ih =>
    intro m
    have hrequests : ∀ requests : List String, ∀ t, Erases π
        ((requests.forM fun request => do
          let required ← EvalVisit.ofAct (first.resolve (.module m) request)
          ModuleGraph.visitEvaluation first depth required
          ModuleGraph.afterRequest m required) t)
        ((requests.forM fun request => do
          let required ← EvalVisit.ofAct (second.resolve (.module m) request)
          ModuleGraph.visitEvaluation second depth required
          ModuleGraph.afterRequest m required) t) := .visit_forM fun r =>
      .visit_bind (.visit_ofAct (h.resolve m r)) fun d =>
        .visit_bind (ih d) fun _ => afterRequest m d
    have hopen := fun c : Cyclic => Erases.visit_bind (openEvaluation (π := π) (κ := κ) m) fun _ =>
      .visit_bind (hrequests c.requested) fun _ => .visit_bind (h.runOrWait m) fun _ =>
        closeEvaluation m
    refine .visit_view_bind (fun _ => rfl) fun fields => ?_
    cases fields with
    | none => exact .visit_ofAct (h.requireLeaf m)
    | some c =>
      dsimp only
      cases c.status with
      | evaluatingAsync | evaluated => exact restate π c.error
      | evaluating => exact .visit_pure _
      | unlinked | linking | linked => exact hopen c

theorem finishEvaluation (h : first.Keeps π second) (s : Machine σ κ) (m : ModuleId)
    (c : Capability) (result : Except Value Unit) (stack : List ModuleId) :
    (s.seen π).finishEvaluation second m c result stack =
      (s.finishEvaluation first m c result stack).seen π := by
  cases result with
  | ok =>
    refine Eq.trans ?_ (apply_ite (Machine.seen π) (s.status m = .evaluated) _ _).symm
    rw [← resolve_undefined first.track second.track]
    rfl
  | error e =>
    have hopen := foldl_seen (π := π) (κ := κ) (f := fun s x => s.updateCyclic x (·.fail e))
      (g := fun s x => s.updateCyclic x (·.fail e)) (fun _ _ => rfl) stack s
    exact (congrArg (fun s : Machine τ κ => s.reject second.track c e) hopen).trans (h.reject _ c e)

theorem startEvaluation (h : first.Keeps π second) (m : ModuleId) :
    Erases π (ModuleGraph.startEvaluation first m) (ModuleGraph.startEvaluation second m) := by
  refine .bind (.make fun _ => rfl) fun c => .bind (.update fun _ => rfl) fun _ => ?_
  refine .bind ?_ fun r => .bind (.update fun s => h.finishEvaluation s m c r.1 r.2.stack)
    fun _ => .pure _
  rw [h.depth]
  exact h.visitEvaluation second.depth m ⟨[], 0⟩

/-- The evaluation of a root is the one that was asked for before, or it starts now. -/
theorem askRoot (h : first.Keeps π second) (m : ModuleId) : Erases π
    (do match ← Run.view fun s => (s.cyclic m).capability with
      | some c => pure c.promise
      | none => ModuleGraph.startEvaluation first m)
    (do match ← Run.view fun s => (s.cyclic m).capability with
      | some c => pure c.promise
      | none => ModuleGraph.startEvaluation second m) := by
  refine .view_bind (fun _ => rfl) fun capability => ?_
  cases capability with
  | some c => exact .pure _
  | none => exact h.startEvaluation m

theorem evaluate (h : first.Keeps π second) (m : ModuleId) :
    Erases π (first.evaluate m) (second.evaluate m) := by
  refine .view_bind (fun _ => rfl) fun cyclic => ?_
  split
  · refine .view_bind (fun _ => rfl) fun status => ?_
    split
    · exact .bind (.make fun _ => rfl) fun e => .make fun s => h.newRejected s e
    · split
      · exact .bind (.pure _) h.askRoot
      · exact .view_bind (fun _ => rfl) h.askRoot
  · exact h.evaluateLeaf m

/-! ## Modules that wait -/

theorem answer (s : Machine σ κ) (m : ModuleId) :
    (s.seen π).answer second m = (s.answer first m).seen π := by
  have hm : (s.seen π).cyclic m = s.cyclic m := rfl
  rw [Machine.answer, Machine.answer, hm]
  cases (s.cyclic m).capability with
  | none => rfl
  | some c => exact resolve_undefined first.track second.track s c

theorem gatherOne {gather : Machine σ κ → ModuleId → List ModuleId → List ModuleId × Machine σ κ}
    {gather' : Machine τ κ → ModuleId → List ModuleId → List ModuleId × Machine τ κ}
    (hg : ∀ s m ready,
      gather' (s.seen π) m ready = ((gather s m ready).1, (gather s m ready).2.seen π))
    (s : Machine σ κ) (ready : List ModuleId) (m : ModuleId) :
    Machine.gatherOne gather' (s.seen π) ready m =
      ((Machine.gatherOne gather s ready m).1, (Machine.gatherOne gather s ready m).2.seen π) := by
  have hm : (s.seen π).cyclic m = s.cyclic m := rfl
  have hf : (s.seen π).rootFailed m = s.rootFailed m := rfl
  have hr : (s.seen π).release m = (s.release m).seen π := rfl
  have hrm : ((s.release m).seen π).cyclic m = (s.release m).cyclic m := rfl
  rw [Machine.gatherOne, Machine.gatherOne, hm, hf]
  split
  · rfl
  · split
    · rfl
    · rfl
    · dsimp only
      split
      · rw [hr, hrm]
        split
        · rfl
        · exact hg _ _ _
      · rfl

theorem gatherReady (fuel : Nat) (s : Machine σ κ) (m : ModuleId) (ready : List ModuleId) :
    Machine.gatherReady fuel (s.seen π) m ready =
      ((Machine.gatherReady fuel s m ready).1, (Machine.gatherReady fuel s m ready).2.seen π) := by
  induction fuel generalizing s m ready with
  | zero => rfl
  | succ fuel ih =>
    rw [Machine.gatherReady, Machine.gatherReady]
    change List.foldl _ (ready, s.seen π) (s.cyclic m).parents = _
    generalize (s.cyclic m).parents = parents
    induction parents generalizing s ready with
    | nil => rfl
    | cons x rest ihp =>
      rw [List.foldl_cons, List.foldl_cons]
      dsimp only
      rw [gatherOne ih, ihp]

theorem failWaiting (h : first.Keeps π second) (fuel : Nat) (s : Machine σ κ) (m : ModuleId)
    (e : Value) :
    (s.seen π).failWaiting second fuel m e = (s.failWaiting first fuel m e).seen π := by
  induction fuel generalizing s m with
  | zero => rfl
  | succ fuel ih =>
    have hm : (s.seen π).cyclic m = s.cyclic m := rfl
    rw [Machine.failWaiting, Machine.failWaiting, hm]
    dsimp only
    split
    · rfl
    · have hparents := foldl_seen (f := fun s x => s.failWaiting first fuel x e)
        (g := fun s x => s.failWaiting second fuel x e) (fun s x => ih s x) (s.cyclic m).parents
        (s.updateCyclic m fun c => { c.fail e with order := .done })
      cases (s.cyclic m).capability with
      | none => exact hparents
      | some c => exact (congrArg (·.reject second.track c e) hparents).trans (h.reject _ c e)

theorem bodyFailed (h : first.Keeps π second) (s : Machine σ κ) (m : ModuleId) (e : Value) :
    (s.seen π).bodyFailed second m e = (s.bodyFailed first m e).seen π :=
  h.failWaiting _ s m e

theorem runReady (h : first.Keeps π second) (m : ModuleId) :
    Erases π (ModuleGraph.runReady first m) (ModuleGraph.runReady second m) := by
  refine .view_bind (fun _ => rfl) fun c => ?_
  split
  · exact .pure _
  · split
    · exact h.startAsyncBody m
    · refine .bind (h.runSyncBody m) fun r => ?_
      cases r with
      | ok => exact .update fun s => answer (s.complete m) m
      | error e => exact .update fun s => h.bodyFailed s m e

theorem bodySucceeded (h : first.Keeps π second) (m : ModuleId) :
    Erases π (ModuleGraph.bodySucceeded first m) (ModuleGraph.bodySucceeded second m) := by
  refine .view_bind (fun _ => rfl) fun status => ?_
  split
  · exact .pure _
  · refine .bind (.update fun s => answer (s.complete m) m) fun _ => ?_
    refine .bind (.make fun s => gatherReady _ s m []) fun ready => ?_
    exact .view_bind (fun _ => rfl) fun ready => .forM h.runReady ready

/-! ## Jobs -/

/-- A handler that ends a body or goes on with one is seen as such. -/
theorem runHandler (h : first.Keeps π second) {handler : Handler κ} (hb : handler.isOfBody)
    (x : Settlement) :
    Erases π (ModuleGraph.runHandler first handler x).run
      (ModuleGraph.runHandler second handler x).run := by
  cases handler with
  | passOn | callback | imported | joined => exact hb.elim
  | bodyEnded m =>
    cases x with
    | fulfilled v => exact .act_bind (.act_lift (h.bodySucceeded m)) fun _ => .pure _
    | rejected e => exact .act_bind (.act_update fun s => h.bodyFailed s m e) fun _ => .pure _
  | resumeBody m c code =>
    refine .act_bind (.act_lift (h.resume code x)) fun r => ?_
    exact .act_bind (.act_update fun s => h.continueBody s m c r) fun _ => .pure _

end Host.Keeps

end ModuleGraph
