import ModuleGraph.Proofs.Along

/-! # Trials

Linking and evaluation rely on conditions at many points: that a module is in the right stage, that
it is on the stack, that a count is not zero. A trial is work in which such conditions are asserted.
The first assertion that fails ends the trial, together with the machine at that moment. A trial is
sure if it goes like the work without assertions, and the assertions fail at worst on machines that
are ruled out. -/

namespace ModuleGraph

variable {σ κ α β ε : Type}

inductive Assertion where
  /-- A module whose fields are looked up can take part in cycles. -/
  | isRecord
  /-- A module that is looked up and takes no part in cycles is no record. -/
  | isLeaf
  /-- A module that is linked for the first time was unlinked. -/
  | isUnlinked
  /-- A module that was visited is not unlinked any more. -/
  | isVisited
  /-- A module is open just if it is on the stack. -/
  | openOnStack
  /-- A module stands on the stack once. -/
  | onceOnStack
  /-- What a module reaches was not visited after it. -/
  | reachesBack
  /-- The root of a cycle is found on the stack. -/
  | rootOnStack
  /-- No module is left on the stack. -/
  | stackEmpty
  /-- A module whose linking is taken back was being linked. -/
  | isLinking
  /-- A module that is evaluated for the first time was linked. -/
  | isLinked
  /-- A module that fails with the search was being evaluated. -/
  | isEvaluating
  /-- A module has not failed before. -/
  | notFailed
  /-- A module has been evaluated. -/
  | isEvaluated
  /-- A module that was evaluated when its body ended has failed. -/
  | hasFailed
  /-- The root of a closed cycle waits or was evaluated. -/
  | rootFinished
  /-- A module that gets a turn had none. -/
  | noTurn
  /-- A module that is told has a turn. -/
  | hasTurn
  /-- A module whose body may wait is being evaluated or waits. -/
  | isUnderway
  /-- A module whose body may wait has top-level await. -/
  | mayWait
  /-- A module whose body has ended waits. -/
  | isWaiting
  /-- A module that is told counts what it waits for. -/
  | countsWaits
  /-- A module that is told waits for something. -/
  | waitsForMore
  /-- The promise of a leaf that was evaluated is settled. -/
  | leafSettled
  deriving DecidableEq, Repr

/-- Whether nothing that the module is known to reach was visited after it; what was not visited
comes first. -/
def Cyclic.reachesBack (c : Cyclic) : Bool :=
  match c.ancestor, c.visit with
  | none, _ => true
  | some _, none => false
  | some ancestor, some visit => ancestor ≤ visit

/-- A module that is searched does not reach what was visited after it. -/
theorem reachesBack_of_le {c : Cyclic} (hv : c.visit.isSome)
    (hle : c.ancestor.getD 0 ≤ c.visit.getD 0) : c.reachesBack := by
  obtain ⟨i, hi⟩ := Option.isSome_iff_exists.1 hv
  rw [hi, Option.getD_some] at hle
  rw [Cyclic.reachesBack, hi]
  cases ha : c.ancestor with
  | none => rfl
  | some j =>
    rw [ha, Option.getD_some] at hle
    simpa using hle

theorem Traversal.mem_of_close {t : Traversal} {m x : ModuleId} (hx : x ∈ (t.close m).1) :
    x ∈ t.stack := by
  rw [← t.close_append m]
  exact List.mem_append_left _ hx

/-- An assertion that failed, and the machine at that moment. -/
structure Breach (σ κ : Type) where
  assertion : Assertion
  machine : Machine σ κ

/-- Work in which assertions are checked. -/
abbrev Trial (σ κ : Type) := StateT (Machine σ κ) (ExceptT (Breach σ κ) Option)

abbrev TrialAct (σ κ : Type) := ExceptT Value (Trial σ κ)

abbrev TrialVisit (ε σ κ : Type) := ExceptT ε (StateT Traversal (Trial σ κ))

namespace Trial

def ofRun (r : Run σ κ α) : Trial σ κ α := fun s => (r s).map .ok

def update (f : Machine σ κ → Machine σ κ) : Trial σ κ Unit := ofRun (Run.update f)

def view (f : Machine σ κ → α) : Trial σ κ α := ofRun (Run.view f)

def demand (a : Assertion) (p : Machine σ κ → Prop) [DecidablePred p] : Trial σ κ Unit := fun s =>
  if p s then some (.ok ((), s)) else some (.error ⟨a, s⟩)

def fields (m : ModuleId) : Trial σ κ Cyclic := do
  demand .isRecord fun s => s.isCyclic m
  view fun s => s.cyclic m

def change (m : ModuleId) (f : Cyclic → Cyclic) : Trial σ κ Unit := do
  demand .isRecord fun s => s.isCyclic m
  update fun s => s.updateCyclic m f

end Trial

namespace TrialAct

def ofTrial (x : Trial σ κ α) : TrialAct σ κ α := ExceptT.lift x

def ofAct (a : Act σ κ α) : TrialAct σ κ α := Trial.ofRun a.outcome

end TrialAct

namespace TrialVisit

def ofTrial (x : Trial σ κ α) : TrialVisit ε σ κ α := ExceptT.lift (StateT.lift x)

def ofTrialAct (a : TrialAct σ κ α) : TrialVisit Value σ κ α := fun t => do
  let r ← a.run
  pure (r, t)

def ofVisit (x : ExceptT ε (StateT Traversal (Run σ κ)) α) : TrialVisit ε σ κ α :=
  fun t => Trial.ofRun (x t)

def view (f : Machine σ κ → α) : TrialVisit ε σ κ α := ofTrial (Trial.view f)

def demand (a : Assertion) (p : Traversal → Machine σ κ → Prop) [∀ t, DecidablePred (p t)] :
    TrialVisit ε σ κ Unit :=
  fun t => do
    Trial.demand a (p t)
    pure (.ok (), t)

end TrialVisit

/-! ## Sure trials -/

/-- A trial goes like the work that it checks, unless an assertion fails on a machine of which `J`
is not true. -/
def Sure (J : Machine σ κ → Prop) (x : Trial σ κ α) (r : Run σ κ α) (s : Machine σ κ) : Prop :=
  x s = (r s).map .ok ∨ ∃ b, x s = some (.error b) ∧ ¬J b.machine

namespace Sure

variable {J : Machine σ κ → Prop} {s : Machine σ κ} {t : Traversal}

theorem ofRun (r : Run σ κ α) : Sure J (Trial.ofRun r) r s := .inl rfl

theorem mono {J' : Machine σ κ → Prop} {x : Trial σ κ α} {r : Run σ κ α} (hx : Sure J' x r s)
    (h : ∀ b, x s = some (.error b) → J b.machine → J' b.machine) : Sure J x r s :=
  hx.imp id fun ⟨b, hb, hj⟩ => ⟨b, hb, fun hb' => hj (h b hb hb')⟩

theorem of_eq {x : Trial σ κ α} {r q : Run σ κ α} (h : r s = q s) (hx : Sure J x q s) :
    Sure J x r s := by
  rwa [Sure, h]

protected theorem pure (a : α) : Sure J (pure a) (pure a) s := .inl rfl

protected theorem bind {x : Trial σ κ α} {f : α → Trial σ κ β} {r : Run σ κ α}
    {g : α → Run σ κ β} (hx : Sure J x r s)
    (hf : ∀ a s', r s = some (a, s') → Sure J (f a) (g a) s') :
    Sure J (x >>= f) (r >>= g) s := by
  obtain hx | ⟨b, hb, hj⟩ := hx
  · cases hr : r s with
    | none =>
      refine .inl ?_
      rw [hr] at hx
      change ((x s : Option _) >>= _) = Option.map _ (r s >>= _)
      rw [hx, hr]
      rfl
    | some p =>
      obtain ⟨a, s'⟩ := p
      rw [hr] at hx
      have hxf : (x >>= f) s = f a s' := by
        change ((x s : Option _) >>= _) = _
        rw [hx]
        rfl
      have hrg : (r >>= g) s = g a s' := by
        change (r s >>= _) = _
        rw [hr]
        rfl
      rw [Sure, hxf, hrg]
      exact hf a s' hr
  · refine .inr ⟨b, ?_, hj⟩
    change ((x s : Option _) >>= _) = _
    rw [hb]
    rfl

theorem demand {a : Assertion} {p : Machine σ κ → Prop} [DecidablePred p]
    {f : Unit → Trial σ κ α} {r : Run σ κ α} (hp : J s → p s) (hf : Sure J (f ()) r s) :
    Sure J (Trial.demand a p >>= f) r s := by
  have he : (Trial.demand a p >>= f) s =
      if p s then f () s else some (.error ⟨a, s⟩) := by
    change ((Trial.demand a p s : Option _) >>= _) = _
    rw [Trial.demand]
    split <;> rfl
  by_cases h : p s
  · rwa [Sure, he, if_pos h]
  · exact .inr ⟨⟨a, s⟩, by rw [he, if_neg h], fun hj => h (hp hj)⟩

theorem demand_last {a : Assertion} {p : Machine σ κ → Prop} [DecidablePred p]
    (hp : J s → p s) : Sure J (Trial.demand a p) (pure ()) s := by
  have h := demand (a := a) (f := fun _ => pure ()) hp (Sure.pure ())
  rwa [show (Trial.demand a p >>= fun _ => pure ()) = Trial.demand a p from bind_pure _] at h

theorem demand_all {a : Assertion} {p : β → Machine σ κ → Prop} [∀ x, DecidablePred (p x)]
    {xs : List β} {f : PUnit → Trial σ κ α} {r : Run σ κ α} (hp : ∀ x ∈ xs, p x s)
    (hf : Sure J (f ⟨⟩) r s) : Sure J (xs.forM (fun x => Trial.demand a (p x)) >>= f) r s := by
  induction xs with
  | nil => exact hf
  | cons x rest ih =>
    change Sure J ((Trial.demand a (p x) >>= fun _ => rest.forM _) >>= f) r s
    rw [bind_assoc]
    exact demand (fun _ => hp x (List.mem_cons_self ..))
      (ih fun y hy => hp y (List.mem_cons_of_mem _ hy))

theorem fields {m : ModuleId} {f : Cyclic → Trial σ κ α} {r : Run σ κ α}
    (hm : J s → s.isCyclic m) (hf : Sure J (f (s.cyclic m)) r s) :
    Sure J (Trial.fields m >>= f) r s := by
  rw [Trial.fields, bind_assoc]
  exact demand hm hf

theorem change {m : ModuleId} {f : Cyclic → Cyclic} (hm : J s → s.isCyclic m) :
    Sure J (Trial.change m f) (Run.update fun s => s.updateCyclic m f) s :=
  demand hm (ofRun _)

/-- A change, and then work that starts where the change has led. -/
theorem step {x : Trial σ κ Unit} {g : Machine σ κ → Machine σ κ} {f : Unit → Trial σ κ α}
    {r q : Run σ κ α} (hx : Sure J x (Run.update g) s) (he : r s = q (g s))
    (hf : Sure J (f ()) q (g s)) : Sure J (x >>= f) r s :=
  .of_eq (q := Run.update g >>= fun _ => q) he <| .bind hx fun _ _ h => by
    cases h
    exact hf

protected theorem forM {f : β → Trial σ κ PUnit} {g : β → Run σ κ PUnit}
    {I : List β → Machine σ κ → Prop}
    (hf : ∀ x rest s, I (x :: rest) s → Sure J (f x) (g x) s)
    (hI : ∀ x rest s s', I (x :: rest) s → g x s = some (⟨⟩, s') → I rest s') (xs : List β) :
    ∀ s, I xs s → Sure J (xs.forM f) (xs.forM g) s := by
  induction xs with
  | nil => exact fun s _ => .pure _
  | cons x rest ih =>
    exact fun s h => .bind (hf x rest s h) fun _ s' hs' => ih s' (hI x rest s s' h hs')

theorem foldl {f : β → Trial σ κ PUnit} {g : Machine σ κ → β → Machine σ κ}
    {I : List β → Machine σ κ → Prop}
    (hf : ∀ x rest s, I (x :: rest) s → Sure J (f x) (Run.update fun s => g s x) s)
    (hI : ∀ x rest s, I (x :: rest) s → I rest (g s x)) (xs : List β) (h : I xs s) :
    Sure J (xs.forM f) (Run.update fun s => xs.foldl g s) s := by
  induction xs generalizing s with
  | nil => exact .pure _
  | cons x rest ih =>
    exact Sure.bind (g := fun _ => Run.update fun s => rest.foldl g s) (hf x rest s h)
      fun _ s' hs' => by
        cases hs'
        exact ih (hI x rest s h)

theorem foldlM {γ : Type} {f : γ → β → Trial σ κ γ}
    {g : γ × Machine σ κ → β → γ × Machine σ κ} {I : List β → γ → Machine σ κ → Prop}
    (hf : ∀ x rest c s, I (x :: rest) c s → Sure J (f c x) (Run.make fun s => g (c, s) x) s)
    (hI : ∀ x rest c s, I (x :: rest) c s → I rest (g (c, s) x).1 (g (c, s) x).2) (xs : List β) :
    ∀ c s, I xs c s → Sure J (xs.foldlM f c) (Run.make fun s => xs.foldl g (c, s)) s := by
  induction xs with
  | nil => exact fun c s _ => .pure _
  | cons x rest ih =>
    intro c s h
    rw [List.foldlM_cons]
    exact Sure.bind (g := fun c => Run.make fun s => rest.foldl g (c, s)) (hf x rest c s h)
      fun c' s' hs' => ih c' s' (by
        have hrest := hI x rest c s h
        rwa [show g (c, s) x = (c', s') from Option.some.inj hs'] at hrest)

/-! ### Work that may throw -/

theorem act_bind {x : TrialAct σ κ α} {f : α → TrialAct σ κ β} {r : Act σ κ α}
    {g : α → Act σ κ β} (hx : Sure J x r s)
    (hf : ∀ a s', r s = some (.ok a, s') → Sure J (f a) (g a) s') :
    Sure J (x >>= f : TrialAct σ κ β) (r >>= g : Act σ κ β) s := by
  refine Sure.bind hx fun a s' h => ?_
  cases a with
  | ok a => exact hf a s' h
  | error e => exact .pure _

theorem act_lift {x : Trial σ κ α} {r : Run σ κ α} (hx : Sure J x r s) :
    Sure J (TrialAct.ofTrial x) (Act.ofRun r) s := by
  change Sure J (x >>= fun a => pure (Except.ok a)) (r >>= fun a => pure (Except.ok a)) s
  exact Sure.bind hx fun _ _ _ => .pure _

theorem act_demand {a : Assertion} {p : Machine σ κ → Prop} [DecidablePred p]
    {f : Unit → TrialAct σ κ α} {r : Act σ κ α} (hp : J s → p s) (hf : Sure J (f ()) r s) :
    Sure J (TrialAct.ofTrial (Trial.demand a p) >>= f : TrialAct σ κ α) r s := by
  change Sure J ((Trial.demand a p >>= fun u => pure (Except.ok u)) >>= ExceptT.bindCont f) r s
  rw [bind_assoc]
  exact demand hp hf

/-! ### Visits -/

section Visits

variable {x : TrialVisit ε σ κ α} {f : α → TrialVisit ε σ κ β}
variable {r : ExceptT ε (StateT Traversal (Run σ κ)) α}
variable {g : α → ExceptT ε (StateT Traversal (Run σ κ)) β}

theorem visit_bind (hx : Sure J (x t) (r t) s)
    (hf : ∀ a t' s', r t s = some ((.ok a, t'), s') → Sure J (f a t') (g a t') s') :
    Sure J ((x >>= f) t) ((r >>= g) t) s := by
  change Sure J (x t >>= fun p => ExceptT.bindCont f p.1 p.2)
    (r t >>= fun p => ExceptT.bindCont g p.1 p.2) s
  refine Sure.bind hx fun p s' h => ?_
  obtain ⟨a, t'⟩ := p
  cases a with
  | ok a => exact hf a t' s' h
  | error e => exact .pure _

theorem visit_lift {x : Trial σ κ α} {r : Run σ κ α} (hx : Sure J x r s) :
    Sure J ((TrialVisit.ofTrial x : TrialVisit ε σ κ α) t)
      ((ExceptT.lift (StateT.lift r) : ExceptT ε (StateT Traversal (Run σ κ)) α) t) s := by
  change Sure J ((x >>= fun a => pure (a, t)) >>= fun p => pure (Except.ok p.1, p.2))
    ((r >>= fun a => pure (a, t)) >>= fun p => pure (Except.ok p.1, p.2)) s
  exact Sure.bind (Sure.bind hx fun _ _ _ => .pure _) fun _ _ _ => .pure _

theorem visit_act {x : TrialAct σ κ α} {a : Act σ κ α} (hx : Sure J x a s) :
    Sure J (TrialVisit.ofTrialAct x t) (EvalVisit.ofAct a t) s := by
  refine .of_eq (q := a.outcome >>= fun r => pure (r, t)) ?_ (.bind hx fun _ _ _ => .pure _)
  refine Option.ext fun ⟨⟨r, t'⟩, s'⟩ => ?_
  rw [EvalVisit.ofAct_eq_some, Run.bind_eq_some]
  constructor
  · rintro ⟨rfl, h⟩
    exact ⟨r, s', h, rfl⟩
  · rintro ⟨r, s₁, h, h'⟩
    cases h'
    exact ⟨rfl, h⟩

theorem visit_view {v : Machine σ κ → α} {r : Run σ κ (Except ε β × Traversal)}
    (hf : Sure J (f (v s) t) r s) : Sure J ((TrialVisit.view v >>= f) t) r s := hf

theorem visit_demand {a : Assertion} {p : Traversal → Machine σ κ → Prop}
    [∀ t, DecidablePred (p t)] {f : Unit → TrialVisit ε σ κ β}
    {r : Run σ κ (Except ε β × Traversal)} (hp : J s → p t s) (hf : Sure J (f () t) r s) :
    Sure J ((TrialVisit.demand a p >>= f) t) r s := by
  change Sure J ((Trial.demand a (p t) >>= fun _ => pure (Except.ok (), t)) >>=
    fun y => ExceptT.bindCont f y.1 y.2) r s
  rw [bind_assoc]
  exact demand hp hf

theorem visit_demand_last {a : Assertion} {p : Traversal → Machine σ κ → Prop}
    [∀ t, DecidablePred (p t)] (hp : J s → p t s) :
    Sure J ((TrialVisit.demand a p : TrialVisit ε σ κ Unit) t)
      ((pure () : ExceptT ε (StateT Traversal (Run σ κ)) Unit) t) s :=
  demand hp (.pure _)

theorem visit_fields {m : ModuleId} {f : Cyclic → TrialVisit ε σ κ β}
    {r : Run σ κ (Except ε β × Traversal)} (hm : J s → s.isCyclic m)
    (hf : Sure J (f (s.cyclic m) t) r s) :
    Sure J ((TrialVisit.ofTrial (Trial.fields m) >>= f) t) r s := by
  change Sure J (((Trial.fields m >>= fun c => pure (c, t)) >>=
    fun y => pure (Except.ok (ε := ε) y.1, y.2)) >>= fun y => ExceptT.bindCont f y.1 y.2) r s
  simp only [bind_assoc, pure_bind]
  exact fields hm hf

theorem visit_forM {f : β → TrialVisit ε σ κ PUnit}
    {g : β → ExceptT ε (StateT Traversal (Run σ κ)) PUnit}
    {I : List β → Traversal → Machine σ κ → Prop}
    (hf : ∀ x rest t s, I (x :: rest) t s → Sure J (f x t) (g x t) s)
    (hI : ∀ x rest t s t' s', I (x :: rest) t s → g x t s = some ((.ok ⟨⟩, t'), s') → I rest t' s')
    (xs : List β) : ∀ t s, I xs t s → Sure J (xs.forM f t) (xs.forM g t) s := by
  induction xs with
  | nil => exact fun t s _ => .pure _
  | cons x rest ih =>
    exact fun t s h => visit_bind (hf x rest t s h) fun _ t' s' hs' =>
      ih t' s' (hI x rest t s t' s' h hs')

end Visits

end Sure

/-! ## Where trials end -/

/-- The machine that a trial has come to, whether or not an assertion failed there. -/
def Trial.last : Except (Breach σ κ) (α × Machine σ κ) → Machine σ κ
  | .ok p => p.2
  | .error b => b.machine

def Trial.Along (R : Machine σ κ → Machine σ κ → Prop) (x : Trial σ κ α) : Prop :=
  ∀ s o, x s = some o → R s (last o)

namespace Trial.Along

variable {R : Machine σ κ → Machine σ κ → Prop}

theorem ofRun {r : Run σ κ α} (h : ModuleGraph.Along R r) : Trial.Along R (Trial.ofRun r) := by
  intro s o ho
  obtain ⟨p, hp, rfl⟩ := Option.map_eq_some_iff.1 ho
  exact h s p.1 p.2 hp

protected theorem pure (hR : Composes R) (a : α) : Trial.Along R (pure a : Trial σ κ α) := by
  intro s o ho
  cases ho
  exact hR.refl s

protected theorem bind (hR : Composes R) {x : Trial σ κ α} {f : α → Trial σ κ β}
    (hx : Trial.Along R x) (hf : ∀ a, Trial.Along R (f a)) : Trial.Along R (x >>= f) := by
  intro s o ho
  change ((x s : Option _) >>= _) = some o at ho
  obtain ⟨p, hp, ho⟩ := Option.bind_eq_some_iff.1 ho
  cases p with
  | ok p => exact hR.trans (hx s _ hp) (hf p.1 p.2 o ho)
  | error b =>
    cases ho
    exact hx s _ hp

theorem demand (hR : Composes R) (a : Assertion) (p : Machine σ κ → Prop) [DecidablePred p] :
    Trial.Along R (Trial.demand a p) := by
  intro s o ho
  rw [Trial.demand] at ho
  split at ho <;> cases ho <;> exact hR.refl s

theorem fields (hR : Composes R) (m : ModuleId) : Trial.Along R (Trial.fields m) :=
  .bind hR (demand hR _ _) fun _ => ofRun (.view hR _)

protected theorem forM (hR : Composes R) {f : β → Trial σ κ PUnit} (hf : ∀ x, Trial.Along R (f x))
    (xs : List β) : Trial.Along R (xs.forM f) := by
  induction xs with
  | nil => exact .pure hR _
  | cons x rest ih => exact .bind hR (hf x) fun _ => ih

/-! ### Visits -/

variable {t : Traversal}

theorem visit_bind (hR : Composes R) {x : TrialVisit ε σ κ α} {f : α → TrialVisit ε σ κ β}
    (hx : Trial.Along R (x t)) (hf : ∀ a t, Trial.Along R (f a t)) :
    Trial.Along R ((x >>= f) t) := by
  change Trial.Along R (x t >>= fun p => ExceptT.bindCont f p.1 p.2)
  refine .bind hR hx fun p => ?_
  obtain ⟨a, t'⟩ := p
  cases a with
  | ok a => exact hf a t'
  | error e => exact .pure hR _

theorem visit_lift (hR : Composes R) {x : Trial σ κ α} (hx : Trial.Along R x) :
    Trial.Along R ((TrialVisit.ofTrial x : TrialVisit ε σ κ α) t) := by
  change Trial.Along R ((x >>= fun a => pure (a, t)) >>= fun p => pure (Except.ok p.1, p.2))
  exact .bind hR (.bind hR hx fun _ => .pure hR _) fun _ => .pure hR _

theorem visit_ofVisit {x : ExceptT ε (StateT Traversal (Run σ κ)) α} (hx : Across R x) :
    Trial.Along R ((TrialVisit.ofVisit x : TrialVisit ε σ κ α) t) :=
  ofRun fun s p s' h => hx t s p s' h

theorem visit_demand (hR : Composes R) (a : Assertion) (p : Traversal → Machine σ κ → Prop)
    [∀ t, DecidablePred (p t)] :
    Trial.Along R ((TrialVisit.demand a p : TrialVisit ε σ κ Unit) t) :=
  .bind hR (demand hR _ _) fun _ => .pure hR _

theorem visit_forM (hR : Composes R) {f : β → TrialVisit ε σ κ PUnit}
    (hf : ∀ x t, Trial.Along R (f x t)) (xs : List β) : ∀ t, Trial.Along R (xs.forM f t) := by
  induction xs with
  | nil => exact fun _ => .pure hR _
  | cons x rest ih => exact fun _ => visit_bind hR (hf x _) fun _ t => ih t

end Trial.Along

end ModuleGraph
