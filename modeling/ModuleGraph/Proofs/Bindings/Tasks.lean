import ModuleGraph.Proofs.Bindings.Links
import ModuleGraph.Proofs.Exports.Keys

/-! # Bindings only move forward

In any sequence of operations the bindings of a linked module keep what they have. A value that is
there may be replaced by another one if the binding is mutable, but it does not go away. The binding
that an import leads to stays the same. Only two operations write bindings, and each of them writes
one binding or none. -/

namespace ModuleGraph

open Relation

section Tasks

variable {σ κ : Type} {hosts : Set (Host σ κ)} {rank : Host σ κ → Nat} {host : Host σ κ}
variable {s s' s₀ s₁ : Machine σ κ} {m : ModuleId} {name : String} {v : Value}

/-! ## Environments -/

def Binding.Initialized (v : Value) (b b' : Binding) : Prop :=
  ∃ mutable, b = .local none mutable ∧ b' = .local (some v) mutable

def Binding.Assigned (v : Value) (b b' : Binding) : Prop :=
  ∃ old, b = .local (some old) true ∧ b' = .local (some v) true

/-- What a later environment still has: what had a value has one, constants are the same, and
imports lead where they did. -/
structure Environment.Forward (env env' : Environment) : Prop where
  initialized : ∀ {n v mutable}, env.get? n = some (.local (some v) mutable) →
    ∃ v', env'.get? n = some (.local (some v') mutable)
  constant : ∀ {n v}, env.get? n = some (.local (some v) false) →
    env'.get? n = some (.local (some v) false)
  imported : ∀ {n target name}, env.get? n = some (.import target name) →
    env'.get? n = some (.import target name)

namespace Environment

variable {env env' : Environment} {n : String}

theorem initialized_of_writes {mutable : Bool} (h : ReflTransGen Writes env env')
    (hb : env.get? n = some (.local (some v) mutable)) :
    ∃ v', env'.get? n = some (.local (some v') mutable) := by
  induction h with
  | refl => exact ⟨v, hb⟩
  | tail _ hw ih =>
    obtain ⟨v₁, ih⟩ := ih
    obtain ⟨b, hb, hbecomes⟩ := hw.get? ih
    cases hbecomes with
    | refl => exact ⟨v₁, hb⟩
    | next old v' => exact ⟨v', hb⟩

theorem forward_of_writes (h : ReflTransGen Writes env env') : env.Forward env' where
  initialized := initialized_of_writes h
  constant := constant_of_writes h
  imported := import_of_writes h

theorem initialize?_cases (h : env.initialize? n v = some env') :
    ∃ b b', env.get? n = some b ∧ Binding.Initialized v b b' ∧ env' = env.put n b' := by
  rw [initialize?] at h
  split at h
  · cases h
    exact ⟨_, _, ‹_›, ⟨_, rfl, rfl⟩, rfl⟩
  · cases h

theorem assign_cases (h : env.assign n v = .ok env') :
    ∃ b b', env.get? n = some b ∧ Binding.Assigned v b b' ∧ env' = env.put n b' := by
  rw [assign] at h
  split at h
  · cases h
    exact ⟨_, _, ‹_›, ⟨_, rfl, rfl⟩, rfl⟩
  all_goals cases h

theorem not_initialized (h : env.initialize? n v = none) {b : Binding} (hb : env.get? n = some b)
    (b' : Binding) : ¬Binding.Initialized v b b' := by
  rintro ⟨mutable, rfl, -⟩
  rw [initialize?, hb] at h
  cases h

theorem not_assigned {fault : AssignmentFault} (h : env.assign n v = .error fault) {b : Binding}
    (hb : env.get? n = some b) (b' : Binding) : ¬Binding.Assigned v b b' := by
  rintro ⟨old, rfl, -⟩
  rw [assign, hb] at h
  cases h

end Environment

/-! ## Single calls -/

namespace Machine

/-- What a call does that writes a binding of a module. It throws if there is no binding that may
become another one, and leaves all environments as before. Otherwise it returns, the binding has
become another one, and this is the only difference. -/
inductive WritesOne (s : Machine σ κ) (m : ModuleId) (name : String)
    (becomes : Binding → Binding → Prop) : Option (Except Value Unit × Machine σ κ) → Prop
  | threw {e : Value} {s' : Machine σ κ} :
      (∀ env b, s.environment? m = some env → env.get? name = some b → ∀ b', ¬becomes b b') →
      (∀ x, s'.environment? x = s.environment? x) →
      WritesOne s m name becomes (some (.error e, s'))
  | wrote {s' : Machine σ κ} {env env' : Environment} {b b' : Binding} :
      s.environment? m = some env → s'.environment? m = some env' → env.get? name = some b →
      env'.get? name = some b' → becomes b b' → (∀ n ≠ name, env'.get? n = env.get? n) →
      (∀ x ≠ m, s'.environment? x = s.environment? x) →
      WritesOne s m name becomes (some (.ok (), s'))

def Refuses (s : Machine σ κ) (a : Act σ κ Unit) : Prop :=
  ∃ e s', a s = some (.error e, s') ∧ ∀ x, s'.environment? x = s.environment? x

variable {becomes : Binding → Binding → Prop} {a : Act σ κ Unit}

theorem environment?_setEnvironment_of_ne {x : ModuleId} (h : x ≠ m) (s : Machine σ κ)
    (env : Environment) : (s.setEnvironment m env).environment? x = s.environment? x := by
  rw [environment?, setEnvironment, updateKind, module_updateModule_of_ne _ _ (Ne.symm h),
    environment?]

theorem environment?_setEnvironment_self {env : Environment} (h : s.environment? m = some env)
    (env' : Environment) : (s.setEnvironment m env').environment? m = some env' := by
  have hm := has_of_environment h
  rw [environment?] at h
  rw [environment?, setEnvironment, kind_updateKind _ hm, if_pos rfl]
  cases hk : (s.module m).kind with
  | source r e c => rfl
  | foreign i c => rw [hk] at h; cases h
  | leaf state => rw [hk] at h; cases h

theorem writesOne_put {env : Environment} {b b' : Binding} (henv : s.environment? m = some env)
    (hb : env.get? name = some b) (hbecomes : becomes b b') :
    s.WritesOne m name becomes (some (.ok (), s.setEnvironment m (env.put name b'))) :=
  .wrote henv (environment?_setEnvironment_self henv _) hb (Environment.get?_put_self env name b')
    hbecomes (fun _ hn => Environment.get?_put_of_ne env b' (Ne.symm hn))
    fun _ hx => environment?_setEnvironment_of_ne hx s _

theorem writesOne_throw (fault : BindingFault)
    (h : ∀ env b, s.environment? m = some env → env.get? name = some b → ∀ b', ¬becomes b b') :
    s.WritesOne m name becomes (fault.throw name s) := .threw h fun _ => rfl

theorem initializeBinding_writesOne (s : Machine σ κ) (m : ModuleId) (name : String) (v : Value) :
    s.WritesOne m name (Binding.Initialized v) (initializeBinding m name v s) := by
  rw [initializeBinding, Act.view_bind]
  cases henv : s.environment? m with
  | none =>
    refine writesOne_throw .notInitializable fun env b h => ?_
    cases henv.symm.trans h
  | some env =>
    cases hfirst : env.initialize? name v with
    | none =>
      simp only [Option.bind_some, hfirst]
      refine writesOne_throw .notInitializable fun env' b h hb => ?_
      cases henv.symm.trans h
      exact Environment.not_initialized hfirst hb
    | some env' =>
      simp only [Option.bind_some, hfirst]
      obtain ⟨b, b', hb, hbecomes, rfl⟩ := Environment.initialize?_cases hfirst
      exact writesOne_put henv hb hbecomes

theorem assignBinding_writesOne (s : Machine σ κ) (m : ModuleId) (name : String) (v : Value) :
    s.WritesOne m name (Binding.Assigned v) (assignBinding m name v s) := by
  rw [assignBinding, Act.view_bind]
  cases henv : s.environment? m with
  | none =>
    refine writesOne_throw .notLinked fun env b h => ?_
    cases henv.symm.trans h
  | some env =>
    cases hnext : env.assign name v with
    | error fault =>
      simp only [hnext]
      refine writesOne_throw (.ofAssignment fault) fun env' b h hb => ?_
      cases henv.symm.trans h
      exact Environment.not_assigned hnext hb
    | ok env' =>
      simp only [hnext]
      obtain ⟨b, b', hb, hbecomes, rfl⟩ := Environment.assign_cases hnext
      exact writesOne_put henv hb hbecomes

/-- A call is refused if the binding cannot become another one. -/
theorem WritesOne.refuses {env : Environment} {b : Binding}
    (h : s.WritesOne m name becomes (a s)) (henv : s.environment? m = some env)
    (hb : env.get? name = some b) (hbecomes : ∀ b', ¬becomes b b') : s.Refuses a := by
  generalize hrun : a s = r at h
  cases h with
  | threw _ hsame => exact ⟨_, _, hrun, hsame⟩
  | wrote henv' _ hb' _ hw =>
    cases henv.symm.trans henv'
    cases hb.symm.trans hb'
    exact absurd hw (hbecomes _)

theorem refuses_initialization {env : Environment} {mutable : Bool} {old : Value}
    (henv : s.environment? m = some env) (hb : env.get? name = some (.local (some old) mutable))
    (v : Value) : s.Refuses (initializeBinding m name v) :=
  (s.initializeBinding_writesOne m name v).refuses henv hb (by rintro b' ⟨_, ⟨⟩, -⟩)

theorem refuses_assignment {env : Environment} {target : ModuleId} {binding : String}
    (henv : s.environment? m = some env) (hb : env.get? name = some (.import target binding))
    (v : Value) : s.Refuses (assignBinding m name v) :=
  (s.assignBinding_writesOne m name v).refuses henv hb (by rintro b' ⟨_, ⟨⟩, -⟩)

/-- A binding has its value after it was initialized. -/
theorem bound_of_initialization (hrun : initializeBinding m name v s = some (.ok (), s')) :
    ∃ env mutable, s'.environment? m = some env ∧
      env.get? name = some (.local (some v) mutable) := by
  have h := s.initializeBinding_writesOne m name v
  rw [hrun] at h
  cases h with
  | wrote _ henv' _ hb' hw =>
    obtain ⟨mutable, -, rfl⟩ := hw
    exact ⟨_, mutable, henv', hb'⟩

/-! ## Operations -/

inductive Task (hosts : Set (Host σ κ)) : Machine σ κ → Machine σ κ → Prop
  /-- Something happens to promises, objects, jobs or the state of the host. -/
  | beside {s s' : Machine σ κ} : s'.modules = s.modules → Task hosts s s'
  | newModule (s : Machine σ κ) (x : Module) : Task hosts s (s.newModule x).2
  | initialization {s s' : Machine σ κ} {m name v r} :
      initializeBinding m name v s = some (r, s') → Task hosts s s'
  | assignment {s s' : Machine σ κ} {m name v r} :
      assignBinding m name v s = some (r, s') → Task hosts s s'
  | getBinding {s s' : Machine σ κ} {host m name r} : host ∈ hosts →
      host.getBinding m name s = some (r, s') → Task hosts s s'
  | namespaceOf {s s' : Machine σ κ} {host m r} : host ∈ hosts →
      host.namespaceOf m s = some (r, s') → Task hosts s s'
  | namespaceKeys {s s' : Machine σ κ} {host m r} : host ∈ hosts →
      host.namespaceKeys m s = some (r, s') → Task hosts s s'
  | namespaceGet {s s' : Machine σ κ} {host m key r} : host ∈ hosts →
      host.namespaceGet m key s = some (r, s') → Task hosts s s'
  | exportedNames {s s' : Machine σ κ} {host m seen r} : host ∈ hosts →
      exportedNames host host.depth m seen s = some (r, s') → Task hosts s s'
  | resolveExport {s s' : Machine σ κ} {host m name visited r} : host ∈ hosts →
      resolveExport host host.depth m name visited s = some (r, s') → Task hosts s s'
  | link {s s' : Machine σ κ} {host m r} : host ∈ hosts →
      host.link m s = some (r, s') → Task hosts s s'
  | evaluate {s s' : Machine σ κ} {host m p} : host ∈ hosts →
      host.evaluate m s = some (p, s') → Task hosts s s'
  | importCall {s s' : Machine σ κ} {host referrer specifier p} : host ∈ hosts →
      host.importCall referrer specifier s = some (p, s') → Task hosts s s'
  | finishImport {s s' : Machine σ κ} {host ticket found} : host ∈ hosts →
      host.finishImport ticket found s = some ((), s') → Task hosts s s'
  | importMeta {s s' : Machine σ κ} {host m o} : host ∈ hosts →
      host.importMeta m s = some (o, s') → Task hosts s s'
  | job {s s' : Machine σ κ} {host r} : host ∈ hosts →
      runNextJob host s = some (r, s') → Task hosts s s'
  | jobs {s s' : Machine σ κ} {host r} : host ∈ hosts →
      host.runJobs s = some (r, s') → Task hosts s s'

abbrev Tasks (hosts : Set (Host σ κ)) : Machine σ κ → Machine σ κ → Prop :=
  ReflTransGen (Task hosts)

end Machine

open Machine

/-- How hosts use the machine: their code does nothing but operations, at whatever moment it is
called, in the midst of a link too. Code that runs in the midst of an operation uses hosts of
smaller rank: a host that calls itself is the limit of such ones, and a run of it that ends is a run
of one of them. -/
structure Undertakes (hosts : Set (Host σ κ)) (rank : Host σ κ → Nat) : Prop where
  hooks : ∀ host ∈ hosts, Hooks host (Tasks {below | below ∈ hosts ∧ rank below < rank host})
  bindingValue : ∀ host ∈ hosts, ∀ m name,
    Within (Tasks {below | below ∈ hosts ∧ rank below < rank host}) (host.bindingValue m name)

structure Host.Harmless (host : Host σ κ) : Prop where
  hooks : Hooks host Machine.Secures
  bindingValue : ∀ m name, Within Machine.Secures (host.bindingValue m name)

theorem Machine.Task.secures (hhosts : ∀ host ∈ hosts, host.Harmless) (h : s.Task hosts s') :
    s.Secures s' := by
  have hjobs : ∀ {host}, host ∈ hosts → CarriesJobs host (.plain (Machine.Secures (κ := κ))) :=
    fun hhost => carriesJobs_secures (hhosts _ hhost).hooks
  cases h with
  | beside hm => exact .of_modules hm
  | newModule x => exact .newModule s x
  | initialization hrun => exact .initializeBinding hrun
  | assignment hrun => exact .assignBinding hrun
  | getBinding hhost hrun =>
    exact (hjobs hhost).getBinding (hhosts _ hhost).bindingValue _ _ _ _ _ hrun
  | namespaceOf hhost hrun => exact (hjobs hhost).namespaceOf _ _ _ _ hrun
  | namespaceKeys hhost hrun => exact (hjobs hhost).keys _ _ _ _ hrun
  | namespaceGet hhost hrun =>
    exact (hjobs hhost).namespaceGet (hhosts _ hhost).bindingValue _ _ _ _ _ hrun
  | exportedNames hhost hrun => exact (hjobs hhost).asks.names _ _ _ _ _ _ hrun
  | resolveExport hhost hrun => exact (hjobs hhost).asks.resolved _ _ _ _ _ _ _ hrun
  | link hhost hrun => exact (hjobs hhost).link trivial hrun
  | evaluate hhost hrun => exact (hjobs hhost).evaluate _ _ _ _ hrun
  | importCall hhost hrun =>
    exact (hjobs hhost).importCall ((hjobs hhost).requested _) _ _ _ _ hrun
  | finishImport hhost hrun => exact (hjobs hhost).finishImport (fun _ _ => trivial) hrun
  | importMeta hhost hrun => exact (hjobs hhost).importMeta _ _ _ _ hrun
  | job hhost hrun => exact (hjobs hhost).runNextJob _ _ _ hrun
  | jobs hhost hrun => exact (hjobs hhost).runJobs _ _ _ hrun

theorem Machine.Tasks.secures (hhosts : ∀ host ∈ hosts, host.Harmless) (h : s.Tasks hosts s') :
    s.Secures s' := by
  induction h with
  | refl => exact Secures.composes.refl s
  | tail _ htask ih => exact Secures.composes.trans ih (htask.secures hhosts)

namespace Undertakes

/-- The induction is on the rank of the host. -/
theorem harmless (h : Undertakes hosts rank) (hhost : host ∈ hosts) : host.Harmless := by
  induction hrank : rank host using Nat.strong_induction_on generalizing host with
  | _ n ih =>
    subst hrank
    have hbelow : ∀ {s s' : Machine σ κ},
        s.Tasks {below | below ∈ hosts ∧ rank below < rank host} s' → s.Secures s' :=
      Machine.Tasks.secures fun below hb => ih _ hb.2 hb.1 rfl
    exact ⟨(h.hooks host hhost).mono hbelow,
      fun m name _ _ _ hrun => hbelow (h.bindingValue host hhost m name _ _ _ hrun)⟩

theorem secures (h : Undertakes hosts rank) (hs : s.Tasks hosts s') : s.Secures s' :=
  hs.secures fun _ => h.harmless

/-- The environment of a linked module after any operations. -/
theorem environment (h : Undertakes hosts rank) (hs : s₀.Tasks hosts s)
    (hm : (s₀.status m).IsLinked) {env : Environment} (henv : s₀.environment? m = some env) :
    ∃ env', s.environment? m = some env' ∧ env.Forward env' := by
  obtain ⟨env', henv', hw⟩ := (h.secures hs m hm).bound env henv
  exact ⟨env', henv', Environment.forward_of_writes hw⟩

/-- What has a value is not initialized again. -/
theorem refuses_initialization (h : Undertakes hosts rank) (hs : s₀.Tasks hosts s)
    (hm : (s₀.status m).IsLinked) {env : Environment} {old : Value} {mutable : Bool}
    (henv : s₀.environment? m = some env) (hb : env.get? name = some (.local (some old) mutable))
    (v : Value) : s.Refuses (initializeBinding m name v) := by
  obtain ⟨env', henv', hforward⟩ := h.environment hs hm henv
  obtain ⟨v', hb'⟩ := hforward.initialized hb
  exact Machine.refuses_initialization henv' hb' v

end Undertakes

/-- Bindings of a linked module only move forward. Whatever operations are done on whatever modules
from then on, the module stays linked and has an environment in which what had a value has one,
constants are the same, and imports lead where they did; what had a value cannot be initialized, and
an import cannot be assigned. A binding that a call has initialized is not initialized again. A call
that initializes or assigns a binding, of this module or of another one, makes that one binding
another one and changes nothing else; if the binding may not become another one, it throws and
leaves all environments as they are. -/
theorem linked_bindings_move_forward (h : Undertakes hosts rank) :
    (∀ {s₀ s : Machine σ κ} {m env}, (s₀.status m).IsLinked → s₀.environment? m = some env →
      s₀.Tasks hosts s →
        (s.status m).IsLinked ∧ (∃ env', s.environment? m = some env' ∧ env.Forward env') ∧
        (∀ n old mutable, env.get? n = some (.local (some old) mutable) →
          ∀ v, s.Refuses (initializeBinding m n v)) ∧
        ∀ n target binding, env.get? n = some (.import target binding) →
          ∀ v, s.Refuses (assignBinding m n v)) ∧
    (∀ {s₀ s₁ s : Machine σ κ} {m n v}, (s₀.status m).IsLinked →
      initializeBinding m n v s₀ = some (.ok (), s₁) → s₁.Tasks hosts s →
        ∀ v', s.Refuses (initializeBinding m n v')) ∧
    (∀ (s : Machine σ κ) m n v,
      s.WritesOne m n (Binding.Initialized v) (initializeBinding m n v s)) ∧
    ∀ (s : Machine σ κ) m n v, s.WritesOne m n (Binding.Assigned v) (assignBinding m n v s) := by
  refine ⟨fun hm henv hs => ⟨(h.secures hs).isLinked hm, h.environment hs hm henv,
    fun n old mutable hb v => h.refuses_initialization hs hm henv hb v,
    fun n target binding hb v => ?_⟩, fun hm hfirst hs v' => ?_,
    initializeBinding_writesOne, assignBinding_writesOne⟩
  · obtain ⟨env', henv', hforward⟩ := h.environment hs hm henv
    exact refuses_assignment henv' (hforward.imported hb) v
  · obtain ⟨env, mutable, henv, hb⟩ := bound_of_initialization hfirst
    have hm₁ := (Secures.initializeBinding hfirst).isLinked hm
    exact h.refuses_initialization hs hm₁ henv hb v'

end Tasks

/-! ## A link that fails beside two linked modules -/

namespace Broken

def exporter : SourceRecord :=
  { (default : SourceRecord) with
    localExports := [⟨"x", "x"⟩, ⟨"c", "c"⟩], lexical := [("x", .let), ("c", .const)] }

def importer : SourceRecord :=
  { (default : SourceRecord) with
    requested := ["0"], imports := [⟨"0", some "x", "y"⟩] }

/-- Imports a name that nobody exports. -/
def broken : SourceRecord :=
  { (default : SourceRecord) with
    requested := ["0"], imports := [⟨"0", some "x", "y"⟩, ⟨"0", some "absent", "z"⟩] }

def plan : Plan where
  target _ _ := some ⟨0⟩
  body _ := .completes

def host : Host Journal ModuleId := plan.exporting (fun _ => []) 9

def hosts : Set (Host Journal ModuleId) := {host | host = Broken.host}

def modules : Machine Journal ModuleId :=
  [exporter, importer, broken].foldl (fun s r => (s.newSource r none).2) (.initial [])

def linked : Machine Journal ModuleId := ((host.link ⟨1⟩ modules).get (by rfl)).2

def started : Machine Journal ModuleId :=
  ((initializeBinding ⟨0⟩ "c" .null linked).get (by rfl)).2

/-- After the link of the broken module, which was taken back. -/
def failed : Machine Journal ModuleId := ((host.link ⟨2⟩ started).get (by rfl)).2

theorem initializeBinding_linked :
    initializeBinding ⟨0⟩ "c" .null linked = some (.ok (), started) := by rfl

theorem link_started : host.link ⟨2⟩ started =
    some (.error ⟨.unresolvable "0" "absent", ["0"]⟩, failed) := by rfl

theorem undertakes : Undertakes hosts (fun _ => 0) where
  hooks h hhost := by
    cases hhost
    refine Plan.exporting_within (.reflTransGen _) (fun _ s r s' hrun => ?_) plan _ 9
      (fun m request s r s' hrun => ?_) fun hm _ _ => .single (.beside hm)
    · cases hrun
      exact .single (.beside rfl)
    · exact .single (.beside (Plan.answer_beside hrun).1)
  bindingValue h hhost m name s r s' hrun := by
    cases hhost
    cases hrun
    exact .refl

theorem isLinked (m : ModuleId) (hm : linked.status m = .linked) : (linked.status m).IsLinked := by
  rw [hm]
  trivial

end Broken

open Broken in
/-- The constant of module `0` keeps its value and the import of module `1` its target while the
link of module `2`, which imports from module `0`, fails and is taken back. -/
theorem linked_bindings_move_forward_broken :
    Undertakes hosts (fun _ => 0) ∧
    initializeBinding ⟨0⟩ "c" .null linked = some (.ok (), started) ∧
    host.link ⟨2⟩ started = some (.error ⟨.unresolvable "0" "absent", ["0"]⟩, failed) ∧
    failed.environment? ⟨2⟩ = none ∧
    (∃ env, failed.environment? ⟨0⟩ = some env ∧
      env.get? "c" = some (.local (some .null) false)) ∧
    failed.Refuses (initializeBinding ⟨0⟩ "c" .undefined) ∧
    failed.Refuses (assignBinding ⟨1⟩ "y" .undefined) ∧
    started.WritesOne ⟨0⟩ "x" (Binding.Assigned .null) (assignBinding ⟨0⟩ "x" .null started) := by
  obtain ⟨hforward, honce, -, hassign⟩ := linked_bindings_move_forward undertakes
  have hlink : started.Tasks hosts failed := .single (.link rfl link_started)
  have hboth : linked.Tasks hosts failed :=
    .head (.initialization initializeBinding_linked) hlink
  have h₀ : (linked.status ⟨0⟩).IsLinked := isLinked _ (by rfl)
  have h₁ : (linked.status ⟨1⟩).IsLinked := isLinked _ (by rfl)
  have hstarted : (started.status ⟨0⟩).IsLinked := by
    have h : started.status ⟨0⟩ = .linked := by rfl
    rw [h]
    trivial
  obtain ⟨env, henv, hb⟩ : ∃ env, started.environment? ⟨0⟩ = some env ∧
      env.get? "c" = some (.local (some .null) false) := ⟨_, rfl, rfl⟩
  obtain ⟨env₁, henv₁, hb₁⟩ : ∃ env, linked.environment? ⟨1⟩ = some env ∧
      env.get? "y" = some (.import ⟨0⟩ "x") := ⟨_, rfl, rfl⟩
  obtain ⟨-, ⟨env', henv', hmoved⟩, -, -⟩ := hforward hstarted henv hlink
  obtain ⟨-, -, -, himport⟩ := hforward h₁ henv₁ hboth
  exact ⟨undertakes, initializeBinding_linked, link_started, by rfl,
    ⟨env', henv', hmoved.constant hb⟩, honce h₀ initializeBinding_linked hlink .undefined,
    himport "y" ⟨0⟩ "x" hb₁ .undefined, hassign started ⟨0⟩ "x" .null⟩

end ModuleGraph
