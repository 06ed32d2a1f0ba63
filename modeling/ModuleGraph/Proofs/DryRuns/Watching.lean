import ModuleGraph.Proofs.Erasure
import ModuleGraph.Proofs.Files.Linking
import ModuleGraph.Proofs.Runs.View

/-! # Watching a dry run

A dry run on linked modules is watched by a host that also keeps a journal. It answers requests with
modules that were loaded, and has no result where anything is thrown. It conducts itself as runs ask
of it, and when the journal is erased it is the host of dry runs. -/

namespace ModuleGraph

open Relation

variable {σ κ : Type}

/-! ## Filling bindings -/

/-- Environments are set, and errors are made. -/
structure Machine.Fills (s s' : Machine σ κ) : Prop where
  size : s'.modules.size = s.modules.size
  label : ∀ m, (s'.module m).label = (s.module m).label
  kind : ∀ m, (s'.module m).kind = (s.module m).kind ∨
    ∃ env, (s'.module m).kind = (s.module m).kind.setEnvironment env
  promises : s'.promises = s.promises
  reactions : s'.reactions = s.reactions
  joins : s'.joins = s.joins
  imports : s'.imports = s.imports
  jobs : s'.jobs = s.jobs
  nextTurn : s'.nextTurn = s.nextTurn
  host : s'.host = s.host
  errors : s.KeepsErrors s'

namespace Machine.Fills

variable {s s' s'' : Machine σ κ} {m : ModuleId}

theorem composes : Composes (Machine.Fills (σ := σ) (κ := κ)) where
  refl s := ⟨rfl, fun _ => rfl, fun _ => .inl rfl, rfl, rfl, rfl, rfl, rfl, rfl, rfl, .refl s⟩
  trans {s s' s''} h h' := by
    refine ⟨h'.size.trans h.size, fun m => (h'.label m).trans (h.label m), fun m => ?_,
      h'.promises.trans h.promises, h'.reactions.trans h.reactions, h'.joins.trans h.joins,
      h'.imports.trans h.imports, h'.jobs.trans h.jobs, h'.nextTurn.trans h.nextTurn,
      h'.host.trans h.host, h.errors.trans h'.errors⟩
    obtain hk | ⟨env, hk⟩ := h'.kind m
    · rw [hk]
      exact h.kind m
    · obtain hk' | ⟨env', hk'⟩ := h.kind m
      · rw [hk, hk']
        exact .inr ⟨env, rfl⟩
      · refine .inr ⟨env, ?_⟩
        rw [hk, hk']
        cases (s.module m).kind <;> rfl

theorem newError (s : Machine σ κ) (kind : ErrorKind) (message : String) :
    s.Fills (s.newError kind message).2 :=
  ⟨rfl, fun _ => rfl, fun _ => .inl rfl, rfl, rfl, rfl, rfl, rfl, rfl, rfl,
    keepsErrors_newError s kind message⟩

theorem setEnvironment (s : Machine σ κ) (m : ModuleId) (env : Environment) :
    s.Fills (s.setEnvironment m env) := by
  refine ⟨size_updateModule s m _, fun x => ?_, fun x => ?_, rfl, rfl, rfl, rfl, rfl, rfl, rfl,
    fun _ _ => id⟩
  · by_cases hm : s.Has m
    · rw [Machine.setEnvironment, updateKind, module_updateModule _ _ _ _ hm]
      split <;> rfl
    · rw [Machine.setEnvironment, updateKind, updateModule_of_not_has _ hm]
  · by_cases hm : s.Has m
    · rw [Machine.setEnvironment, kind_updateKind _ hm]
      split
      · exact .inr ⟨env, rfl⟩
      · exact .inl rfl
    · rw [Machine.setEnvironment, updateKind, updateModule_of_not_has _ hm]
      exact .inl rfl

theorem fail {α : Type} (kind : ErrorKind) (message : String) :
    Within Machine.Fills (Act.fail kind message : Act σ κ α) := by
  intro s r s' h
  cases h
  exact newError s kind message

theorem initializeBinding (m : ModuleId) (name : String) (v : Value) :
    Within Machine.Fills (ModuleGraph.initializeBinding m name v : Act σ κ Unit) := by
  refine Within.bind composes (Within.view composes _) fun env => ?_
  split
  · exact Within.update fun s => setEnvironment s m _
  · exact fail _ _

theorem cyclic? (h : s.Fills s') (m : ModuleId) : s'.cyclic? m = s.cyclic? m := by
  rw [cyclic?_eq, cyclic?_eq]
  obtain hk | ⟨env, hk⟩ := h.kind m
  · rw [hk]
  · rw [hk]
    cases (s.module m).kind <;> rfl

theorem cyclic (h : s.Fills s') (m : ModuleId) : s'.cyclic m = s.cyclic m := by
  rw [Machine.cyclic, h.cyclic?, Machine.cyclic]

theorem record? (h : s.Fills s') (m : ModuleId) : s'.record? m = s.record? m := by
  rw [Machine.record?, Machine.record?]
  obtain hk | ⟨env, hk⟩ := h.kind m
  · rw [hk]
  · rw [hk]
    cases (s.module m).kind <;> rfl

theorem has (h : s.Fills s') (m : ModuleId) : s'.Has m ↔ s.Has m := by rw [Has, h.size, Has]

theorem elsewhere {journal : σ → Journal} (h : s.Fills s') : s.Elsewhere journal s' where
  has m hm := (h.has m).2 hm
  cyclic m _ := h.cyclic? m
  leaf m _ := by
    obtain hk | ⟨env, hk⟩ := h.kind m
    · rw [hk]
    · rw [hk]
      cases (s.module m).kind <;> rfl
  runnable m _ hr := by
    obtain hk | ⟨env, hk⟩ := h.kind m
    · rwa [hk]
    · rw [hk]
      revert hr
      cases (s.module m).kind <;> exact id
  made m hm := isNew_of_not_has fun h' => hm ((h.has m).1 h')
  errors := h.errors
  noted := ⟨[], Journal.answers_nil, by rw [h.host, List.append_nil]⟩
  size := by rw [h.promises]
  phase p := by rw [promise, h.promises, ← promise]
  held p := by rw [promise, h.promises, ← promise]
  reactions := h.reactions
  joins := ⟨by rw [h.joins], fun j => by rw [join, h.joins, ← join]⟩
  imports t i := by rw [import?, h.imports, ← import?]; exact id
  jobs := h.jobs
  nextTurn := h.nextTurn

end Machine.Fills

namespace FileSystem

variable {α : Type} {depth : Nat} {m n : ModuleId} {s s' : Desk}

theorem fills_getBinding (m : ModuleId) (name : String) :
    Within Machine.Fills ((fileHost depth).getBinding m name) := by
  have hread : ∀ count m name,
      Within Machine.Fills (readBinding (fileHost depth) count m name) := by
    intro count
    induction count with
    | zero => exact fun _ _ => Within.exhausted
    | succ count ih =>
      intro m name
      rw [readBinding]
      refine Within.bind Machine.Fills.composes (Within.view Machine.Fills.composes _)
        fun kind => ?_
      split
      · exact Machine.Fills.fail _ _
      · split
        · exact ih _ _
        · exact Within.pure Machine.Fills.composes _
        · exact Machine.Fills.fail _ _
        · exact Machine.Fills.fail _ _
      · exact Machine.Fills.fail _ _
      · exact Within.pure Machine.Fills.composes _
      · exact Within.pure Machine.Fills.composes _
  exact hread _ m name

/-- The declarations of a module are filled, whatever comes of it. -/
theorem fills_fillDeclarations (m : ModuleId) :
    Within Machine.Fills (fillDeclarations depth m) := by
  refine Within.bind Machine.Fills.composes (Within.view Machine.Fills.composes _) fun names => ?_
  refine Within.forM Machine.Fills.composes (fun name => ?_) names
  refine Within.bind Machine.Fills.composes (fun s r s' h => ?_) fun r => ?_
  · obtain ⟨x, -, h⟩ := Act.ofRun_eq_some.1 h
    exact fills_getBinding m name _ _ _ h
  · split
    · exact Within.pure Machine.Fills.composes _
    · exact Machine.Fills.initializeBinding m name _

theorem fillDeclaration_ok (hdepth : 0 < depth) (hm : s.BindsOwn m) {record : SourceRecord}
    (hr : s.record? m = some record) {name : String} (hname : name ∈ record.lexical.map (·.1)) :
    ∃ s', (do
        match ← Act.ofRun ((fileHost depth).getBinding m name).outcome with
        | .ok _ => pure ()
        | .error _ => initializeBinding m name .undefined : Loading Unit) s = some (.ok (), s') ∧
      s.Fills s' ∧ ∀ x, s.BindsOwn x → s'.BindsOwn x := by
  obtain ⟨depth, rfl⟩ := Nat.exists_eq_succ_of_ne_zero (Nat.ne_of_gt hdepth)
  obtain ⟨env, henv, hown⟩ := hm
  obtain ⟨value, mutable, hb⟩ := hown record hr name hname
  have hk : ∃ c, (s.module m).kind = .source record (some env) c := by
    rw [Machine.environment?] at henv
    rw [Machine.record?] at hr
    cases hk : (s.module m).kind with
    | source record' env' c =>
      rw [hk] at henv hr
      cases henv
      cases hr
      exact ⟨c, rfl⟩
    | foreign | leaf => rw [hk] at henv; cases henv
  obtain ⟨c, hk⟩ := hk
  cases value with
  | some v =>
    have hread : (fileHost (depth + 1)).getBinding m name s = some (.ok v, s) := by
      change readBinding _ (depth + 1) m name s = _
      simp only [readBinding, Act.view_bind, hk, hb, throwing_pure]
    exact ⟨s, throwing_bind.2 (.inl ⟨.ok v, s, Act.ofRun_eq_some.2 ⟨_, rfl, hread⟩, rfl⟩),
      Machine.Fills.composes.refl s, fun _ => id⟩
  | none =>
    set s₁ := (s.newError BindingFault.uninitialized.kind
      (BindingFault.uninitialized.message name)).2 with hs₁
    have hread : ∃ e, (fileHost (depth + 1)).getBinding m name s = some (.error e, s₁) := by
      refine ⟨(s.newError BindingFault.uninitialized.kind
        (BindingFault.uninitialized.message name)).1, ?_⟩
      change readBinding _ (depth + 1) m name s = _
      simp only [readBinding, Act.view_bind, hk, hb, BindingFault.throw, Act.fail_apply, hs₁]
    obtain ⟨e, hread⟩ := hread
    have hfirst : env.initialize? name .undefined =
        some (env.put name (.local (some .undefined) mutable)) := by
      rw [Environment.initialize?, hb]
    refine ⟨s₁.setEnvironment m (env.put name (.local (some .undefined) mutable)),
      throwing_bind.2 (.inl ⟨.error e, s₁, Act.ofRun_eq_some.2 ⟨_, rfl, hread⟩, ?_⟩),
      Machine.Fills.composes.trans (.newError s _ _) (.setEnvironment s₁ m _), fun x hx => ?_⟩
    · have henv₁ : s₁.environment? m = some env := henv
      change initializeBinding m name .undefined s₁ = _
      rw [initializeBinding, Act.view_bind, henv₁, Option.bind_some, hfirst]
      rfl
    · have hx₁ : s₁.BindsOwn x := hx
      refine hx₁.setEnvironment fun record' hr' n hn => ?_
      exact Environment.local_of_writes (.single (.first hfirst)) (hown record' hr' n hn)

/-- When the lexical declarations of a module have bindings of its own, they can be filled. -/
theorem fillDeclarations_ok (hdepth : 0 < depth) (hm : s.BindsOwn m) :
    ∃ s', fillDeclarations depth m s = some (.ok (), s') ∧ s.Fills s' ∧
      ∀ x, s.BindsOwn x → s'.BindsOwn x := by
  obtain ⟨record, hr⟩ := hm.record
  have hnames : ∀ name ∈ declaredNames false s m, name ∈ record.lexical.map (·.1) := by
    intro name hname
    rw [declaredNames, hr] at hname
    obtain ⟨⟨n, kind⟩, hd, hn⟩ := List.mem_filterMap.1 hname
    dsimp only at hn
    split at hn
    · cases hn
      exact List.mem_map_of_mem hd
    · cases hn
  have hall : ∀ names : List String, (∀ name ∈ names, name ∈ record.lexical.map (·.1)) →
      ∀ s : Desk, s.BindsOwn m → s.record? m = some record → ∃ s',
        (names.forM fun name => do
          match ← Act.ofRun ((fileHost depth).getBinding m name).outcome with
          | .ok _ => pure ()
          | .error _ => initializeBinding m name .undefined : Loading Unit) s =
            some (.ok (), s') ∧ s.Fills s' ∧ ∀ x, s.BindsOwn x → s'.BindsOwn x := by
    intro names
    induction names with
    | nil => exact fun _ s _ _ => ⟨s, rfl, Machine.Fills.composes.refl s, fun _ => id⟩
    | cons name rest ih =>
      intro hname s hm hr
      rw [List.forall_mem_cons] at hname
      obtain ⟨s₁, hrun₁, hfills₁, hown₁⟩ := fillDeclaration_ok hdepth hm hr hname.1
      obtain ⟨s', hrun, hfills, hown⟩ :=
        ih hname.2 s₁ (hown₁ m hm) ((hfills₁.record? m).trans hr)
      exact ⟨s', throwing_bind.2 (.inl ⟨(), s₁, hrun₁, hrun⟩),
        Machine.Fills.composes.trans hfills₁ hfills, fun x hx => hown x (hown₁ x hx)⟩
  obtain ⟨s', hrun, hfills, hown⟩ := hall _ hnames s hm hr
  refine ⟨s', ?_, hfills, hown⟩
  rw [fillDeclarations, Act.view_bind]
  exact hrun

/-! ## The host that watches -/

/-- The desk of a dry run, with a journal beside it. -/
abbrev Watched := Machine (Workspace × Journal) ModuleId

abbrev Watching := Act (Workspace × Journal) ModuleId

abbrev Watched.desk (s : Watched) : Desk := s.seen Prod.fst

abbrev Desk.watched (s : Desk) (j : Journal) : Watched := s.seen fun w => (w, j)

def watch (x : Loading α) : Watching α :=
  fun s => (x (Watched.desk s)).map fun r => (r.1, Desk.watched r.2 s.host.2)

def jot (f : Watched → Journal) : Watching Unit :=
  .update fun s => s.setHost (s.host.1, s.host.2 ++ f s)

/-- Watches a piece of a body; one that throws has no result. -/
def watchPiece (m : ModuleId) (x : Loading (Execution ModuleId)) :
    Watching (Execution ModuleId) := do
  match ← Act.ofRun (watch x).outcome with
  | .ok e => do
    jot fun s => .closing m s.nextError (.ok e)
    pure e
  | .error _ => .ofRun .exhausted

def Watched.target? (s : Watched) (m : ModuleId) (specifier : String) : Option ModuleId :=
  (Desk.target? (Watched.desk s) m specifier).filter (·.index < s.modules.size)

def answerWatched (m : ModuleId) (specifier : String) : Watching ModuleId := do
  match ← Act.view fun s => Watched.target? s m specifier with
  | none => .ofRun .exhausted
  | some n => do
    jot fun _ => [.resolved m specifier n]
    pure n

def watchedHost (depth : Nat) : Host (Workspace × Journal) ModuleId :=
  { Host.spent with
    depth
    resolve := fun referrer specifier =>
      match referrer with
      | .script _ => .ofRun .exhausted
      | .module m => answerWatched m specifier
    execute := fun m => do
      jot fun s => [.started m s.outline]
      watchPiece m (executeDry depth m)
    resume := fun m settlement => watchPiece m (resumeDry depth m settlement) }

theorem watch_eq_some {x : Loading α} {s s' : Watched} {r : Except Value α} :
    watch x s = some (r, s') ↔
      ∃ s₁, x (Watched.desk s) = some (r, s₁) ∧ s' = Desk.watched s₁ s.host.2 := by
  rw [watch, Option.map_eq_some_iff]
  constructor
  · rintro ⟨⟨r', s₁⟩, hx, he⟩
    cases he
    exact ⟨s₁, hx, rfl⟩
  · rintro ⟨s₁, hx, rfl⟩
    exact ⟨(r, s₁), hx, rfl⟩

theorem watchPiece_eq_some {x : Loading (Execution ModuleId)} {s s' : Watched}
    {r : Except Value (Execution ModuleId)} : watchPiece m x s = some (r, s') ↔
      ∃ e s₁, r = .ok e ∧ x (Watched.desk s) = some (.ok e, s₁) ∧
        s' = Desk.watched s₁ (s.host.2 ++ .closing m s₁.nextError (.ok e)) := by
  rw [watchPiece, throwing_bind]
  simp only [Act.ofRun_eq_some, Act.outcome_apply]
  constructor
  · rintro (⟨y, s₁, ⟨_, hy, hx⟩, h⟩ | ⟨e, ⟨_, h, -⟩, -⟩)
    · cases hy
      obtain ⟨s₂, hdesk, rfl⟩ := watch_eq_some.1 hx
      cases y with
      | ok e =>
        cases h
        exact ⟨e, s₂, rfl, hdesk, rfl⟩
      | error e => cases h
    · cases h
  · rintro ⟨e, s₁, rfl, hx, rfl⟩
    exact .inl ⟨_, _, ⟨_, rfl, watch_eq_some.2 ⟨s₁, hx, rfl⟩⟩, rfl⟩

/-- An answer that is given was written down, and nothing else has happened. -/
theorem answerWatched_eq_some {s s' : Watched} {r : Except Value ModuleId} :
    answerWatched m request s = some (r, s') ↔ ∃ n, Watched.target? s m request = some n ∧
      r = .ok n ∧ s' = s.setHost (s.host.1, s.host.2 ++ [.resolved m request n]) := by
  rw [answerWatched, Act.view_bind]
  cases ht : Watched.target? s m request with
  | none =>
    constructor
    · intro h
      cases h
    · rintro ⟨n, hn, -⟩
      cases hn
  | some n =>
    constructor
    · intro h
      cases h
      exact ⟨n, rfl, rfl, rfl⟩
    · rintro ⟨n', hn, rfl, rfl⟩
      cases hn
      rfl

/-! ## Watching changes nothing -/

theorem watchedHost_keeps (depth : Nat) : (watchedHost depth).Keeps Prod.fst (dryHost depth) where
  depth := rfl
  track _ _ _ := rfl
  resolve m request := by
    intro s r s' hrun
    obtain ⟨n, ht, rfl, rfl⟩ := answerWatched_eq_some.1 hrun
    exact loadSpecifier_of_target (Option.filter_eq_some_iff.1 ht).1
  execute m := by
    intro s r s' hrun
    obtain ⟨e, s₁, rfl, hx, rfl⟩ := watchPiece_eq_some.1 hrun
    exact hx
  executeForeign m s r s' hrun := nomatch hrun
  leaf m s r s' hrun := nomatch hrun
  resume code x := by
    intro s r s' hrun
    obtain ⟨e, s₁, rfl, hx, rfl⟩ := watchPiece_eq_some.1 hrun
    exact hx

/-! ## How the host conducts itself -/

section Conduct

variable {reserved : Set PromiseId} {hosts : Set (Host (Workspace × Journal) ModuleId)}

/-- Nothing but calls of the host, whatever the journal holds. -/
def Desk.Calls (reserved : Set PromiseId) (hosts : Set (Host (Workspace × Journal) ModuleId))
    (s s' : Desk) : Prop :=
  ∀ j, Machine.Calls Prod.snd reserved hosts (Desk.watched s j) (Desk.watched s' j)

theorem Desk.calls_composes : Composes (Desk.Calls reserved hosts) where
  refl _ _ := .refl
  trans h h' j := (h j).trans (h' j)

theorem Desk.calls_of_fills (h : s.Fills s') : Desk.Calls reserved hosts s s' := fun j => by
  refine .single (.elsewhere (Machine.Fills.elsewhere ?_))
  exact ⟨h.size, h.label, h.kind, h.promises, h.reactions, h.joins, h.imports, h.jobs, h.nextTurn,
    congrArg (·, j) h.host, h.errors⟩

/-- A change of what the host knows, and entries that are answers. -/
theorem call_setHost (s : Watched) (w : Workspace) {k : Journal} (hk : k.Answers) :
    Machine.Call Prod.snd reserved hosts s (s.setHost (w, s.host.2 ++ k)) :=
  .elsewhere ⟨fun _ => id, fun _ _ => rfl, fun _ _ => rfl, fun _ _ => id,
    fun _ => Machine.isNew_of_not_has, .refl s, ⟨k, hk, rfl⟩, rfl, fun _ => rfl,
    fun _ => rfl, rfl, ⟨rfl, fun _ => rfl⟩, fun _ _ => id, rfl, rfl⟩

theorem calls_noteBody (e : BodyEvent) : Within (Desk.Calls reserved hosts) (noteBody e) := by
  intro s r s' hrun
  cases hrun
  intro j
  have hcall : Machine.Call Prod.snd reserved hosts (Desk.watched s j) _ := call_setHost _
    { s.host with events := s.host.events ++ [e] } Journal.answers_nil
  rw [List.append_nil] at hcall
  exact .single hcall

theorem calls_finishDry (depth : Nat) (m : ModuleId) :
    Within (Desk.Calls reserved hosts) (finishDry depth m) :=
  Within.bind Desk.calls_composes
    (fun _ _ _ hrun => Desk.calls_of_fills (fills_fillDeclarations m _ _ _ hrun))
    fun _ => Within.pure Desk.calls_composes _

theorem calls_executeDry (depth : Nat) (m : ModuleId) :
    Within (Desk.Calls reserved hosts) (executeDry depth m) := by
  refine Within.bind Desk.calls_composes (calls_noteBody _) fun _ =>
    Within.bind Desk.calls_composes (Within.view Desk.calls_composes _) fun await => ?_
  split
  · refine Within.bind Desk.calls_composes (fun s r s' hrun j => ?_) fun p =>
      Within.pure Desk.calls_composes _
    cases hrun
    have hstate : (PromiseState.fulfilled .undefined).reactions = [] := rfl
    exact .single (.newPromise (Desk.watched s j) hstate)
  · exact calls_finishDry depth m

theorem calls_resumeDry (depth : Nat) (m : ModuleId) (x : Settlement) :
    Within (Desk.Calls reserved hosts) (resumeDry depth m x) := by
  cases x with
  | rejected e => exact Within.throw Desk.calls_composes e
  | fulfilled v =>
    exact Within.bind Desk.calls_composes (calls_noteBody _) fun _ => calls_finishDry depth m

/-- Only the first piece of a body waits, for a promise that it has made. -/
theorem executeDry_waiting {depth : Nat} {p : PromiseId} {code : ModuleId}
    (hrun : executeDry depth m s = some (.ok (.waiting p code), s')) : code = m ∧ s'.Made p := by
  obtain ⟨⟨⟩, s₁, -, hrun⟩ | ⟨e, -, he⟩ := throwing_bind.1 hrun
  swap
  · cases he
  rw [Act.view_bind] at hrun
  split at hrun
  · cases hrun
    refine ⟨rfl, ?_⟩
    change s₁.promises.size < (s₁.promises.push _).size
    rw [Array.size_push]
    exact Nat.lt_succ_self _
  · obtain ⟨⟨⟩, s₂, -, hrun⟩ | ⟨e, -, he⟩ := throwing_bind.1 hrun
    · cases hrun
    · cases he

theorem finishDry_completed {depth : Nat} {e : Execution ModuleId}
    (hrun : finishDry depth m s = some (.ok e, s')) : e = .completed := by
  obtain ⟨⟨⟩, s₁, -, hrun⟩ | ⟨e', -, he⟩ := throwing_bind.1 hrun
  · cases hrun
    rfl
  · cases he

theorem resumeDry_completed {depth : Nat} {x : Settlement} {e : Execution ModuleId}
    (hrun : resumeDry depth m x s = some (.ok e, s')) : e = .completed := by
  cases x with
  | rejected => cases hrun
  | fulfilled v =>
    obtain ⟨⟨⟩, s₁, -, hrun⟩ | ⟨e', -, he⟩ := throwing_bind.1 hrun
    · exact finishDry_completed hrun
    · cases he

/-- A piece that is watched proceeds as pieces of bodies do. -/
theorem proceeds_watchPiece {x : Loading (Execution ModuleId)}
    (hx : Within (Desk.Calls reserved hosts) x)
    (hwaits : ∀ s p code s', x s = some (.ok (.waiting p code), s') → code = m ∧ s'.Made p)
    {s s' : Watched} {r : Except Value (Execution ModuleId)}
    (hrun : watchPiece m x s = some (r, s')) :
    s.Proceeds Prod.snd id reserved hosts m r s' := by
  obtain ⟨e, s₁, rfl, hpiece, rfl⟩ := watchPiece_eq_some.1 hrun
  refine ⟨⟨Desk.watched s₁ s.host.2, _, hx _ _ _ hpiece s.host.2, rfl, rfl⟩, fun p code hr => ?_⟩
  cases hr
  exact hwaits _ _ _ _ hpiece

/-- **How dry runs are conducted.** The host that watches does what runs ask of a host. -/
theorem watchedHost_conduct (depth : Nat) (reserved : Set PromiseId) :
    Conduct Prod.snd id reserved {watchedHost depth} where
  track host hh p e h := by rw [hh]; rfl
  resolve host hh referrer request := by
    rw [hh]
    cases referrer with
    | script i => exact Within.exhausted
    | module m =>
      intro s r s' hrun
      obtain ⟨n, -, -, rfl⟩ := answerWatched_eq_some.1 hrun
      refine .single (call_setHost s s.host.1 fun e he => ?_)
      rw [List.mem_singleton.1 he]
      rfl
  found host hh {referrer request s n s'} h := by
    rw [hh] at h
    cases referrer with
    | script i => cases h
    | module m =>
      obtain ⟨n', ht, hn, rfl⟩ := answerWatched_eq_some.1 h
      cases hn
      have hmade : n.index < s.modules.size := by
        simpa using (Option.filter_eq_some_iff.1 ht).2
      refine ⟨hmade, fun m' hm => ?_⟩
      cases hm
      exact List.mem_append_right _ (List.mem_singleton_self _)
  refused host hh {m request s e s'} h := by
    rw [hh] at h
    obtain ⟨n, -, hn, -⟩ := answerWatched_eq_some.1 h
    cases hn
  exportedNames host hh m := by
    rw [hh]
    exact Within.exhausted
  resolveExport host hh m name visited := by
    rw [hh]
    exact Within.exhausted
  linkLeaf host hh m := by
    rw [hh]
    exact Within.exhausted
  initializeForeign host hh m := by
    rw [hh]
    exact Within.exhausted
  instantiateForeign host hh m := by
    rw [hh]
    exact Within.exhausted
  prepare host hh m := by
    rw [hh]
    exact Within.exhausted
  execute host hh {m s r s'} h := by
    rw [hh] at h
    have hpiece : watchPiece m (executeDry depth m)
      (s.setHost (s.host.1, s.host.2 ++ [.started m s.outline])) = some (r, s') := h
    refine ⟨(s.host.1, s.host.2 ++ [.started m s.outline]), rfl, ?_⟩
    refine proceeds_watchPiece (calls_executeDry depth m) (fun _ _ _ _ h => ?_) hpiece
    exact executeDry_waiting h
  executeForeign host hh {m s r s'} h := by
    rw [hh] at h
    cases h
  evaluateLeaf host hh {m s r s'} h := by
    rw [hh] at h
    cases h
  resume host hh {code x s r s'} h := by
    rw [hh] at h
    refine proceeds_watchPiece (calls_resumeDry depth code x) (fun _ p c _ hrun => ?_) h
    cases resumeDry_completed hrun
  call host hh {code x s r s'} h := by
    rw [hh] at h
    cases h

end Conduct

end FileSystem

end ModuleGraph
