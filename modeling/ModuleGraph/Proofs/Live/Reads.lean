import ModuleGraph.Proofs.Live.Operations

/-! # Reading an import

The binding of an import is made when its module is initialized, while a namespace looks up what its
keys stand for at each read. At a live machine both come to the binding that the name stands for in
the graph, which is one of the module's own where the name is exported. -/

namespace ModuleGraph

open Relation

variable {σ κ : Type} {journal : σ → Journal} {world : Machine σ κ → Prop} {host : Host σ κ}
variable {s s' s₁ s₀ : Machine σ κ} {m n t : ModuleId} {name binding : String} {b : BindingName}
variable {value : Option Value} {env : Environment}

/-- Reads the binding that an exported name stands for: the namespace of a module, or what the
module binds. -/
def Host.readBound (host : Host σ κ) : ModuleId × BindingName → Act σ κ Value
  | (m, .namespace) => host.namespaceOf m
  | (m, .name binding) => host.getBinding m binding

/-- The binding that an import has in its module: a namespace is a value of the module's own, and a
name leads to the binding of the other module. -/
def BindingName.imported (m : ModuleId) : BindingName → Binding
  | .namespace => .local (some (.namespace m)) false
  | .name binding => .import m binding

namespace Machine

/-- What the binding that an exported name stands for holds: the namespace of a module, or what is
in a local binding of an environment, which may not have a value yet. -/
inductive Stores (s : Machine σ κ) : ModuleId × BindingName → Option Value → Prop
  | namespace {m : ModuleId} : Stores s (m, .namespace) (some (.namespace m))
  | name {m : ModuleId} {binding : String} {env : Environment} {value : Option Value}
      {mutable : Bool} : s.environment? m = some env →
        env.get? binding = some (.local value mutable) → Stores s (m, .name binding) value

/-- How a binding is read: its value is given, or an error is thrown because it has none. -/
inductive Reads (s : Machine σ κ) (read : Act σ κ Value) : BindingName → Option Value → Prop
  | value {b : BindingName} {v : Value} {s' : Machine σ κ} :
      read s = some (.ok v, s') → Reads s read b (some v)
  | uninitialized {binding : String} {e : ErrorId} {s' : Machine σ κ} :
      read s = some (.error (.error e), s') →
      s'.errors[e.index]? = some
        ⟨.referenceError, "Cannot access '" ++ binding ++ "' before initialization"⟩ →
      Reads s read (.name binding) none

theorem Reads.of_eq {read read' : Act σ κ Value} (h : s₁.Reads read' b value)
    (hread : read s = read' s₁) : s.Reads read b value := by
  cases h with
  | value h => exact .value (hread.trans h)
  | uninitialized h he => exact .uninitialized (hread.trans h) he

theorem kind_of_environment (h : s.environment? m = some env) :
    ∃ record c, (s.module m).kind = .source record (some env) c := by
  rw [environment?] at h
  cases hk : (s.module m).kind with
  | source record e c =>
    rw [hk] at h
    cases h
    exact ⟨record, c, rfl⟩
  | foreign i c => rw [hk] at h; cases h
  | leaf state => rw [hk] at h; cases h

/-- What an environment stores does not depend on other modules. -/
theorem Stores.of_environment (h : s.Stores (m, b) value)
    (he : s'.environment? m = s.environment? m) : s'.Stores (m, b) value := by
  cases h with
  | «namespace» => exact .namespace
  | name henv hb => exact .name (he.trans henv) hb

end Machine

/-! ## Bindings -/

section Reading

variable {mutable : Bool} (h : s.environment? m = some env) (depth : Nat)
include h

theorem readBinding_value {v : Value} (hb : env.get? name = some (.local (some v) mutable)) :
    readBinding host (depth + 1) m name s = (pure v : Act σ κ Value) s := by
  obtain ⟨record, c, hk⟩ := Machine.kind_of_environment h
  simp only [readBinding, Act.view_bind, hk, hb]

theorem readBinding_uninitialized (hb : env.get? name = some (.local none mutable)) :
    readBinding host (depth + 1) m name s =
      (BindingFault.throw .uninitialized name : Act σ κ Value) s := by
  obtain ⟨record, c, hk⟩ := Machine.kind_of_environment h
  simp only [readBinding, Act.view_bind, hk, hb]

theorem readBinding_import (hb : env.get? name = some (.import t binding)) :
    readBinding host (depth + 1) m name s = readBinding host depth t binding s := by
  obtain ⟨record, c, hk⟩ := Machine.kind_of_environment h
  simp only [readBinding, Act.view_bind, hk, hb]

theorem reads_local (hb : env.get? name = some (.local value mutable)) :
    s.Reads (readBinding host (depth + 1) m name) (.name name) value := by
  cases value with
  | some v => exact .value (readBinding_value h depth hb)
  | none => exact .uninitialized (readBinding_uninitialized h depth hb) Array.getElem?_push_size

/-- An import is read with at most one step to another module. -/
theorem reads_imported (hb : env.get? name = some (b.imported t))
    (hstores : s.Stores (t, b) value) :
    s.Reads (readBinding host (depth + 2) m name) b value := by
  cases hstores with
  | «namespace» => exact .value (readBinding_value h (depth + 1) hb)
  | name henv hvalue =>
    exact (reads_local henv depth hvalue).of_eq (readBinding_import h (depth + 1) hb)

end Reading

namespace ExportGraph

variable {G : ExportGraph}

/-- An imported name has the binding that the one behind it stands for. -/
theorem Imported.binds {i : ImportEntry} {c : Binding} (h : G.Imported m i c)
    (hname : i.importName = some name) : ∃ n t b, G.target m i.request = some n ∧
      G.Binds (n, name) (t, b) ∧ c = b.imported t := by
  cases h with
  | star hstar =>
    rw [hname] at hstar
    cases hstar
  | @«namespace» n t name' hname' htarget hbinds =>
    cases hname.symm.trans hname'
    exact ⟨n, t, .namespace, htarget, hbinds, rfl⟩
  | @name n t name' binding hname' htarget hbinds =>
    cases hname.symm.trans hname'
    exact ⟨n, t, .name binding, htarget, hbinds, rfl⟩

/-! ## Where nothing is refused -/

section Serves

variable (h : G.Serves world host) (hlist : G.Listed) (hdepth : G.bound < host.depth)
variable (hw : world s) (hm : m ∈ G.modules) (hh : s.Has m) (hclear : G.Clear m)
include h hlist hdepth hw hm hh hclear

/-- The keys of a namespace are there, and they are kept from then on. -/
theorem Clear.namespaceKeys (hkept : G.Kept s) :
    ∃ keys s', host.namespaceKeys m s = some (.ok keys, s') ∧
      (s'.module m).exports = some keys ∧ G.IsKeys m keys := by
  obtain ⟨r, s', hrun, -, hend⟩ := namespaceKeys_returns h hdepth hw hm hh
  cases r with
  | error e => exact absurd hend (hclear.not_obscured hlist)
  | ok keys => exact ⟨keys, s', hrun, hend.1, hend.2.elim (hkept m hm keys) id⟩

theorem Clear.namespaceOf :
    ∃ s', host.namespaceOf m s = some (.ok (.namespace m), s') := by
  obtain ⟨r, s', hrun, -, hend⟩ := namespaceKeys_returns h hdepth hw hm hh
  cases r with
  | error e => exact absurd hend (hclear.not_obscured hlist)
  | ok keys => exact ⟨s', throwing_bind.2 (.inl ⟨keys, s', hrun, rfl⟩)⟩

/-- A name that stands for one binding is resolved to it. -/
theorem Clear.resolution (hb : G.Binds (m, name) (t, b)) :
    ∃ s', host.resolution m name s = some (.ok (some (.found t b)), s') := by
  obtain ⟨r, s', hrun, htells⟩ := resolution_tells h hdepth hw hm hh name
  obtain rfl := htells.of_binds (fun q hq => hclear.not_blocked hlist hq) hb
  exact ⟨s', hrun⟩

/-- A namespace reads the binding that a key of it stands for, when it has looked it up. -/
theorem Clear.namespaceGet (hl : LooksUp host (Machine.Keeps journal fun _ => False))
    (hkept : G.Kept s) (hb : G.Binds (m, name) (t, b)) :
    ∃ s₁, s.Keeps journal (fun _ => False) s₁ ∧ world s₁ ∧
      (do
        let _ ← host.namespaceOf m
        host.namespaceGet m name) s = host.readBound (t, b) s₁ := by
  obtain ⟨keys, s₁, hrun, hexports, hkeys⟩ :=
    hclear.namespaceKeys h hlist hdepth hw hm hh hkept
  obtain ⟨hw₁, hgrow⟩ := h.namespaceKeys m _ _ _ hrun hw
  obtain ⟨s₂, hfound⟩ := hclear.resolution h hlist hdepth hw₁ hm (hgrow m hh) hb
  refine ⟨s₂, ?_, ?_, ?_⟩
  · exact hl.trans (hl.namespaceKeys m _ _ _ hrun) (hl.resolution m name _ _ _ hfound)
  · exact (h.resolution m name _ _ _ hfound hw₁).1
  · have hkey : (((s₁.module m).exports).getD []).contains name = true := by
      rw [hexports, Option.getD_some, List.contains_iff_mem, hkeys.mem_iff]
      exact ⟨_, hb⟩
    have hbound : host.boundTo m name s₁ = some (.ok (some (t, b)), s₂) :=
      (throwing_bind_of_ok hfound).trans rfl
    calc (do
          let _ ← host.namespaceOf m
          host.namespaceGet m name) s
        = host.namespaceGet m name s₁ :=
          throwing_bind_of_ok (throwing_bind.2 (.inl ⟨keys, s₁, hrun, rfl⟩))
      _ = host.readBound (t, b) s₂ := by
          rw [Host.namespaceGet, Act.view_bind, if_pos hkey, throwing_bind_of_ok hbound]
          cases b <;> rfl

end Serves

/-! ## Live machines -/

section Live

variable (h : G.Animates journal world host) (hlive : G.Live journal world s)
include h hlive

/-- What a linked module requests is linked. -/
theorem Live.answered (hm : (s.status m).IsLinked) {record : SourceRecord}
    (hs : G.source m = some record) {request : String} (hr : request ∈ record.requested) :
    ∃ n, G.target m request = some n ∧ (s.status n).IsLinked := by
  have hh := Machine.has_of_isLinked hm
  rw [← h.requested_eq hlive.here hh hs] at hr
  obtain ⟨n, hn, hlinked⟩ := hlive.rest.answered m hm request hr
  exact ⟨n, h.noted hlive.here (h.all hlive.here hh) hn, hlinked⟩

theorem Live.below (hm : (s.status m).IsLinked) (hn : ReflTransGen G.Requests m n) :
    (s.status n).IsLinked := by
  induction hn with
  | refl => exact hm
  | tail _ hr ih =>
    obtain ⟨record, hs, request, hr, ht⟩ := hr
    obtain ⟨n', ht', hlinked⟩ := hlive.answered h ih hs hr
    cases ht.symm.trans ht'
    exact hlinked

/-- Nothing below a linked module is refused. -/
theorem Live.clear (hm : (s.status m).IsLinked) : G.Clear m := by
  rintro n hn ⟨record, hs, request, hr, ht⟩
  obtain ⟨n', ht', -⟩ := hlive.answered h (hlive.below h hm hn) hs hr
  rw [ht] at ht'
  cases ht'

variable (hparsed : G.Parsed)
include hparsed

/-- The binding that a name of a linked module stands for is a local one, or a namespace. -/
theorem Live.stores (hm : (s.status m).IsLinked) (hb : G.Binds (m, name) (t, b)) :
    (s.status t).IsLinked ∧ ∃ value, s.Stores (t, b) value := by
  have ht := hlive.below h hm (hb.provides.requests hparsed.listed)
  refine ⟨ht, ?_⟩
  obtain ⟨⟨x, name⟩, -, hyields⟩ := hb.provides
  cases hyields with
  | @own _ _ record e hs he =>
    obtain ⟨env, henv⟩ := hlive.bound t ht
    obtain ⟨value, mutable, hvalue⟩ :=
      (hlive.fits t record env hs henv).own e (List.mem_of_find?_eq_some he)
    exact ⟨value, .name henv hvalue⟩
  | «namespace» => exact ⟨_, .namespace⟩
  | leaf hs =>
    have hh := Machine.has_of_isLinked ht
    obtain ⟨record, hs'⟩ := hparsed.source t (h.all hlive.here hh)
    rw [hs] at hs'
    cases hs'

variable (hdepth : G.bound < host.depth)
include hdepth

/-- A binding is read as it is stored, at any machine that keeps the modules. -/
theorem Live.reads (ht : (s.status t).IsLinked) (hstores : s.Stores (t, b) value)
    (hk : s.Keeps journal (fun _ => False) s₁) (hw : world s₁) :
    s₁.Reads (host.readBound (t, b)) b value := by
  have hh := Machine.has_of_isLinked ht
  have henv : s₁.environment? t = s.environment? t := by
    rw [Machine.environment?, hk.kind t hh id, Machine.environment?]
  cases hstores.of_environment henv with
  | «namespace» =>
    obtain ⟨s₂, hrun⟩ := (hlive.clear h ht).namespaceOf h.serves hparsed.listed hdepth hw
      (h.all hw (hk.has t hh)) (hk.has t hh)
    exact .value hrun
  | name henv hb =>
    obtain ⟨depth, hd⟩ := Nat.exists_eq_add_of_lt hdepth
    rw [Host.readBound, Host.getBinding, hd]
    exact reads_local henv _ hb

/-- All ways to an imported name read the one binding that it stands for. -/
theorem Live.imports (hm : (s.status m).IsLinked) {record : SourceRecord}
    (hs : G.source m = some record) {i : ImportEntry} (hi : i ∈ record.imports)
    (hname : i.importName = some name) :
    ∃ n t b value env, (∃ s', host.resolve (.module m) i.request s = some (.ok n, s')) ∧
      (∃ s', host.resolution n name s = some (.ok (some (.found t b)), s')) ∧
      s.environment? m = some env ∧ env.get? i.localName = some (b.imported t) ∧
      s.Stores (t, b) value ∧
      s.Reads (host.getBinding m i.localName) b value ∧
      s.Reads (do
        let _ ← host.namespaceOf n
        host.namespaceGet n name) b value ∧
      s.Reads (host.readBound (t, b)) b value := by
  have hh := Machine.has_of_isLinked hm
  have hmem := h.all hlive.here hh
  have hlist := hparsed.listed
  obtain ⟨env, henv⟩ := hlive.bound m hm
  obtain ⟨c, himported, hc⟩ := (hlive.fits m record env hs henv).imports i hi
  obtain ⟨n, t, b, htarget, hbinds, rfl⟩ := himported.binds hname
  obtain ⟨n', htarget', hn⟩ := hlive.answered h hm hs ((hlist m record hs).imports i hi)
  cases htarget.symm.trans htarget'
  have hhn := Machine.has_of_isLinked hn
  have hmemn := h.all hlive.here hhn
  have hclear := hlive.clear h hn
  obtain ⟨ht, value, hstores⟩ := hlive.stores h hparsed hn hbinds
  obtain ⟨s₁, hresolve, -⟩ := h.serves.answers hlive.here hmem hh htarget
  obtain ⟨s₂, hkeeps, hw₂, hnamespace⟩ := hclear.namespaceGet h.serves hlist hdepth hlive.here
    hmemn hhn h.conduct.looksUp hlive.kept hbinds
  have hdirect := hlive.reads h hparsed hdepth ht hstores
    ((Machine.Keeps.composes journal _).refl s) hlive.here
  refine ⟨n, t, b, value, env, ⟨s₁, hresolve⟩, ?_, henv, hc, hstores, ?_, ?_, hdirect⟩
  · exact hclear.resolution h.serves hlist hdepth hlive.here hmemn hhn hbinds
  · -- At most one indirection: two modules are enough for the depth.
    obtain ⟨depth, hd⟩ : ∃ depth, host.depth = depth + 2 := by
      have hcard : 0 < G.modules.card := Finset.card_pos.2 ⟨m, hmem⟩
      have hbound := G.card_modules_le
      exact ⟨host.depth - 2, by omega⟩
    rw [Host.getBinding, hd]
    exact reads_imported henv depth hc hstores
  · exact (hlive.reads h hparsed hdepth ht hstores hkeeps hw₂).of_eq hnamespace

end Live

/-- All paths to an imported name read the same live binding. In a graph of source text modules
whose requests have fixed answers, a run starts with new modules and comes to a machine in which a
module is linked that imports a name. The request of the import is answered, and the name resolves
in the module that is found. The environment of the importing module holds the namespace, or leads
to the binding, which is a local one of a module that has an environment. Reading the import, the
key of the namespace of the module found, and the binding itself ends alike: each gives the value
that the binding has at that time, or throws the same error because it has none. -/
theorem import_paths_read_one_binding (h : G.Animates journal world host) (hparsed : G.Parsed)
    (hdepth : G.bound < host.depth) (hw : world s₀) (hnew : ∀ m, (s₀.module m).kind.IsNew)
    (hexports : ∀ m, (s₀.module m).exports = none)
    (hbodies : ∀ r x, s₀.handler? r ≠ some (.bodyEnded x))
    (hs : ReflTransGen (Machine.Episode journal world host) s₀ s) (hm : (s.status m).IsLinked)
    {record : SourceRecord} (hrecord : s.record? m = some record) {i : ImportEntry}
    (hi : i ∈ record.imports) (hname : i.importName = some name) :
    ∃ n t b value env, (∃ s', host.resolve (.module m) i.request s = some (.ok n, s')) ∧
      (∃ s', host.resolution n name s = some (.ok (some (.found t b)), s')) ∧
      s.environment? m = some env ∧ env.get? i.localName = some (b.imported t) ∧
      s.Stores (t, b) value ∧
      s.Reads (host.getBinding m i.localName) b value ∧
      s.Reads (do
        let _ ← host.namespaceOf n
        host.namespaceGet n name) b value ∧
      s.Reads (host.readBound (t, b)) b value := by
  obtain ⟨hlive, -⟩ := h.run hparsed hdepth hs (live_of_new hw hnew hexports hbodies)
  have hh := Machine.has_of_isLinked hm
  have hsource := (h.serves.record hlive.here (h.all hlive.here hh) hh).symm.trans hrecord
  exact hlive.imports h hparsed hdepth hm hsource hi hname

end ExportGraph

/-! ## The graph of a plan -/

namespace Plan

variable {plan : Plan} {base s s' : Machine Journal ModuleId}

theorem peeks_answer (plan : Plan) (base : Machine Journal ModuleId) (m : ModuleId)
    (request : String) : Within (Machine.Peeks id (plan.Shows base)) (plan.answer m request) := by
  intro s r s' hrun
  refine ⟨plan.spares_answer base m request s r s' hrun, plan.within_answer m request s r s' hrun,
    fun q x hq => ⟨q, ?_⟩⟩
  rwa [Machine.handler?, Machine.reaction?, (answer_beside hrun).2] at hq

/-- Nothing but the journal changes, and nothing is taken off it. -/
theorem errand_beside {host : Host Journal ModuleId}
    (hs : Machine.SparesKeys (plan.Shows base) s s') (hm : s'.modules = s.modules)
    (hr : s'.reactions = s.reactions) (hj : ∀ entry ∈ s.host, entry ∈ s'.host) :
    s.Errand id (plan.Shows base) host s' :=
  .develop hs (.of_modules hm hj fun q x hq => .inl (.body (r := q) (by
    rwa [Machine.handler?, Machine.reaction?, hr] at hq)))

/-- A host that follows a plan animates the graph of a machine. -/
theorem animates (plan : Plan) (names : ModuleId → List String) (base : Machine Journal ModuleId)
    (depth : Nat)
    (hbase : ∀ m, (base.cyclic? m).map (·.requested) = (base.record? m).map (·.requested)) :
    (plan.graph names base).Animates id (plan.Shows base) (plan.exporting names depth) where
  serves := plan.serves names base depth
  conduct := plan.exporting_linkConduct names depth
  lookups :=
    have hc := Machine.Peeks.composes id (plan.Shows base)
    { toComposes := hc
      resolve := plan.peeks_answer base
      exportedNames := fun _ => Within.pure hc _
      resolveExport := fun _ _ _ => Within.pure hc _ }
  prepare _ := Within.pure (.reflTransGen _) _
  hooks := by
    refine exporting_within (.reflTransGen _) (fun he s r s' hrun => ?_) plan names depth
      (fun m request s r s' hrun => ?_) fun hm hr hh => ?_
    · have hspares : Machine.SparesKeys (plan.Shows base) s s' := spares_note he s r s' hrun
      cases hrun
      exact .single (errand_beside hspares rfl rfl fun _ => List.mem_append_left _)
    · exact .single (.instant (.peek (plan.peeks_answer base m request s r s' hrun)))
    · exact .single (errand_beside (spares_beside hm hh) hm hr fun _ he => hh ▸ he)
  found := exporting_found
  all h hm := mem_graph.2 (by rwa [Machine.Has, ← h.size])
  requested h _ _ := (h.text _).2.trans (hbase _)
  noted h _ he := h.noted he
  text s m _ hf := plan.stays_updateModule base s m hf
  aside := (plan.attends names base depth).aside
  tracked _ _ _ := rfl

end Plan

/-! ## Two modules that import from each other -/

namespace Mutual

/-- Module `0` imports `x` from module `1` and declares `w`. -/
def first : Syntax.Program :=
  [.importFrom "1" [.named "x" "y"],
    .exportDeclaration (.variables .let [.mk (.name "w") none])]

/-- Module `1` imports `w` from module `0` and declares `x`. -/
def second : Syntax.Program :=
  [.importFrom "0" [.named "w" "z"],
    .exportDeclaration (.variables .let [.mk (.name "x") none])]

def plan : Plan where
  target _ request := some (if request = "0" then ⟨0⟩ else ⟨1⟩)
  body _ := .completes

def names (_ : ModuleId) : List String := []

def made (record : SourceRecord) : Module :=
  .new (.source record none (.new record.requested record.hasAwait)) none

def firstRecord : SourceRecord :=
  { (default : SourceRecord) with
    requested := ["1"], imports := [⟨"1", some "x", "y"⟩], localExports := [⟨"w", "w"⟩]
    lexical := [("w", .let)] }

def secondRecord : SourceRecord :=
  { (default : SourceRecord) with
    requested := ["0"], imports := [⟨"0", some "w", "z"⟩], localExports := [⟨"x", "x"⟩]
    lexical := [("x", .let)] }

def modules : Machine Journal ModuleId :=
  { Machine.initial [] with modules := #[made firstRecord, made secondRecord] }

theorem isNew_modules (m : ModuleId) : (modules.module m).kind.IsNew := by
  match m with
  | ⟨0⟩ => exact ⟨rfl, rfl⟩
  | ⟨1⟩ => exact ⟨rfl, rfl⟩
  | ⟨n + 2⟩ => exact Machine.isNew_of_not_has (by simp [Machine.Has, modules])

theorem parsed : (plan.graph names modules).Parsed where
  source m hm := by
    obtain ⟨_ | _ | n⟩ := m
    · exact ⟨_, rfl⟩
    · exact ⟨_, rfl⟩
    · exact absurd (Plan.mem_graph.1 hm) (by simp [Machine.Has, modules])
  program m record hs := by
    -- A program without export clauses is scoped if its imports are distinct.
    have hscoped : ∀ {program : Syntax.Program}, (program.imports.map (·.localName)).Nodup →
        (∀ names, Syntax.Item.exportNames names ∉ program) → program.Scoped :=
      fun hdistinct hclauses => ⟨hdistinct, fun names hn => absurd hn (hclauses names)⟩
    obtain ⟨_ | _ | n⟩ := m
    · cases hs
      exact ⟨"", first, by rfl, hscoped (by decide) fun names => by simp [first]⟩
    · cases hs
      exact ⟨"", second, by rfl, hscoped (by decide) fun names => by simp [second]⟩
    · have hnone : modules.record? ⟨n + 2⟩ = some default := by
        rw [Machine.record?, Machine.module_of_not_has (by simp [Machine.Has, modules])]
        rfl
      cases hnone.symm.trans hs
      exact ⟨"", [], by rfl, hscoped (by decide) fun names => by simp⟩

theorem requested_modules (m : ModuleId) :
    (modules.cyclic? m).map (·.requested) = (modules.record? m).map (·.requested) := by
  match m with
  | ⟨0⟩ => rfl
  | ⟨1⟩ => rfl
  | ⟨n + 2⟩ =>
    rw [Machine.cyclic?_eq, Machine.record?,
      Machine.module_of_not_has (by simp [Machine.Has, modules])]
    rfl

theorem exports_modules (m : ModuleId) : (modules.module m).exports = none := by
  match m with
  | ⟨0⟩ => rfl
  | ⟨1⟩ => rfl
  | ⟨n + 2⟩ =>
    rw [Machine.module_of_not_has (by simp [Machine.Has, modules])]
    rfl

def linked : Machine Journal ModuleId :=
  (((plan.exporting names 9).link ⟨0⟩ modules).get (by rfl)).2

theorem link_modules : (plan.exporting names 9).link ⟨0⟩ modules = some (.ok (), linked) := by
  rfl

theorem status_linked : (linked.status ⟨1⟩).IsLinked := by
  have h : linked.status ⟨1⟩ = .linked := by rfl
  rw [h]
  trivial

theorem record_linked : linked.record? ⟨1⟩ = some secondRecord := by rfl

end Mutual

open Mutual in
/-- Module `1` reads a binding of module `0` that has no value yet. -/
theorem import_paths_read_one_binding_mutual :
    (plan.graph names modules).bound < 9 ∧
    (plan.exporting names 9).link ⟨0⟩ modules = some (.ok (), linked) ∧
    (linked.status ⟨1⟩).IsLinked ∧ linked.record? ⟨1⟩ = some secondRecord ∧
    ∃ n t b value env,
      (∃ s', (plan.exporting names 9).resolve (.module ⟨1⟩) "0" linked = some (.ok n, s')) ∧
      (∃ s', (plan.exporting names 9).resolution n "w" linked =
        some (.ok (some (.found t b)), s')) ∧
      linked.environment? ⟨1⟩ = some env ∧ env.get? "z" = some (b.imported t) ∧
      linked.Stores (t, b) value ∧
      linked.Reads ((plan.exporting names 9).getBinding ⟨1⟩ "z") b value ∧
      linked.Reads (do
        let _ ← (plan.exporting names 9).namespaceOf n
        (plan.exporting names 9).namespaceGet n "w") b value ∧
      linked.Reads ((plan.exporting names 9).readBound (t, b)) b value := by
  have hbound : (plan.graph names modules).bound < 9 := by decide
  have hrun : ReflTransGen (Machine.Episode id (plan.Shows modules) (plan.exporting names 9))
      modules linked := .single (.errand (.link (by decide : 0 < 2) link_modules))
  have hbodies : ∀ r x, modules.handler? r ≠ some (.bodyEnded x) := fun r x => by
    rw [Machine.handler?, Machine.reaction?]
    rintro ⟨⟩
  refine ⟨hbound, link_modules, status_linked, record_linked, ?_⟩
  have hi : (⟨"0", some "w", "z"⟩ : ImportEntry) ∈ secondRecord.imports :=
    List.mem_singleton_self _
  have hread := ExportGraph.import_paths_read_one_binding
    (plan.animates names modules 9 requested_modules) parsed hbound (plan.shows_self rfl)
    isNew_modules exports_modules hbodies hrun status_linked record_linked hi rfl
  exact hread

end ModuleGraph
