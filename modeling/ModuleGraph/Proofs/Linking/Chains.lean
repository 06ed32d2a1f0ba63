import ModuleGraph.Proofs.Linking.Initializing

/-! # The chain of imports that a link error tells

The path of a link error leads from the linked module down to the failure: each specifier is
requested by the module that the one before it resolved to. The error of a request comes at the end
of that chain from the last specifier, and the error of a hook from the last module. A link ends
with the failing call, apart from taking back what was open. -/

namespace ModuleGraph

open Relation

variable {σ κ : Type} {journal : σ → Journal} {host : Host σ κ}

namespace Machine

/-! ## What a link does -/

inductive LinkMove (host : Host σ κ) (s s' : Machine σ κ) : Prop
  | resolve {m : ModuleId} {request : String} {r : Except Value ModuleId} :
      host.resolve (.module m) request s = some (r, s') → LinkMove host s s'
  | exportedNames {m : ModuleId} {names : List String} :
      host.exportedNames m s = some (names, s') → LinkMove host s s'
  | resolveExport {m : ModuleId} {name : String} {visited : ModuleGraph.Visited}
      {r : Except Value (Option Resolution × ModuleGraph.Visited)} :
      host.resolveExport m name visited s = some (r, s') → LinkMove host s s'
  | linkLeaf {m : ModuleId} {r : Except Value Unit} :
      host.linkLeaf m s = some (r, s') → LinkMove host s s'
  | initializeForeign {m : ModuleId} {r : Except Value Unit} :
      host.initializeForeign m s = some (r, s') → LinkMove host s s'
  | instantiateForeign {m : ModuleId} {r : Except Value Bool} :
      host.instantiateForeign m s = some (r, s') → LinkMove host s s'
  | prepare {m : ModuleId} {r : Except Value Unit} :
      host.prepare m s = some (r, s') → LinkMove host s s'
  | update {m : ModuleId} {f : Module → Module} :
      (∀ x : Module, x.kind.SameText (f x).kind) → s' = s.updateModule m f → LinkMove host s s'

theorem spansLink_moves (host : Host σ κ) : SpansLink host (ReflTransGen (LinkMove host)) := by
  have hR := Composes.reflTransGen (LinkMove host)
  have hasks : Asks host (ReflTransGen (LinkMove host)) :=
    { hR with
      resolve := fun m request s r s' h => .single (.resolve h)
      exportedNames := fun m s r s' h => by
        obtain ⟨names, -, h⟩ := Act.ofRun_eq_some.1 h
        exact .single (.exportedNames h)
      resolveExport := fun m name visited s r s' h => .single (.resolveExport h) }
  exact
    { hasks with
      keys := fun m s r s' h => by
        obtain ⟨s₁, hs, rfl | ⟨keys, rfl⟩⟩ := hasks.namespaceKeys_cases h
        · exact hs
        · exact hs.tail (.update (m := m) (f := fun x => { x with exports := some keys })
            (fun _ => ⟨rfl, rfl⟩) rfl)
      leaf := fun m s r s' h => .single (.linkLeaf h)
      foreign := fun m s r s' h => .single (.initializeForeign h)
      instantiate := fun m s r s' h => .single (.instantiateForeign h)
      prepare := fun m s r s' h => .single (.prepare h)
      relink := fun s m f hf => .single (.update (fun x => (hf x.kind).sameText) rfl) }

structure Retains (journal : σ → Journal) (s s' : Machine σ κ) : Prop where
  has : ∀ m, s.Has m → s'.Has m
  requested : ∀ m r, r ∈ s.requested m → r ∈ s'.requested m
  noted : ∀ e ∈ journal s.host, e ∈ journal s'.host

theorem Retains.composes (journal : σ → Journal) :
    Composes (Machine.Retains (κ := κ) journal) where
  refl _ := ⟨fun _ => id, fun _ _ => id, fun _ => id⟩
  trans h h' := ⟨fun m hm => h'.has m (h.has m hm), fun m r hr => h'.requested m r
    (h.requested m r hr), fun e he => h'.noted e (h.noted e he)⟩

variable {s s' t t' : Machine σ κ} {m n k : ModuleId} {r name : String} {path : List String}
variable {e : LinkError} {record : SourceRecord}

theorem Keeps.retains {free : ModuleId → Prop} (h : s.Keeps journal free s') :
    s.Retains journal s' where
  has := h.has
  requested m r hr := by rwa [h.requested (has_of_requested hr)]
  noted e he := by
    obtain ⟨j, -, hj⟩ := h.noted
    rw [hj]
    exact List.mem_append_left _ he

theorem retains_updateModule (journal : σ → Journal) (s : Machine σ κ) (m : ModuleId)
    {f : Module → Module} (hf : ∀ x : Module, x.kind.SameText (f x).kind) :
    s.Retains journal (s.updateModule m f) := by
  refine ⟨fun n hn => by simpa using hn, fun n r hr => ?_, fun e he => he⟩
  by_cases hm : s.Has m
  · rw [requested, cyclic?_eq, module_updateModule _ _ _ _ hm]
    split
    · rename_i hn
      rwa [(hf _).2, ← cyclic?_eq, ← requested]
    · rwa [← cyclic?_eq, ← requested]
  · rwa [updateModule_of_not_has f hm]

theorem LinkMove.retains (hc : LinkConduct journal host) (h : LinkMove host s s') :
    s.Retains journal s' := by
  cases h with
  | resolve h => exact (hc.resolve _ _ _ _ _ h).retains
  | exportedNames h =>
    exact (hc.exportedNames _ _ _ _ (Act.ofRun_eq_some.2 ⟨_, rfl, h⟩)).retains
  | resolveExport h => exact (hc.resolveExport _ _ _ _ _ _ h).retains
  | linkLeaf h => exact (hc.linkLeaf _ _ _ _ h).retains
  | initializeForeign h => exact (hc.initializeForeign _ _ _ _ h).retains
  | instantiateForeign h => exact (hc.instantiateForeign _ _ _ _ h).retains
  | prepare h => exact (hc.prepare _ _ _ _ h).retains
  | update hf h =>
    subst h
    exact retains_updateModule journal _ _ hf

theorem retains_of_moves (hc : LinkConduct journal host) (h : ReflTransGen (LinkMove host) s s') :
    s.Retains journal s' := by
  induction h with
  | refl => exact (Retains.composes journal).refl s
  | tail _ h ih => exact (Retains.composes journal).trans ih (h.retains hc)

/-! ## Chains -/

/-- A chain of specifiers leads from a module to another one: each is requested by the module that
the one before it resolved to. -/
inductive Walk (s : Machine σ κ) (j : Journal) : ModuleId → List String → ModuleId → Prop
  | here (m : ModuleId) : Walk s j m [] m
  | next {m n k : ModuleId} {r : String} {path : List String} : r ∈ s.requested m →
      Entry.resolved m r n ∈ j → Walk s j n path k → Walk s j m (r :: path) k

/-- If resolution is stable, a chain leads to one module only. -/
theorem Walk.unique {j : Journal} {k' : ModuleId} (hj : j.Stable) (h : s.Walk j m path k)
    (h' : s.Walk j m path k') : k = k' := by
  induction h with
  | here => cases h'; rfl
  | next _ hn _ ih =>
    cases h' with
    | next _ hn' h' => exact ih (hj _ _ _ _ hn' hn ▸ h')

theorem Walk.mono {j j' : Journal} (h : s.Walk j m path k)
    (hr : ∀ m r, r ∈ s.requested m → r ∈ s'.requested m) (hj : ∀ e ∈ j, e ∈ j') :
    s'.Walk j' m path k := by
  induction h with
  | here m => exact .here m
  | next hreq hn _ ih => exact .next (hr _ _ hreq) (hj _ hn) ih

/-! ## The failing call -/

/-- The modules of source text come from texts, and they request what their texts do. -/
def Parsed (s : Machine σ κ) : Prop :=
  ∀ m record, s.record? m = some record → s.requested m = record.requested ∧
    ∃ text program, SourceRecord.ofText text (some program) = .ok record

/-- The text of a module imports or exports something from where a specifier leads: a name, or the
whole namespace. -/
def Takes (s : Machine σ κ) (m : ModuleId) (request : String) (importName : Option String) :
    Prop :=
  ∃ record, s.record? m = some record ∧
    ((∃ i ∈ record.imports, i.request = request ∧ i.importName = importName) ∨
      ∃ e ∈ record.indirectExports, e.request = request ∧ e.importName = importName)

end Machine

inductive Host.HookThrew (host : Host σ κ) (m : ModuleId) (v : Value) (t t' : Machine σ κ) : Prop
  | linkLeaf : host.linkLeaf m t = some (.error v, t') → HookThrew host m v t t'
  | prepare : host.prepare m t = some (.error v, t') → HookThrew host m v t t'
  | initializeForeign : host.initializeForeign m t = some (.error v, t') → HookThrew host m v t t'
  | instantiateForeign :
      host.instantiateForeign m t = some (.error v, t') → HookThrew host m v t t'

/-- A value was thrown for a request: by the resolver, or when exports were walked from the module
that it gave. -/
inductive Host.RequestThrew (host : Host σ κ) (s : Machine σ κ) (m : ModuleId) (request : String)
    (v : Value) (t t' : Machine σ κ) : Prop
  | resolver : host.resolve (.module m) request t = some (.error v, t') →
      RequestThrew host s m request v t t'
  | name {n : ModuleId} {name : String} {u : Machine σ κ} : s.Takes m request (some name) →
      host.resolve (.module m) request t = some (.ok n, u) →
      host.resolution n name u = some (.error v, t') → RequestThrew host s m request v t t'
  | keys {n : ModuleId} {u : Machine σ κ} : s.Takes m request none →
      host.resolve (.module m) request t = some (.ok n, u) →
      host.namespaceOf n u = some (.error v, t') → RequestThrew host s m request v t t'
  /-- The name means the namespace of a module behind the given one. -/
  | namedKeys {n q : ModuleId} {name : String} {u w : Machine σ κ} :
      s.Takes m request (some name) → host.resolve (.module m) request t = some (.ok n, u) →
      host.resolution n name u = some (.ok (some (.found q .namespace)), w) →
      host.namespaceOf q w = some (.error v, t') → RequestThrew host s m request v t t'

/-- The call that a link failed in, at the module that `path` leads to, and the error that tells of
it. The calls started in `t` and left `t'`. -/
inductive LinkFailure (host : Host σ κ) (s : Machine σ κ) (m : ModuleId) (path : List String)
    (t t' : Machine σ κ) : LinkError → Prop
  | hook {v : Value} : host.HookThrew m v t t' → LinkFailure host s m path t t' ⟨.host v, path⟩
  | resolution {request : String} {v : Value} : request ∈ s.requested m →
      host.RequestThrew s m request v t t' →
        LinkFailure host s m path t t' ⟨.resolution request v, path ++ [request]⟩
  | unresolvable {request name : String} {n : ModuleId} {u : Machine σ κ} :
      request ∈ s.requested m → s.Takes m request (some name) →
      host.resolve (.module m) request t = some (.ok n, u) →
      host.resolution n name u = some (.ok none, t') →
        LinkFailure host s m path t t' ⟨.unresolvable request name, path ++ [request]⟩
  | ambiguous {request name : String} {n : ModuleId} {u : Machine σ κ} :
      request ∈ s.requested m → s.Takes m request (some name) →
      host.resolve (.module m) request t = some (.ok n, u) →
      host.resolution n name u = some (.ok (some .ambiguous), t') →
        LinkFailure host s m path t t' ⟨.ambiguous request name, path ++ [request]⟩

/-! ## How lookups end -/

section Lookups

variable {t t' : Machine σ κ} {m n : ModuleId} {r name : String} {path : List String}

theorem resolveRequest_cases {x : Except LinkError ModuleId}
    (hrun : resolveRequest host path m r t = some (x, t')) :
    (∃ n, x = .ok n ∧ host.resolve (.module m) r t = some (.ok n, t')) ∨
      ∃ v, x = .error (requestError path r v) ∧
        host.resolve (.module m) r t = some (.error v, t') := by
  obtain ⟨y, h, rfl⟩ := Linking.ofAct_eq_some.1 hrun
  cases y with
  | ok n => exact .inl ⟨n, rfl, h⟩
  | error v => exact .inr ⟨v, rfl, h⟩

/-- The resolution of an imported name: the lookup throws, or something is found or nothing. -/
theorem resolveImport_cases {x : Except LinkError (ModuleId × BindingName)}
    (hrun : resolveImport host path m r name t = some (x, t')) :
    (∃ v, x = .error (requestError path r v) ∧
      (host.resolve (.module m) r t = some (.error v, t') ∨
        ∃ n u, host.resolve (.module m) r t = some (.ok n, u) ∧
          host.resolution n name u = some (.error v, t'))) ∨
    ∃ n u, host.resolve (.module m) r t = some (.ok n, u) ∧
      ((∃ q b, x = .ok (q, b) ∧ host.resolution n name u = some (.ok (some (.found q b)), t')) ∨
        (x = .error ⟨.ambiguous r name, path ++ [r]⟩ ∧
          host.resolution n name u = some (.ok (some .ambiguous), t')) ∨
        (x = .error ⟨.unresolvable r name, path ++ [r]⟩ ∧
          host.resolution n name u = some (.ok none, t'))) := by
  obtain ⟨found, t₁, hlookup, hend⟩ | ⟨_, hlookup, rfl⟩ := throwing_bind.1 hrun
  · obtain ⟨y, hact, hy⟩ := Linking.ofAct_eq_some.1 hlookup
    cases y with
    | error v => cases hy
    | ok found' =>
      cases hy
      obtain ⟨n, u, hn, hfound⟩ | ⟨_, -, hthrown⟩ := throwing_bind.1 hact
      · refine .inr ⟨n, u, hn, ?_⟩
        match found, hend with
        | some (.found q b), hend =>
          cases hend
          exact .inl ⟨q, b, rfl, hfound⟩
        | some .ambiguous, hend =>
          cases hend
          exact .inr (.inl ⟨rfl, hfound⟩)
        | none, hend =>
          cases hend
          exact .inr (.inr ⟨rfl, hfound⟩)
      · cases hthrown
  · obtain ⟨y, hact, hy⟩ := Linking.ofAct_eq_some.1 hlookup
    cases y with
    | ok found => cases hy
    | error v =>
      cases hy
      refine .inl ⟨v, rfl, ?_⟩
      obtain ⟨n, u, hn, hfound⟩ | ⟨_, hn, hthrown⟩ := throwing_bind.1 hact
      · exact .inr ⟨n, u, hn, hfound⟩
      · cases hthrown
        exact .inl hn

theorem namespaceBinding_cases {x : Except LinkError Binding}
    (hrun : namespaceBinding host path r n t = some (x, t')) :
    (x = .ok (.local (some (.namespace n)) false) ∧
      host.namespaceOf n t = some (.ok (.namespace n), t')) ∨
      ∃ v, x = .error (requestError path r v) ∧ host.namespaceOf n t = some (.error v, t') := by
  obtain ⟨v, t₁, hmake, hend⟩ | ⟨_, hmake, rfl⟩ := throwing_bind.1 hrun
  · obtain ⟨y, h, hy⟩ := Linking.ofAct_eq_some.1 hmake
    cases y with
    | error v => cases hy
    | ok v' =>
      cases hy
      obtain ⟨keys, t₂, hkeys, hvalue⟩ | ⟨_, -, hthrown⟩ := throwing_bind.1 h
      · cases hvalue
        cases hend
        exact .inl ⟨rfl, h⟩
      · cases hthrown
  · obtain ⟨y, h, hy⟩ := Linking.ofAct_eq_some.1 hmake
    cases y with
    | ok v => cases hy
    | error v =>
      cases hy
      exact .inr ⟨v, rfl, h⟩

end Lookups

namespace LinkFailure

open Machine

variable {s s' t t' : Machine σ κ} {m n : ModuleId} {r name : String} {path : List String}
variable {e : LinkError} {record : SourceRecord} {i : ImportEntry}

/-- Only the requests and the text of the module matter. -/
theorem congr (h : LinkFailure host s m path t t' e) (hr : s'.requested m = s.requested m)
    (ht : s'.record? m = s.record? m) : LinkFailure host s' m path t t' e := by
  have htakes : ∀ {r importName}, s.Takes m r importName → s'.Takes m r importName := by
    rintro r importName ⟨record, hrecord, h⟩
    exact ⟨record, ht.trans hrecord, h⟩
  cases h with
  | hook h => exact .hook h
  | resolution hreq h =>
    refine .resolution (hr ▸ hreq) ?_
    cases h with
    | resolver h => exact .resolver h
    | name ht hn h => exact .name (htakes ht) hn h
    | keys ht hn h => exact .keys (htakes ht) hn h
    | namedKeys ht hn hq h => exact .namedKeys (htakes ht) hn hq h
  | unresolvable hreq ht hn h => exact .unresolvable (hr ▸ hreq) (htakes ht) hn h
  | ambiguous hreq ht hn h => exact .ambiguous (hr ▸ hreq) (htakes ht) hn h

/-! ## Lookups that fail -/

theorem of_resolveRequest (hr : r ∈ s.requested m)
    (hrun : resolveRequest host path m r t = some (.error e, t')) :
    LinkFailure host s m path t t' e := by
  obtain ⟨n, hn, -⟩ | ⟨v, hv, h⟩ := resolveRequest_cases hrun
  · cases hn
  · cases hv
    exact .resolution hr (.resolver h)

theorem of_resolveImport (hr : r ∈ s.requested m) (ht : s.Takes m r (some name))
    (hrun : resolveImport host path m r name t = some (.error e, t')) :
    LinkFailure host s m path t t' e := by
  obtain ⟨v, hv, h | ⟨n, u, hn, h⟩⟩ |
    ⟨n, u, hn, ⟨q, b, hb, -⟩ | ⟨hb, h⟩ | ⟨hb, h⟩⟩ := resolveImport_cases hrun
  · cases hv
    exact .resolution hr (.resolver h)
  · cases hv
    exact .resolution hr (.name ht hn h)
  · cases hb
  · cases hb
    exact .ambiguous hr ht hn h
  · cases hb
    exact .unresolvable hr ht hn h

theorem of_checkIndirect {entry : IndirectExport} (hr : entry.request ∈ s.requested m)
    (ht : s.Takes m entry.request entry.importName)
    (hrun : checkIndirect host path m entry t = some (.error e, t')) :
    LinkFailure host s m path t t' e := by
  rw [checkIndirect] at hrun
  cases hname : entry.importName with
  | some name =>
    rw [hname] at hrun ht
    obtain ⟨_, _, -, hend⟩ | ⟨_, hfail, he⟩ := throwing_bind.1 hrun
    · cases hend
    · cases he
      exact of_resolveImport hr ht hfail
  | none =>
    rw [hname] at hrun
    obtain ⟨_, _, -, hend⟩ | ⟨_, hfail, he⟩ := throwing_bind.1 hrun
    · cases hend
    · cases he
      exact of_resolveRequest hr hfail

theorem of_importBinding (hr : i.request ∈ s.requested m) (ht : s.Takes m i.request i.importName)
    (hrun : importBinding host path m i t = some (.error e, t')) :
    LinkFailure host s m path t t' e := by
  rw [importBinding] at hrun
  cases hname : i.importName with
  | none =>
    rw [hname] at hrun ht
    obtain ⟨n, u, hask, hbind⟩ | ⟨_, hfail, he⟩ := throwing_bind.1 hrun
    · obtain ⟨n', hn', hn⟩ | ⟨v, hv, -⟩ := resolveRequest_cases hask
      · cases hn'
        obtain ⟨hb, -⟩ | ⟨v, hv, h⟩ := namespaceBinding_cases hbind
        · cases hb
        · cases hv
          exact .resolution hr (.keys ht hn h)
      · cases hv
    · cases he
      exact of_resolveRequest hr hfail
  | some name =>
    rw [hname] at hrun ht
    obtain ⟨⟨q, b⟩, w, hask, hbind⟩ | ⟨_, hfail, he⟩ := throwing_bind.1 hrun
    · cases b with
      | name binding => cases hbind
      | «namespace» =>
        obtain ⟨hb, -⟩ | ⟨v, hv, h⟩ := namespaceBinding_cases hbind
        · cases hb
        cases hv
        obtain ⟨v', hv', -⟩ | ⟨n, u, hn, ⟨q', b, hb, hq⟩ | ⟨hb, -⟩ | ⟨hb, -⟩⟩ :=
          resolveImport_cases hask
        · cases hv'
        · cases hb
          exact .resolution hr (.namedKeys ht hn hq h)
        · cases hb
        · cases hb
    · cases he
      exact of_resolveImport hr ht hfail

/-! ## Initializations that fail -/

theorem of_checkIndirects {entries : List IndirectExport}
    (hin : ∀ entry ∈ entries, entry.request ∈ s.requested m ∧
      s.Takes m entry.request entry.importName)
    (hrun : entries.forM (checkIndirect host path m) t = some (.error e, t')) :
    ∃ u, ReflTransGen (LinkMove host) t u ∧ LinkFailure host s m path u t' e := by
  induction entries generalizing t with
  | nil => cases hrun
  | cons entry rest ih =>
    obtain ⟨⟨hr, ht⟩, hrest⟩ := List.forall_mem_cons.1 hin
    obtain ⟨_, u, hfirst, hlater⟩ | ⟨_, hfail, he⟩ := throwing_bind.1 hrun
    · have hmoves := (spansLink_moves host).checkIndirect path m entry _ _ _ hfirst
      obtain ⟨w, hw, hfailure⟩ := ih hrest hlater
      exact ⟨w, hmoves.trans hw, hfailure⟩
    · cases he
      exact ⟨t, .refl, of_checkIndirect hr ht hfail⟩

theorem of_bindImports {imports : List ImportEntry}
    (hin : ∀ i ∈ imports, i.request ∈ s.requested m ∧ s.Takes m i.request i.importName)
    {env : Environment} (hrun : bindImports host path m imports env t = some (.error e, t')) :
    ∃ u, ReflTransGen (LinkMove host) t u ∧ LinkFailure host s m path u t' e := by
  have hspans := spansLink_moves host
  induction imports generalizing t env with
  | nil => cases hrun
  | cons i rest ih =>
    obtain ⟨⟨hr, ht⟩, hrest⟩ := List.forall_mem_cons.1 hin
    rw [bindImports] at hrun
    obtain ⟨b, u, hfirst, hlater⟩ | ⟨_, hfail, he⟩ := throwing_bind.1 hrun
    · have hmoves := hspans.importBinding hspans.keys path m i _ _ _ hfirst
      obtain ⟨w, hw, hfailure⟩ := ih hrest hlater
      exact ⟨w, hmoves.trans hw, hfailure⟩
    · cases he
      exact ⟨t, .refl, of_importBinding hr ht hfail⟩

/-- The text of a module is still there when a lookup for it fails, and it requests whatever it
takes from elsewhere. -/
theorem takes_of_lookup (hm : t.Has m) (hrecord : t.record? m = some record)
    (hkeeps : t.Keeps journal (fun _ => False) t') (hp : t'.Parsed) :
    (∀ entry ∈ record.indirectExports, entry.request ∈ t'.requested m ∧
      t'.Takes m entry.request entry.importName) ∧
    ∀ i ∈ record.imports, i.request ∈ t'.requested m ∧ t'.Takes m i.request i.importName := by
  have hrecord' : t'.record? m = some record := by
    rw [record?, hkeeps.kind m hm id, ← record?, hrecord]
  obtain ⟨hrequested, text, program, htext⟩ := hp m record hrecord'
  have hlisted := SourceRecord.listed_ofProgram htext
  rw [hrequested]
  exact ⟨fun entry he => ⟨hlisted.indirect entry he, record, hrecord', .inr ⟨entry, he, rfl, rfl⟩⟩,
    fun i hi => ⟨hlisted.imports i hi, record, hrecord', .inl ⟨i, hi, rfl, rfl⟩⟩⟩

/-- What became of a part of a link that failed, started in `t` at the module that `path` leads to:
it went on up to a call that failed at the end of a chain from this module. -/
def Below (journal : σ → Journal) (host : Host σ κ) (m : ModuleId) (path : List String)
    (t t' : Machine σ κ) (e : LinkError) : Prop :=
  ∃ walked k u, ReflTransGen (LinkMove host) t u ∧ t'.Walk (journal t'.host) m walked k ∧
    LinkFailure host t' k (path ++ walked) u t' e

theorem Below.here {u : Machine σ κ} (hu : ReflTransGen (LinkMove host) t u)
    (h : LinkFailure host t' m path u t' e) : Below journal host m path t t' e :=
  ⟨[], m, u, hu, .here m, by rwa [List.append_nil]⟩

theorem Below.after {u : Machine σ κ} (h : Below journal host m path u t' e)
    (hu : ReflTransGen (LinkMove host) t u) : Below journal host m path t t' e := by
  obtain ⟨walked, k, w, hw, h⟩ := h
  exact ⟨walked, k, w, hu.trans hw, h⟩

theorem requestLinking_moves (depth : Nat) (path : List String) (m : ModuleId) (r : String) :
    Across (ReflTransGen (LinkMove host)) (requestLinking host depth path m r) := by
  have h := spansLink_moves host
  refine Across.bind h.toComposes (Across.ofLinking (h.resolveRequest path m r)) fun n => ?_
  refine Across.bind h.toComposes (h.visitLinking depth _ n) fun _ => ?_
  exact Across.update (h.reachOpen m n)

section Failing

variable (hc : LinkConduct journal host)
include hc

theorem of_initializeSource (hm : t.Has m) (hrecord : t.record? m = some record)
    (hrun : initializeSource host path m record t = some (.error e, t')) (hp : t'.Parsed) :
    ∃ u, ReflTransGen (LinkMove host) t u ∧ LinkFailure host t' m path u t' e := by
  have hspans := spansLink_moves host
  have hlooks := hc.looksUp
  have hchecks := Within.forM hlooks.toComposes (hlooks.asks.checkIndirect path m)
    record.indirectExports
  obtain ⟨e', hcheck, he⟩ | ⟨t₁, hcheck, ⟨e', hbind, he⟩ | ⟨env, t₂, x, hbind, hprepare, hx⟩⟩ :=
    initializeSource_cases hrun
  · cases he
    have hin := takes_of_lookup hm hrecord (hchecks _ _ _ hcheck) hp
    exact of_checkIndirects hin.1 hcheck
  · cases he
    have hkeeps := hlooks.trans (hchecks _ _ _ hcheck) (hlooks.bindImports path m _ _ _ _ _ hbind)
    obtain ⟨u, hu, hfailure⟩ := of_bindImports (takes_of_lookup hm hrecord hkeeps hp).2 hbind
    have hmoves := Within.forM hspans.toComposes (hspans.checkIndirect path m)
      record.indirectExports _ _ _ hcheck
    exact ⟨u, hmoves.trans hu, hfailure⟩
  · cases x with
    | ok v => cases hx
    | error v =>
      cases hx
      have hmoves := Within.forM hspans.toComposes (hspans.checkIndirect path m)
        record.indirectExports _ _ _ hcheck
      have hbound := hspans.bindImports hspans.keys path m _ _ _ _ _ hbind
      refine ⟨_, (hmoves.trans hbound).tail (.update (m := m)
        (f := fun x => { x with kind := x.kind.setEnvironment (record.complete env) })
        (fun x => ?_) rfl), .hook (.prepare hprepare)⟩
      change x.kind.SameText (x.kind.setEnvironment _)
      cases x.kind <;> exact ⟨rfl, rfl⟩

omit hc in
theorem of_initializeForeign
    (hrun : initializeForeign host path m t = some (.error e, t')) :
    ∃ u, ReflTransGen (LinkMove host) t u ∧ LinkFailure host t' m path u t' e := by
  obtain ⟨w, t₁, -, hend⟩ | ⟨_, hmake, he⟩ := throwing_bind.1 hrun
  · cases hend
  · cases he
    obtain ⟨x, hact, hx⟩ := Linking.ofAct_eq_some.1 hmake
    cases x with
    | ok w => cases hx
    | error v =>
      cases hx
      obtain ⟨⟨⟩, u, hinit, hinstance⟩ | ⟨_, hinit, he⟩ := throwing_bind.1 hact
      · exact ⟨u, .single (.initializeForeign hinit), .hook (.instantiateForeign hinstance)⟩
      · cases he
        exact ⟨t, .refl, .hook (.initializeForeign hinit)⟩

theorem of_initializeModule (hm : t.Has m)
    (hrun : initializeModule host path m t = some (.error e, t')) (hp : t'.Parsed) :
    ∃ u, ReflTransGen (LinkMove host) t u ∧ LinkFailure host t' m path u t' e := by
  cases hrecord : t.record? m with
  | some record =>
    rw [initializeModule_of_record hrecord] at hrun
    exact of_initializeSource hc hm hrecord hrun hp
  | none =>
    rw [initializeModule_of_foreign hrecord] at hrun
    exact of_initializeForeign hrun

omit hc in
theorem of_linkLeaf (hrun : linkLeaf host path m t = some (.error e, t')) :
    LinkFailure host s m path t t' e := by
  rw [linkLeaf, Linking.view_bind] at hrun
  cases hk : (t.module m).kind with
  | source | foreign =>
    rw [hk] at hrun
    cases hrun
  | leaf state =>
    rw [hk] at hrun
    cases state with
    | linked | evaluated => cases hrun
    | unlinked =>
      obtain ⟨_, t₁, -, hend⟩ | ⟨_, hhook, he⟩ := throwing_bind.1 hrun
      · cases hend
      · cases he
        obtain ⟨x, hleaf, hx⟩ := Linking.ofAct_eq_some.1 hhook
        cases x with
        | ok u => cases hx
        | error v =>
          cases hx
          exact .hook (.linkLeaf hleaf)

/-! ## Visits that fail -/

variable {depth : Nat} {tr tr' : Traversal}

/-- A request whose visit fails adds its specifier to the chain. -/
theorem below_requestLinking (ih : ∀ path n tr t e tr' t', t.Has n →
      visitLinking host depth path n tr t = some ((.error e, tr'), t') → t'.Parsed →
        Below journal host n path t t' e)
    (hreq : r ∈ t.requested m)
    (hrun : requestLinking host depth path m r tr t = some ((.error e, tr'), t'))
    (hp : t'.Parsed) : Below journal host m path t t' e := by
  have hspans := spansLink_moves host
  obtain ⟨n, tr₁, t₁, hask, hlater⟩ | ⟨_, hask, he⟩ := visit_bind.1 hrun
  · obtain ⟨-, hfound⟩ := LinkVisit.ofLinking_eq_some.1 hask
    obtain ⟨x, hresolve, hx⟩ := Linking.ofAct_eq_some.1 hfound
    cases x with
    | error v => cases hx
    | ok n' =>
      cases hx
      obtain ⟨hnoted, hn⟩ := hc.answers hresolve
      have hmove : LinkMove host t t₁ := .resolve hresolve
      obtain ⟨_, tr₂, t₂, -, hend⟩ | ⟨_, hvisit, he⟩ := visit_bind.1 hlater
      · cases hend
      · cases he
        obtain ⟨walked, k, u, hu, hwalk, hfailure⟩ := ih _ _ _ _ _ _ _ hn hvisit hp
        have hafter := retains_of_moves hc (hspans.visitLinking depth _ _ _ _ _ _ hvisit)
        refine ⟨r :: walked, k, u, .head hmove hu, .next ?_ (hafter.noted _ hnoted) hwalk, ?_⟩
        · exact hafter.requested _ _ ((hmove.retains hc).requested _ _ hreq)
        · rwa [List.append_assoc] at hfailure
  · cases he
    obtain ⟨-, hfail⟩ := LinkVisit.ofLinking_eq_some.1 hask
    have hmoves := hspans.resolveRequest path m r _ _ _ hfail
    exact .here .refl (of_resolveRequest ((retains_of_moves hc hmoves).requested _ _ hreq) hfail)

theorem below_requestsLinking (ih : ∀ path n tr t e tr' t', t.Has n →
      visitLinking host depth path n tr t = some ((.error e, tr'), t') → t'.Parsed →
        Below journal host n path t t' e) (requests : List String) :
    ∀ tr t, (∀ r ∈ requests, r ∈ t.requested m) →
      requests.forM (requestLinking host depth path m) tr t = some ((.error e, tr'), t') →
      t'.Parsed → Below journal host m path t t' e := by
  induction requests with
  | nil =>
    intro tr t _ hrun
    cases hrun
  | cons r rest ihr =>
    intro tr t hreq hrun hp
    obtain ⟨hr, hrest⟩ := List.forall_mem_cons.1 hreq
    obtain ⟨tr₁, t₁, hfirst, hlater⟩ | ⟨_, hfail, he⟩ := visit_forM_cons.1 hrun
    · have hmoves := requestLinking_moves depth path m r _ _ _ _ hfirst
      have hretains := retains_of_moves hc hmoves
      refine (ihr _ _ (fun r hr => ?_) hlater hp).after hmoves
      exact hretains.requested _ _ (hrest r hr)
    · cases he
      exact below_requestLinking hc ih hr hfail hp

/-- A visit of any depth: the failure is at the end of a chain from the visited module, and the
error tells that chain after the path of the visit. -/
theorem below_visitLinking (depth : Nat) : ∀ path m tr t e tr' t', t.Has m →
    visitLinking host depth path m tr t = some ((.error e, tr'), t') → t'.Parsed →
      Below journal host m path t t' e := by
  have hspans := spansLink_moves host
  induction depth with
  | zero =>
    intro path m tr t e tr' t' _ hrun
    obtain ⟨-, a, -, hrun⟩ := LinkVisit.ofRun_eq_some.1 hrun
    cases hrun
  | succ depth ih =>
    intro path m tr t e tr' t' hm hrun hp
    rw [visitLinking, LinkVisit.view_bind] at hrun
    cases hcyc : t.cyclic? m with
    | none =>
      rw [hcyc] at hrun
      exact .here .refl (of_linkLeaf (LinkVisit.ofLinking_eq_some.1 hrun).2)
    | some c =>
      simp only [hcyc] at hrun
      split at hrun
      · obtain ⟨_, tr₁, t₁, hopen, hlater⟩ | ⟨_, hopen, -⟩ := visit_bind.1 hrun
        · have hopened := hspans.openLinking m _ _ _ _ hopen
          have hretains := retains_of_moves hc hopened
          obtain ⟨_, tr₂, t₂, hrequests, hfinish⟩ | ⟨_, hrequests, he⟩ := visit_bind.1 hlater
          · have hvisited := Across.forM hspans.toComposes (requestLinking_moves depth path m)
              c.requested _ _ _ _ hrequests
            have hbefore := hopened.trans hvisited
            obtain ⟨_, tr₃, t₃, -, hclose⟩ | ⟨_, hinit, he⟩ := visit_bind.1 hfinish
            · rw [ExportGraph.closeLinking_apply] at hclose
              split at hclose <;> cases hclose
            · cases he
              have hm₂ := (retains_of_moves hc hbefore).has m hm
              obtain ⟨u, hu, hfailure⟩ := of_initializeModule hc hm₂
                (LinkVisit.ofLinking_eq_some.1 hinit).2 hp
              exact .here (hbefore.trans hu) hfailure
          · cases he
            refine (below_requestsLinking hc ih c.requested _ _ (fun r hr => ?_) hrequests
              hp).after hopened
            exact hretains.requested _ _ (by rwa [requested_of_cyclic? hcyc])
        · cases hopen
      · cases hrun

end Failing

end LinkFailure

namespace Machine

/-- Taking back what was open leaves the text of each module. -/
theorem sameText_foldl_unlink (stack : List ModuleId) (s : Machine σ κ) (x : ModuleId) :
    (s.module x).kind.SameText ((stack.foldl Machine.unlink s).module x).kind := by
  induction stack generalizing s with
  | nil => exact ⟨rfl, rfl⟩
  | cons y rest ih =>
    obtain ⟨hrecord, hrequested⟩ := ih (s.unlink y)
    have hy : (s.module x).kind.SameText ((s.unlink y).module x).kind := by
      rw [unlink_eq_updateKind]
      by_cases hm : s.Has y
      · rw [kind_updateKind _ hm]
        split
        · exact (ModuleKind.relabels_takeBack _).text
        · exact ⟨rfl, rfl⟩
      · rw [updateKind, updateModule_of_not_has _ hm]
        exact ⟨rfl, rfl⟩
    exact ⟨hrecord.trans hy.1, hrequested.trans hy.2⟩

end Machine

/-- A failed link tells a real chain of imports. Its path leads from the linked module to the one
where the failing call was made; the specifier of a failing request, which that module requests,
ends the path. The link came to that call by moves of a link, and after the call it only took back
what was open. -/
theorem failed_link_tells_import_chain (hc : LinkConduct journal host) {s s' : Machine σ κ}
    {m : ModuleId} {e : LinkError} (hm : s.Has m) (hrun : host.link m s = some (.error e, s'))
    (hp : s'.Parsed) :
    ∃ path k t t' stack, s'.Walk (journal s'.host) m path k ∧
      LinkFailure host s' k path t t' e ∧ ReflTransGen (Machine.LinkMove host) s t ∧
      s' = List.foldl Machine.unlink t' stack := by
  obtain ⟨⟨result, tr⟩, t', hvisit, hend⟩ := Run.bind_eq_some.1 hrun
  cases result with
  | ok u => cases hend
  | error e' =>
    obtain ⟨rfl, hs'⟩ : e' = e ∧ tr.stack.foldl Machine.unlink t' = s' := by
      cases hend
      exact ⟨rfl, rfl⟩
    have htext := Machine.sameText_foldl_unlink tr.stack t'
    have hhost : (tr.stack.foldl Machine.unlink t').host = t'.host := by
      rw [Machine.foldl_unlink_eq, Machine.host_foldl_updateKind]
    rw [hs'] at htext hhost
    have hrecord : ∀ x, s'.record? x = t'.record? x := fun x => (htext x).1
    have hrequested : ∀ x, s'.requested x = t'.requested x := fun x =>
      congrArg (·.getD []) (htext x).2
    have hp' : t'.Parsed := fun x record hx => by
      rw [← hrequested]
      exact hp x record ((hrecord x).trans hx)
    obtain ⟨path, k, t, ht, hwalk, hfailure⟩ :=
      LinkFailure.below_visitLinking hc host.depth [] m _ s e' _ t' hm hvisit hp'
    refine ⟨path, k, t, t', tr.stack, ?_, hfailure.congr (hrequested k) (hrecord k), ht, hs'.symm⟩
    rw [hhost]
    exact hwalk.mono (fun x r hr => (hrequested x).symm ▸ hr) fun _ => id

/-! ## A name that is not exported -/

namespace Astray

/-- Module `0` requests module `1`, which imports a name from module `2` that it does not export. -/
def programs : List Syntax.Program :=
  [[.importFrom "b" []], [.importFrom "c" [.named "x" "y"]], []]

def record (program : Syntax.Program) : SourceRecord :=
  { text := "", requested := program.requested, imports := program.imports, localExports := []
    indirectExports := [], starExports := [], varNames := [], lexical := [], hasAwait := false }

def plan : Plan where
  target _ request := [("b", ⟨1⟩), ("c", ⟨2⟩)].lookup request
  body _ := .completes

def modules : Machine Journal ModuleId :=
  { Machine.initial [] with
    modules := (programs.map fun program => .new
      (.source (record program) none (.new program.requested false)) none).toArray }

def failed : Machine Journal ModuleId := (((plan.host 4).link ⟨0⟩ modules).get (by rfl)).2

theorem link_modules :
    (plan.host 4).link ⟨0⟩ modules =
      some (.error ⟨.unresolvable "c" "x", ["b", "c"]⟩, failed) := rfl

theorem failed_parsed : failed.Parsed := by
  intro m r hr
  match m with
  | ⟨0⟩ => cases hr; exact ⟨rfl, "", [.importFrom "b" []], rfl⟩
  | ⟨1⟩ => cases hr; exact ⟨rfl, "", [.importFrom "c" [.named "x" "y"]], rfl⟩
  | ⟨2⟩ => cases hr; exact ⟨rfl, "", [], rfl⟩
  | ⟨n + 3⟩ =>
    have hdefault : failed.module ⟨n + 3⟩ = default :=
      Machine.module_of_not_has (show ¬n + 3 < 3 by omega)
    rw [Machine.record?, hdefault] at hr
    rw [Machine.requested, Machine.cyclic?, hdefault]
    cases hr
    exact ⟨rfl, "", [], rfl⟩

end Astray

open Astray in
/-- The error of a link that does not find a name two modules down. -/
theorem failed_link_tells_import_chain_astray :
    (plan.host 4).link ⟨0⟩ modules =
        some (.error ⟨.unresolvable "c" "x", ["b", "c"]⟩, failed) ∧
      ∃ path k t t' stack, failed.Walk failed.host ⟨0⟩ path k ∧
        LinkFailure (plan.host 4) failed k path t t' ⟨.unresolvable "c" "x", ["b", "c"]⟩ ∧
        ReflTransGen (Machine.LinkMove (plan.host 4)) modules t ∧
        failed = List.foldl Machine.unlink t' stack :=
  ⟨link_modules, failed_link_tells_import_chain (plan.linkConduct 4) (show 0 < 3 by decide)
    link_modules failed_parsed⟩

end ModuleGraph
