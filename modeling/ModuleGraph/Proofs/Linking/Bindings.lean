import ModuleGraph.Proofs.Linking.Chains
import ModuleGraph.Proofs.Live.Environments
import ModuleGraph.Proofs.Syntax.Hoisting

/-! # The shape of a new environment

The environment of a module has one binding for each imported name, each `var` name and each name
of a lexical declaration, in this order. Names come from four places, and one that is bound already
would be skipped or, among the imports, bound anew. But the parser refuses programs that declare a
name twice or import it twice, and no record is made of those that declare what they import. So each
binding is the first one of its name, and none is lost. -/

namespace ModuleGraph

open Syntax

variable {σ κ : Type} {host : Host σ κ}

/-! ## What a program declares -/

namespace Syntax

/-- A program without the errors of scope that a parser reports: no name is imported twice or
declared twice by lexical declarations, and none of those is a `var` name. -/
structure Program.Distinct (program : Program) : Prop where
  imported : program.importedNames.Nodup
  lexical : (program.lexical.map (·.1)).Nodup
  apart : ∀ n ∈ program.varNames, n ∉ program.lexical.map (·.1)

/-- The lexical names that a declaration binds, and whether they can be assigned to. -/
inductive Declaration.Introduces : Declaration → String → Bool → Prop
  | let {ds : List Declarator} {n : String} : n ∈ declaratorNames ds →
      Introduces (.variables .let ds) n true
  | const {ds : List Declarator} {n : String} : n ∈ declaratorNames ds →
      Introduces (.variables .const ds) n false
  | using {ds : List Declarator} {n : String} : n ∈ declaratorNames ds →
      Introduces (.variables .using ds) n false
  | awaitUsing {ds : List Declarator} {n : String} : n ∈ declaratorNames ds →
      Introduces (.variables .awaitUsing ds) n false
  | function (n : String) (definition : Function) :
      Introduces (.function (some n) definition) n true
  | class (n : String) (definition : Class) : Introduces (.class (some n) definition) n true

/-- The lexical names that an item of a module binds. A default export without a name binds
`*default*`, which only a function or a class can be assigned to. -/
inductive Item.Introduces : Item → String → Bool → Prop
  | statement {d : Declaration} {n : String} {mutable : Bool} : d.Introduces n mutable →
      Introduces (.statement (.declaration d)) n mutable
  | exported {d : Declaration} {n : String} {mutable : Bool} : d.Introduces n mutable →
      Introduces (.exportDeclaration d) n mutable
  | defaultFunction (name : Option String) (definition : Function) :
      Introduces (.exportDefault (.declaration (.function name definition)))
        (name.getD starDefault) true
  | defaultClass (name : Option String) (definition : Class) :
      Introduces (.exportDefault (.declaration (.class name definition)))
        (name.getD starDefault) true
  | defaultExpr (value : Expr) : Introduces (.exportDefault (.expr value)) starDefault false

variable {program : Program} {item : Item} {n : String} {mutable : Bool}

theorem Declaration.Introduces.mem_lexical {d : Declaration} (h : d.Introduces n mutable) :
    ∃ kind, (n, kind) ∈ d.lexical ∧ isMutable kind = mutable := by
  have hmem : ∀ {ds : List Declarator} {kind : LexicalKind}, n ∈ declaratorNames ds →
      (n, kind) ∈ (declaratorNames ds).map (·, kind) := fun hn => List.mem_map_of_mem hn
  cases h with
  | «let» hn => exact ⟨.let, hmem hn, rfl⟩
  | const hn | «using» hn | awaitUsing hn => exact ⟨.const, hmem hn, rfl⟩
  | function definition => exact ⟨.function, List.mem_singleton_self _, rfl⟩
  | «class» definition => exact ⟨.class, List.mem_singleton_self _, rfl⟩

theorem Item.Introduces.mem_lexical (h : item.Introduces n mutable) (hi : item ∈ program) :
    ∃ kind, (n, kind) ∈ program.lexical ∧ isMutable kind = mutable := by
  have hitem : ∃ kind, (n, kind) ∈ item.lexical ∧ isMutable kind = mutable := by
    cases h with
    | statement h | exported h => exact h.mem_lexical
    | defaultFunction => exact ⟨.function, List.mem_singleton_self _, rfl⟩
    | defaultClass => exact ⟨.class, List.mem_singleton_self _, rfl⟩
    | defaultExpr => exact ⟨.default, List.mem_singleton_self _, rfl⟩
  obtain ⟨kind, hmem, hkind⟩ := hitem
  exact ⟨kind, List.mem_flatMap.2 ⟨item, hi, hmem⟩, hkind⟩

end Syntax

/-! ## What an import means -/

/-- The binding of an import, by what the host answers from `s` to `s'`: an imported namespace, and
an imported name that means one, is a constant; any other name leads to the binding of a module. -/
inductive Host.Provides (host : Host σ κ) (m : ModuleId) (i : ImportEntry) (s s' : Machine σ κ) :
    Binding → Prop
  | star {n : ModuleId} {u : Machine σ κ} : i.importName = none →
      host.resolve (.module m) i.request s = some (.ok n, u) →
      host.namespaceOf n u = some (.ok (.namespace n), s') →
      Provides host m i s s' (.local (some (.namespace n)) false)
  | namespace {name : String} {n t : ModuleId} {u w : Machine σ κ} : i.importName = some name →
      host.resolve (.module m) i.request s = some (.ok n, u) →
      host.resolution n name u = some (.ok (some (.found t .namespace)), w) →
      host.namespaceOf t w = some (.ok (.namespace t), s') →
      Provides host m i s s' (.local (some (.namespace t)) false)
  | name {name binding : String} {n t : ModuleId} {u : Machine σ κ} : i.importName = some name →
      host.resolve (.module m) i.request s = some (.ok n, u) →
      host.resolution n name u = some (.ok (some (.found t (.name binding))), s') →
      Provides host m i s s' (.import t binding)

inductive Host.ProvidesAll (host : Host σ κ) (m : ModuleId) :
    List ImportEntry → List Binding → Machine σ κ → Machine σ κ → Prop
  | nil (s : Machine σ κ) : ProvidesAll host m [] [] s s
  | cons {i : ImportEntry} {rest : List ImportEntry} {b : Binding} {bs : List Binding}
      {s s₁ s' : Machine σ κ} : host.Provides m i s s₁ b → ProvidesAll host m rest bs s₁ s' →
      ProvidesAll host m (i :: rest) (b :: bs) s s'

section Imports

variable {s s' : Machine σ κ} {m : ModuleId} {path : List String} {i : ImportEntry} {b : Binding}

theorem provides_of_importBinding (hrun : importBinding host path m i s = some (.ok b, s')) :
    host.Provides m i s s' b := by
  rw [importBinding] at hrun
  cases hname : i.importName with
  | none =>
    rw [hname] at hrun
    obtain ⟨n, u, hask, hbind⟩ | ⟨_, -, he⟩ := throwing_bind.1 hrun
    · obtain ⟨n', hn', hn⟩ | ⟨v, hv, -⟩ := resolveRequest_cases hask
      · cases hn'
        obtain ⟨hb, hmade⟩ | ⟨v, hv, -⟩ := namespaceBinding_cases hbind
        · cases hb
          exact .star hname hn hmade
        · cases hv
      · cases hv
    · cases he
  | some name =>
    rw [hname] at hrun
    obtain ⟨⟨t, c⟩, w, hask, hbind⟩ | ⟨_, -, he⟩ := throwing_bind.1 hrun
    · obtain ⟨v, hv, -⟩ | ⟨n, u, hn, ⟨t', c', hfound', hfound⟩ | ⟨hb, -⟩ | ⟨hb, -⟩⟩ :=
        resolveImport_cases hask
      · cases hv
      · cases hfound'
        cases c with
        | name binding =>
          cases hbind
          exact .name hname hn hfound
        | «namespace» =>
          obtain ⟨hb, hmade⟩ | ⟨v, hv, -⟩ := namespaceBinding_cases hbind
          · cases hb
            exact .namespace hname hn hfound hmade
          · cases hv
      · cases hb
      · cases hb
    · cases he

end Imports

/-! ## Bindings that are added -/

namespace Environment

variable {α : Type} {env : Environment} {n : String} {b : Binding}

def names (env : Environment) : List String := env.bindings.keys

theorem has_iff_mem_names : env.has n ↔ n ∈ env.names := Table.has_iff_mem_keys _ _

def add (env : Environment) (bs : List (String × Binding)) : Environment := ⟨env.bindings ++ bs⟩

theorem names_add (env : Environment) (bs : List (String × Binding)) :
    (env.add bs).names = env.names ++ bs.map (·.1) := List.map_append

theorem put_eq_add (h : n ∉ env.names) (b : Binding) : env.put n b = env.add [(n, b)] :=
  congrArg Environment.mk (Table.put_of_not_has _ _ fun hn => h (has_iff_mem_names.1 hn))

theorem add_add (env : Environment) (bs bs' : List (String × Binding)) :
    (env.add bs).add bs' = env.add (bs ++ bs') :=
  congrArg Environment.mk (List.append_assoc _ _ _)

/-- Of names that are all different, none of the later ones is among those before. -/
theorem not_mem_of_nodup_append {xs ys : List String} {x : String}
    (h : (xs ++ x :: ys).Nodup) : x ∉ xs := fun hx =>
  (List.nodup_append.1 h).2.2 x hx x List.mem_cons_self rfl

theorem nodup_names_add {ys : List String} (h : (env.names ++ n :: ys).Nodup) (b : Binding) :
    ((env.add [(n, b)]).names ++ ys).Nodup := by
  rwa [names_add, List.append_assoc]

/-- Declarations of new names add their bindings in order. -/
theorem declareAll_eq_add {f : α → String} {g : α → Binding} {xs : List α}
    (hd : (env.names ++ xs.map f).Nodup) :
    declareAll f g xs env = env.add (xs.map fun x => (f x, g x)) := by
  induction xs generalizing env with
  | nil => exact congrArg Environment.mk (List.append_nil _).symm
  | cons x rest ih =>
    have hx : f x ∉ env.names := not_mem_of_nodup_append hd
    have hdeclare : env.declare (f x) (g x) = env.add [(f x, g x)] := by
      rw [declare, if_neg fun hn => hx (has_iff_mem_names.1 hn), put_eq_add hx]
    calc declareAll f g (x :: rest) env
        = declareAll f g rest (env.add [(f x, g x)]) := by rw [← hdeclare]; rfl
      _ = (env.add [(f x, g x)]).add (rest.map fun x => (f x, g x)) := ih (nodup_names_add hd _)
      _ = env.add ((x :: rest).map fun x => (f x, g x)) := add_add _ _ _

theorem declareVars_eq_add {names : List String} (hd : (env.names ++ names).Nodup) :
    env.declareVars names = env.add (names.map fun n => (n, .local (some .undefined) true)) :=
  declareAll_eq_add (f := id) (by rwa [List.map_id])

theorem declareLexical_eq_add {ds : List (String × LexicalKind)}
    (hd : (env.names ++ ds.map (·.1)).Nodup) :
    env.declareLexical ds = env.add (ds.map fun d => (d.1, .local none (isMutable d.2))) :=
  declareAll_eq_add hd

theorem names_declareVars {names : List String} (hd : (env.names ++ names).Nodup) :
    (env.declareVars names).names = env.names ++ names := by
  rw [declareVars_eq_add hd, names_add, List.map_map]
  exact congrArg _ (List.map_id names)

theorem names_declareLexical {ds : List (String × LexicalKind)}
    (hd : (env.names ++ ds.map (·.1)).Nodup) :
    (env.declareLexical ds).names = env.names ++ ds.map (·.1) := by
  rw [declareLexical_eq_add hd, names_add, List.map_map]
  rfl

end Environment

def ImportEntry.bound (imports : List ImportEntry) (bs : List Binding) : List (String × Binding) :=
  (imports.zip bs).map fun p => (p.1.localName, p.2)

section Imports

variable {s s' : Machine σ κ} {m : ModuleId} {path : List String}

theorem Host.ProvidesAll.length_eq {imports : List ImportEntry} {bs : List Binding}
    (h : host.ProvidesAll m imports bs s s') : imports.length = bs.length := by
  induction h with
  | nil => rfl
  | cons _ _ ih => rw [List.length_cons, ih, List.length_cons]

theorem names_bound {imports : List ImportEntry} {bs : List Binding}
    (h : imports.length = bs.length) :
    (ImportEntry.bound imports bs).map (·.1) = imports.map (·.localName) := by
  rw [ImportEntry.bound, List.map_map]
  exact (List.map_map (f := Prod.fst) (g := ImportEntry.localName)).symm.trans
    (congrArg _ (List.map_fst_zip h.le))

/-- Imports of new names add their bindings in order. -/
theorem bindImports_eq_add {imports : List ImportEntry} {env env' : Environment}
    (hd : (env.names ++ imports.map (·.localName)).Nodup)
    (hrun : bindImports host path m imports env s = some (.ok env', s')) :
    ∃ bs, host.ProvidesAll m imports bs s s' ∧ env' = env.add (ImportEntry.bound imports bs) := by
  induction imports generalizing env s with
  | nil =>
    cases hrun
    exact ⟨[], .nil _, congrArg Environment.mk (List.append_nil _).symm⟩
  | cons i rest ih =>
    obtain ⟨b, s₁, hbind, hlater⟩ | ⟨_, -, he⟩ := throwing_bind.1 hrun
    · rw [Environment.put_eq_add (Environment.not_mem_of_nodup_append hd)] at hlater
      obtain ⟨bs, hprovides, rfl⟩ := ih (Environment.nodup_names_add hd b) hlater
      refine ⟨b :: bs, .cons (provides_of_importBinding hbind) hprovides, ?_⟩
      rw [Environment.add_add]
      rfl
    · cases he

theorem bindImports_provides {imports : List ImportEntry} {env : Environment}
    (hd : (imports.map (·.localName)).Nodup)
    (hrun : bindImports host path m imports .empty s = some (.ok env, s')) :
    ∃ bs, host.ProvidesAll m imports bs s s' ∧
      env = Environment.empty.add (ImportEntry.bound imports bs) := bindImports_eq_add hd hrun

theorem names_of_bindImports {imports : List ImportEntry} {env : Environment}
    (hd : (imports.map (·.localName)).Nodup)
    (hrun : bindImports host path m imports .empty s = some (.ok env, s')) :
    env.names = imports.map (·.localName) := by
  obtain ⟨bs, hprovides, rfl⟩ := bindImports_provides hd hrun
  rw [Environment.names_add, names_bound hprovides.length_eq]
  rfl

/-! ## Lookups do not fail by a hook -/

/-- What fails is a request, not a hook of the host. -/
def Linking.BlamesRequest {α : Type} (x : Linking σ κ α) : Prop :=
  ∀ s e s', x s = some (.error e, s') → ∀ v, e.fault ≠ .host v

namespace Linking.BlamesRequest

variable {α β : Type}

protected theorem pure (a : α) : BlamesRequest (pure a : Linking σ κ α) := by
  intro s e s' h
  cases h

protected theorem bind {x : Linking σ κ α} {f : α → Linking σ κ β} (hx : BlamesRequest x)
    (hf : ∀ a, BlamesRequest (f a)) : BlamesRequest (x >>= f) := by
  intro s e s' h
  obtain ⟨a, s₁, -, h₂⟩ | ⟨e', h₁, he⟩ := throwing_bind.1 h
  · exact hf a _ _ _ h₂
  · cases he
    exact hx _ _ _ h₁

theorem resolveRequest (host : Host σ κ) (path : List String) (m : ModuleId) (r : String) :
    BlamesRequest (resolveRequest host path m r) := by
  intro s e s' h v hv
  obtain ⟨n, hn, -⟩ | ⟨w, hw, -⟩ := resolveRequest_cases h
  · cases hn
  · cases hw
    cases hv

theorem resolveImport (host : Host σ κ) (path : List String) (m : ModuleId) (r name : String) :
    BlamesRequest (resolveImport host path m r name) := by
  intro s e s' h v hv
  obtain ⟨w, hw, -⟩ | ⟨n, u, -, ⟨q, b, hb, -⟩ | ⟨hb, -⟩ | ⟨hb, -⟩⟩ := resolveImport_cases h
  · cases hw
    cases hv
  all_goals
    cases hb
    try cases hv

theorem namespaceBinding (host : Host σ κ) (path : List String) (r : String) (n : ModuleId) :
    BlamesRequest (namespaceBinding host path r n) := by
  intro s e s' h v hv
  obtain ⟨hb, -⟩ | ⟨w, hw, -⟩ := namespaceBinding_cases h
  · cases hb
  · cases hw
    cases hv

theorem checkIndirects (host : Host σ κ) (path : List String) (m : ModuleId)
    (entries : List IndirectExport) :
    BlamesRequest (entries.forM (checkIndirect host path m)) := by
  induction entries with
  | nil => exact BlamesRequest.pure _
  | cons entry rest ih =>
    refine BlamesRequest.bind ?_ fun _ => ih
    rw [checkIndirect]
    split
    · exact BlamesRequest.bind (resolveImport host path m _ _) fun _ => BlamesRequest.pure _
    · exact BlamesRequest.bind (resolveRequest host path m _) fun _ => BlamesRequest.pure _

theorem bindImports (host : Host σ κ) (path : List String) (m : ModuleId)
    (imports : List ImportEntry) :
    ∀ env, BlamesRequest (bindImports host path m imports env) := by
  induction imports with
  | nil => exact fun _ => BlamesRequest.pure _
  | cons i rest ih =>
    intro env
    refine BlamesRequest.bind ?_ fun _ => ih _
    rw [importBinding]
    split
    · exact BlamesRequest.bind (resolveRequest host path m _) fun _ =>
        namespaceBinding host path _ _
    · refine BlamesRequest.bind (resolveImport host path m _ _) ?_
      rintro ⟨t, _ | _⟩
      · exact BlamesRequest.pure _
      · exact namespaceBinding host path _ _

end Linking.BlamesRequest

end Imports

/-! ## The environment that an initialization builds -/

/-- The environment of a program has one binding for each name that the program imports or
declares, and no other. Those of the imports are `bs`; `var` names are `undefined` variables; the
names of lexical declarations are not initialized. -/
structure Environment.Shaped (program : Program) (bs : List Binding) (env : Environment) :
    Prop where
  names : env.names = program.importedNames ++ program.varNames ++ program.lexical.map (·.1)
  distinct : env.names.Nodup
  imports : List.Forall₂ (fun i b => env.get? i.localName = some b) program.imports bs
  vars : ∀ n ∈ program.varNames, env.get? n = some (.local (some .undefined) true)
  lexical : ∀ item ∈ program, ∀ n mutable, item.Introduces n mutable →
    env.get? n = some (.local none mutable)

/-- Whenever a name gets its binding, it has none: the imports when they are bound from `s` on, and
then the declarations, which are added to the imports that are `imported`. -/
structure SourceRecord.AddsOnly (record : SourceRecord) (host : Host σ κ) (path : List String)
    (m : ModuleId) (s : Machine σ κ) (imported : Environment) : Prop where
  imports : ∀ before i after env u, record.imports = before ++ i :: after →
    bindImports host path m before .empty s = some (.ok env, u) → ¬env.has i.localName
  vars : ∀ before n after, record.varNames = before ++ n :: after →
    ¬(imported.declareVars before).has n
  lexical : ∀ before d after, record.lexical = before ++ d :: after →
    ¬((imported.declareVars record.varNames).declareLexical before).has d.1

section Shape

variable {program : Program} {record : SourceRecord} {text : String} {imported : Environment}
variable {bs : List Binding} {s s' u : Machine σ κ} {m : ModuleId} {path : List String}

def SourceRecord.boundNames (record : SourceRecord) : List String :=
  record.imports.map (·.localName) ++ record.varNames ++ record.lexical.map (·.1)

/-- What the record of a text binds is what its program imports and declares. -/
theorem SourceRecord.binds_ofText (hrecord : SourceRecord.ofText text (some program) = .ok record) :
    record.imports = program.imports ∧ record.varNames = program.varNames ∧
      record.lexical = program.lexical := by
  rw [ofText, ofProgram] at hrecord
  split at hrecord
  · cases hrecord
    exact ⟨rfl, rfl, rfl⟩
  · cases hrecord

theorem Syntax.Program.Distinct.boundNames (h : program.Distinct)
    (hrecord : SourceRecord.ofText text (some program) = .ok record) :
    record.boundNames.Nodup := by
  have hapart := SourceRecord.disjoint_ofProgram hrecord
  obtain ⟨himports, hvars, hlexical⟩ := SourceRecord.binds_ofText hrecord
  rw [SourceRecord.declared, himports, hvars, hlexical] at hapart
  rw [SourceRecord.boundNames, himports, hvars, hlexical, List.append_assoc, List.nodup_append]
  refine ⟨h.imported, List.nodup_append.2 ⟨(enumerates_eraseDups _).once, h.lexical, ?_⟩, ?_⟩
  · rintro n hn _ hk rfl
    exact h.apart n hn hk
  · rintro n hn _ hk rfl
    exact hapart n hk hn

/-- Nothing is bound twice while the imports and the declarations get their bindings. -/
theorem SourceRecord.addsOnly (hd : record.boundNames.Nodup)
    (hrun : bindImports host path m record.imports .empty s = some (.ok imported, u)) :
    record.AddsOnly host path m s imported := by
  rw [boundNames, List.append_assoc] at hd
  have hnames := names_of_bindImports (List.nodup_append.1 hd).1 hrun
  rw [← hnames] at hd
  constructor
  case imports =>
    intro before i after env u himports hbefore
    rw [hnames, himports, List.map_append, List.map_cons, List.append_assoc,
      List.cons_append] at hd
    rw [Environment.has_iff_mem_names, names_of_bindImports (List.nodup_append.1 hd).1 hbefore]
    exact Environment.not_mem_of_nodup_append hd
  case vars =>
    intro before n after hvars
    rw [hvars, List.append_assoc, ← List.append_assoc, List.cons_append] at hd
    rw [Environment.has_iff_mem_names,
      Environment.names_declareVars (List.nodup_append.1 hd).1]
    exact Environment.not_mem_of_nodup_append hd
  case lexical =>
    intro before d after hlexical
    rw [← List.append_assoc] at hd
    have hvars := Environment.names_declareVars (List.nodup_append.1 hd).1
    rw [hlexical, List.map_append, List.map_cons, ← List.append_assoc, ← hvars] at hd
    rw [Environment.has_iff_mem_names,
      Environment.names_declareLexical (List.nodup_append.1 hd).1]
    exact Environment.not_mem_of_nodup_append hd

theorem SourceRecord.complete_eq_add (hd : record.boundNames.Nodup)
    (hprovides : host.ProvidesAll m record.imports bs s u) :
    record.complete (Environment.empty.add (ImportEntry.bound record.imports bs)) =
      Environment.empty.add (ImportEntry.bound record.imports bs ++
        record.varNames.map (fun n => (n, .local (some .undefined) true)) ++
        record.lexical.map fun d => (d.1, .local none (isMutable d.2))) := by
  have hnames : (Environment.empty.add (ImportEntry.bound record.imports bs)).names =
      record.imports.map (·.localName) := by
    rw [Environment.names_add, names_bound hprovides.length_eq]
    rfl
  rw [boundNames, ← hnames] at hd
  have hvars := (List.nodup_append.1 hd).1
  rw [complete, Environment.declareLexical_eq_add (by rwa [Environment.names_declareVars hvars]),
    Environment.declareVars_eq_add hvars, Environment.add_add, Environment.add_add,
    List.append_assoc]

/-- The imports and the declarations of a text together give its environment the right shape. -/
theorem SourceRecord.shaped (hrecord : SourceRecord.ofText text (some program) = .ok record)
    (hd : program.Distinct) (hprovides : host.ProvidesAll m record.imports bs s u) :
    (record.complete (Environment.empty.add (ImportEntry.bound record.imports bs))).Shaped
      program bs := by
  have hnames := hd.boundNames hrecord
  rw [complete_eq_add hnames hprovides]
  obtain ⟨himports, hvars, hlexical⟩ := binds_ofText hrecord
  rw [boundNames] at hnames
  rw [himports] at hprovides
  rw [himports, hvars, hlexical] at hnames ⊢
  generalize hbs : ImportEntry.bound program.imports bs ++
    program.varNames.map (fun n => (n, Binding.local (some .undefined) true)) ++
    program.lexical.map (fun d => (d.1, Binding.local none (isMutable d.2))) = bindings
  have hkeys : (Environment.empty.add bindings).names =
      program.importedNames ++ program.varNames ++ program.lexical.map (·.1) := by
    rw [Environment.names_add, ← hbs, List.map_append, List.map_append,
      names_bound hprovides.length_eq, List.map_map, List.map_map]
    exact congrArg (fun vars => program.importedNames ++ vars ++ _) (List.map_id program.varNames)
  have hdistinct : (Environment.empty.add bindings).names.Nodup := by rwa [hkeys]
  have hget : ∀ {n b}, (n, b) ∈ bindings → (Environment.empty.add bindings).get? n = some b :=
    fun h => Table.get?_of_mem hdistinct h
  refine ⟨hkeys, hdistinct, List.forall₂_iff_zip.2 ⟨hprovides.length_eq, fun h => hget ?_⟩,
    fun n hn => hget ?_, fun item hitem n mutable hintroduces => hget ?_⟩
  · rw [← hbs, List.append_assoc]
    exact List.mem_append_left _ (List.mem_map_of_mem (f := fun p => (p.1.localName, p.2)) h)
  · rw [← hbs]
    exact List.mem_append_left _ (List.mem_append_right _ (List.mem_map_of_mem hn))
  · obtain ⟨kind, hmem, rfl⟩ := hintroduces.mem_lexical hitem
    rw [← hbs]
    exact List.mem_append_right _ (List.mem_map_of_mem
      (f := fun d => (d.1, Binding.local none (isMutable d.2))) hmem)

end Shape

/-- The environment that an initialization builds. An initialization fails for a request before it
has an environment, or else the host is asked to prepare the module with an environment that has
one binding for each name that the text imports or declares, and none was replaced. Each import has
the binding that the host provides for it. -/
theorem initialization_shapes_environment {text : String} {program : Program}
    {record : SourceRecord} (hrecord : SourceRecord.ofText text (some program) = .ok record)
    (hd : program.Distinct) {path : List String} {m : ModuleId} {s s' : Machine σ κ}
    {r : Except LinkError Unit} (hm : s.record? m = some record)
    (hrun : initializeModule host path m s = some (r, s')) :
    (∃ e, r = .error e ∧ ∀ v, e.fault ≠ .host v) ∨
      ∃ s₁ imported bs u x,
        record.indirectExports.forM (checkIndirect host path m) s = some (.ok ⟨⟩, s₁) ∧
        bindImports host path m record.imports .empty s₁ = some (.ok imported, u) ∧
        host.ProvidesAll m program.imports bs s₁ u ∧
        (record.complete imported).Shaped program bs ∧
        record.AddsOnly host path m s₁ imported ∧
        host.prepare m (u.setEnvironment m (record.complete imported)) = some (x, s') ∧
        r = x.mapError fun e => ⟨.host e, path⟩ := by
  rw [initializeModule_of_record hm] at hrun
  obtain ⟨e, hcheck, rfl⟩ | ⟨s₁, hcheck, ⟨e, hbind, rfl⟩ | ⟨imported, u, x, hbind, hhook, rfl⟩⟩ :=
    initializeSource_cases hrun
  · exact .inl ⟨e, rfl, Linking.BlamesRequest.checkIndirects host path m _ _ _ _ hcheck⟩
  · exact .inl ⟨e, rfl, Linking.BlamesRequest.bindImports host path m _ _ _ _ _ hbind⟩
  · have hnames := hd.boundNames hrecord
    have hadds := SourceRecord.addsOnly hnames hbind
    obtain ⟨bs, hprovides, himported⟩ := bindImports_provides
      (List.nodup_append.1 (List.nodup_append.1 hnames).1).1 hbind
    have hshaped := SourceRecord.shaped hrecord hd hprovides
    rw [← himported] at hshaped
    rw [(SourceRecord.binds_ofText hrecord).1] at hprovides
    exact .inr ⟨s₁, imported, bs, u, x, hcheck, hbind, hprovides, hshaped, hadds, hhook, rfl⟩

/-! ## A module that imports and declares -/

namespace Mixed

/-- A namespace and a name are imported from one module; a constant, a variable and a default
export are declared. -/
def program : Program :=
  [.importFrom "b" [.star "all", .named "x" "y"],
    .statement (.declaration (.variables .const [.mk (.name "c") none])),
    .statement (.declaration (.variables .var [.mk (.name "v") none])),
    .exportDefault (.expr .atom)]

def exporter : Program :=
  [.exportDeclaration (.variables .let [.mk (.name "x") none])]

def record (program : Program) : SourceRecord :=
  match SourceRecord.ofText "" (some program) with
  | .ok record => record
  | .error _ => default

def modules : Machine Journal ModuleId :=
  { Machine.initial [] with
    modules := ([program, exporter].map fun program =>
      .new (.source (record program) none (.new ["b"] false)) none).toArray }

def plan : Plan where
  target _ request := if request = "b" then some ⟨1⟩ else none
  body _ := .completes

theorem distinct : program.Distinct := ⟨by decide, by decide, by decide⟩

end Mixed

open Mixed in
/-- The environment of a module with imports and declarations of several kinds. -/
theorem initialization_shapes_environment_mixed :
    ∃ s₁ imported bs u s',
      initializeModule (plan.host 4) [] ⟨0⟩ modules = some (.ok (), s') ∧
        (plan.host 4).ProvidesAll ⟨0⟩ program.imports bs s₁ u ∧
        ((record program).complete imported).Shaped program bs ∧
        (record program).AddsOnly (plan.host 4) [] ⟨0⟩ s₁ imported ∧
        (plan.host 4).prepare ⟨0⟩ (u.setEnvironment ⟨0⟩ ((record program).complete imported)) =
          some (.ok (), s') := by
  have hrecord : SourceRecord.ofText "" (some program) = .ok (record program) := rfl
  obtain ⟨s', hrun⟩ :
      ∃ s', initializeModule (plan.host 4) [] ⟨0⟩ modules = some (.ok (), s') := ⟨_, rfl⟩
  obtain ⟨e, he, -⟩ | ⟨s₁, imported, bs, u, x, -, -, hprovides, hshaped, hadds, hprepare, hx⟩ :=
    initialization_shapes_environment hrecord distinct (m := ⟨0⟩) rfl hrun
  · cases he
  · cases x with
    | error e => cases hx
    | ok => exact ⟨s₁, imported, bs, u, s', hrun, hprovides, hshaped, hadds, hprepare⟩

end ModuleGraph
