import ModuleGraph.Linking.Environment
import ModuleGraph.Proofs.Files.Loading
import ModuleGraph.Proofs.Lookups

/-! # Lookups among files

Whatever is looked up while modules are linked follows requests of modules, since a record requests
all that it takes from elsewhere. So each file that a lookup loads is one that a module requests,
and the modules that exist stay as they are. Lookups that throw end the link, so nothing is said of
them. -/

namespace ModuleGraph.FileSystem

variable {α β ε : Type} {depth : Nat} {base s s' : Desk} {m n : ModuleId} {request : String}
variable {record : SourceRecord}

def Follows (base : Desk) (x : ExceptT ε (Run Workspace ModuleId) α) : Prop :=
  ∀ s a s', Desk.Stock s → Desk.Peeks base s → x s = some (.ok a, s') →
    Desk.Stock s' ∧ Desk.Peeks s s'

namespace Follows

variable {x : ExceptT ε (Run Workspace ModuleId) α}
variable {f : α → ExceptT ε (Run Workspace ModuleId) β}

protected theorem pure (a : α) :
    Follows base (pure a : ExceptT ε (Run Workspace ModuleId) α) := by
  intro s b s' hstock _ hrun
  cases hrun
  exact ⟨hstock, .refl s⟩

protected theorem throw (e : ε) :
    Follows base (throw e : ExceptT ε (Run Workspace ModuleId) α) := by
  intro s b s' _ _ hrun
  cases hrun

theorem exhausted : Follows base (Act.ofRun Run.exhausted : Loading α) := by
  intro s b s' _ _ hrun
  obtain ⟨a, -, hrun⟩ := Act.ofRun_eq_some.1 hrun
  cases hrun

protected theorem bind (hx : Follows base x) (hf : ∀ a, Follows base (f a)) :
    Follows base (x >>= f) := by
  intro s b s' hstock hpeeks hrun
  obtain ⟨a, s₁, h₁, h₂⟩ | ⟨e, -, he⟩ := throwing_bind.1 hrun
  · obtain ⟨hstock₁, hpeeks₁⟩ := hx _ _ _ hstock hpeeks h₁
    obtain ⟨hstock', hpeeks'⟩ := hf a _ _ _ hstock₁ (hpeeks.trans hpeeks₁) h₂
    exact ⟨hstock', hpeeks₁.trans hpeeks'⟩
  · cases he

theorem view_bind {look : Desk → α} {f : α → Loading β}
    (hf : ∀ s, Desk.Stock s → Desk.Peeks base s → Follows s (f (look s))) :
    Follows base (Act.view look >>= f) := by
  intro s b s' hstock hpeeks hrun
  rw [Act.view_bind] at hrun
  exact hf s hstock hpeeks _ _ _ hstock (.refl s) hrun

protected theorem forM {f : β → ExceptT ε (Run Workspace ModuleId) PUnit} {xs : List β}
    (hf : ∀ x ∈ xs, Follows base (f x)) : Follows base (xs.forM f) := by
  induction xs with
  | nil => exact Follows.pure _
  | cons x rest ih =>
    rw [List.forall_mem_cons] at hf
    exact Follows.bind hf.1 fun _ => ih hf.2

theorem ofAct {wrap : Value → LinkError} {a : Loading α} (ha : Follows base a) :
    Follows base (Linking.ofAct wrap a) := by
  intro s b s' hstock hpeeks hrun
  obtain ⟨r, hr, hb⟩ := Linking.ofAct_eq_some.1 hrun
  cases r with
  | error e => cases hb
  | ok v => exact ha _ _ _ hstock hpeeks hr

theorem resolve (hbase : Desk.Stock base) (hr : request ∈ base.requested m) :
    Follows base ((dryHost depth).resolve (.module m) request) := by
  intro s n s' hstock hpeeks hrun
  have hm := Machine.has_of_requested hr
  rw [← hbase.requested_congr hstock (hpeeks.record m hm)] at hr
  obtain ⟨hstock', hpeeks', -⟩ := hstock.loadSpecifier hr hrun
  exact ⟨hstock', hpeeks'⟩

/-! ## Exported names -/

theorem joinStars {visit : String → Visited → Loading (Option Resolution × Visited)}
    {requests : List String} (hvisit : ∀ request ∈ requests, ∀ visited,
      Follows base (visit request visited)) :
    ∀ found visited, Follows base (ModuleGraph.joinStars visit requests found visited) := by
  induction requests with
  | nil => exact fun _ _ => Follows.pure _
  | cons request rest ih =>
    intro found visited
    rw [List.forall_mem_cons] at hvisit
    rw [ModuleGraph.joinStars]
    refine Follows.bind (hvisit.1 visited) ?_
    rintro ⟨_ | ⟨m, b⟩ | _, visited'⟩
    · exact ih hvisit.2 _ _
    · cases found with
      | none => exact ih hvisit.2 _ _
      | some other =>
        dsimp only
        split
        · exact ih hvisit.2 _ _
        · exact Follows.pure _
    · exact Follows.pure _

theorem resolved (count : Nat) : ∀ base m name visited,
    Follows base (resolveExport (dryHost depth) count m name visited) := by
  induction count with
  | zero => exact fun _ _ _ _ => Follows.exhausted
  | succ count ih =>
    intro base m name visited
    rw [resolveExport]
    refine Follows.view_bind fun s hstock _ => ?_
    cases hr : s.record? m with
    | none => exact Follows.pure _
    | some record =>
      obtain ⟨hcoheres, hrequested⟩ := hstock.requested_eq hr
      dsimp only
      split
      · exact Follows.pure _
      · split
        · exact Follows.pure _
        · split
          · rename_i e he
            have hmem := hcoheres.listed.indirect e (List.mem_of_find?_eq_some he)
            rw [← hrequested] at hmem
            refine Follows.bind (resolve hstock hmem) fun target => ?_
            split
            · exact Follows.pure _
            · exact ih _ _ _ _
          · split
            · exact Follows.pure _
            · refine joinStars (fun request hrequest visited => ?_) _ _
              have hmem := hcoheres.listed.stars request hrequest
              rw [← hrequested] at hmem
              exact Follows.bind (resolve hstock hmem) fun target => ih _ _ _ _

theorem resolution (m : ModuleId) (name : String) :
    Follows base ((dryHost depth).resolution m name) :=
  Follows.bind (resolved _ _ _ _ _) fun _ => Follows.pure _

theorem boundTo (m : ModuleId) (name : String) :
    Follows base ((dryHost depth).boundTo m name) := by
  refine Follows.bind (resolution m name) fun found => ?_
  split <;> exact Follows.pure _

theorem collectStars
    {visit : String → List ModuleId → Loading (Option (List String) × List ModuleId)}
    {requests : List String}
    (hvisit : ∀ request ∈ requests, ∀ seen, Follows base (visit request seen)) :
    ∀ names seen, Follows base (ModuleGraph.collectStars visit requests names seen) := by
  induction requests with
  | nil => exact fun _ _ => Follows.pure _
  | cons request rest ih =>
    intro names seen
    rw [List.forall_mem_cons] at hvisit
    rw [ModuleGraph.collectStars]
    exact Follows.bind (hvisit.1 seen) fun _ => ih hvisit.2 _ _

theorem exportedNames (count : Nat) : ∀ base m seen,
    Follows base (ModuleGraph.exportedNames (dryHost depth) count m seen) := by
  induction count with
  | zero => exact fun _ _ _ => Follows.exhausted
  | succ count ih =>
    intro base m seen
    rw [ModuleGraph.exportedNames]
    split
    · exact Follows.pure _
    · refine Follows.view_bind fun s hstock _ => ?_
      cases hr : s.record? m with
      | none => exact Follows.pure _
      | some record =>
        obtain ⟨hcoheres, hrequested⟩ := hstock.requested_eq hr
        refine Follows.bind (collectStars (fun request hrequest seen => ?_) _ _)
          fun _ => Follows.pure _
        have hmem := hcoheres.listed.stars request hrequest
        rw [← hrequested] at hmem
        exact Follows.bind (resolve hstock hmem) fun target => ih _ _ _

theorem keepResolvable (m : ModuleId) (names : List String) :
    Follows base (ModuleGraph.keepResolvable (dryHost depth) m names) := by
  induction names with
  | nil => exact Follows.pure _
  | cons name rest ih =>
    rw [ModuleGraph.keepResolvable]
    exact Follows.bind (boundTo m name) fun found => Follows.bind ih fun kept => Follows.pure _

theorem namespaceKeys (m : ModuleId) : Follows base ((dryHost depth).namespaceKeys m) := by
  refine Follows.view_bind fun s hstock _ => ?_
  split
  · exact Follows.pure _
  · refine Follows.bind (exportedNames _ _ _ _) fun names => ?_
    refine Follows.bind (keepResolvable _ _) fun kept => ?_
    refine Follows.bind ?_ fun _ => Follows.pure _
    intro s₁ u s' hstock₁ _ hrun
    cases hrun
    obtain ⟨hstock', hgrows⟩ := hstock₁.updateModule (m := m)
      (f := fun x => { x with exports := some (Text.sortDistinct kept) }) (fun _ => rfl)
      fun _ h => ⟨h, rfl⟩
    refine ⟨hstock', hgrows, fun n hn => ?_, fun n hn => ?_⟩
    · change ((s₁.updateModule m fun x =>
        { x with exports := some (Text.sortDistinct kept) }).module n).kind = _
      by_cases hm : s₁.Has m
      · rw [Machine.module_updateModule _ _ _ _ hm]
        split <;> rfl
      · rw [Machine.updateModule_of_not_has _ hm]
    · exact Machine.isNew_of_not_has fun h => hn ((Machine.has_updateModule _).1 h)

theorem namespaceOf (m : ModuleId) : Follows base ((dryHost depth).namespaceOf m) :=
  Follows.bind (namespaceKeys m) fun _ => Follows.pure _

/-! ## Environments -/

section Environments

variable {path : List String} (hbase : Desk.Stock base)
include hbase

theorem resolveRequest (hr : request ∈ base.requested m) :
    Follows base (ModuleGraph.resolveRequest (dryHost depth) path m request) :=
  ofAct (resolve hbase hr)

theorem resolveImport (hr : request ∈ base.requested m) (name : String) :
    Follows base (ModuleGraph.resolveImport (dryHost depth) path m request name) := by
  refine Follows.bind (ofAct ?_) fun resolution => ?_
  · exact Follows.bind (resolve hbase hr) fun target => Follows.resolution target name
  · split
    · exact Follows.pure _
    · exact Follows.throw _
    · exact Follows.throw _

theorem checkIndirect {e : IndirectExport} (hr : e.request ∈ base.requested m) :
    Follows base (ModuleGraph.checkIndirect (dryHost depth) path m e) := by
  rw [ModuleGraph.checkIndirect]
  split
  · exact Follows.bind (resolveImport hbase hr _) fun _ => Follows.pure _
  · exact Follows.bind (resolveRequest hbase hr) fun _ => Follows.pure _

omit hbase in
theorem namespaceBinding (request : String) (target : ModuleId) :
    Follows base (ModuleGraph.namespaceBinding (dryHost depth) path request target) :=
  Follows.bind (ofAct (namespaceOf target)) fun _ => Follows.pure _

theorem importBinding {i : ImportEntry} (hr : i.request ∈ base.requested m) :
    Follows base (ModuleGraph.importBinding (dryHost depth) path m i) := by
  rw [ModuleGraph.importBinding]
  split
  · exact Follows.bind (resolveRequest hbase hr) fun _ => namespaceBinding _ _
  · refine Follows.bind (resolveImport hbase hr _) ?_
    rintro ⟨target, b⟩
    dsimp only
    split
    · exact namespaceBinding _ _
    · exact Follows.pure _

theorem bindImports {imports : List ImportEntry}
    (hr : ∀ i ∈ imports, i.request ∈ base.requested m) :
    ∀ env, Follows base (ModuleGraph.bindImports (dryHost depth) path m imports env) := by
  induction imports with
  | nil => exact fun _ => Follows.pure _
  | cons i rest ih =>
    intro env
    rw [List.forall_mem_cons] at hr
    rw [ModuleGraph.bindImports]
    exact Follows.bind (importBinding hbase hr.1) fun _ => ih hr.2 _

end Environments

end Follows

end ModuleGraph.FileSystem
