import Mathlib.Data.List.Perm.Subperm
import ModuleGraph.FileSystem.DryRun
import ModuleGraph.Proofs.Computation
import ModuleGraph.Proofs.Fields
import ModuleGraph.Proofs.Live.Scopes

/-! # Modules that were loaded from files

While files are loaded and linked, a desk holds one module for each file, and nothing but modules.
The first file is the entry; each other one was loaded because a module that was there before
requests it. What a specifier means to a module stays the same once its file is loaded. -/

namespace ModuleGraph

open Syntax

/-- A record asks for what it takes from elsewhere, and declares nothing that it imports. -/
structure SourceRecord.Coheres (record : SourceRecord) : Prop where
  listed : record.Listed
  apart : ∀ n ∈ record.declared, n ∉ record.imports.map (·.localName)

theorem SourceRecord.coheres_ofText {text : String} {program : Option Program}
    {record : SourceRecord} (h : SourceRecord.ofText text program = .ok record) :
    record.Coheres := by
  cases program with
  | none => cases h
  | some program => exact ⟨listed_ofProgram h, disjoint_ofProgram h⟩

theorem SourceRecord.coheres_default : (default : SourceRecord).Coheres :=
  ⟨⟨nofun, nofun, nofun⟩, nofun⟩

def ModuleKind.InStock (k : ModuleKind) : Prop :=
  ∃ record env status visit ancestor, record.Coheres ∧ k = .source record env
    { Cyclic.new record.requested record.hasAwait with status, visit, ancestor }

namespace FileSystem

variable {s s' s'' : Desk} {m n x : ModuleId} {p : Place} {request : String}
variable {record : SourceRecord}

theorem Tree.mem_of_read {t : Tree} {x : String × Option Program} (h : t.read p = .ok x) :
    p ∈ t.map (·.1) := by
  rw [Tree.read, Tree.node?] at h
  cases hp : t.lookup p with
  | some node =>
    obtain ⟨l₁, l₂, rfl, -⟩ := List.lookup_eq_some_iff.1 hp
    simp
  | none =>
    rw [hp] at h
    by_cases hdirectory : (p.isEmpty || t.any fun e => p.isPrefixOf e.1) = true
    · simp only [hdirectory, if_true] at h
      cases h
    · simp only [hdirectory] at h
      cases h

def Desk.target? (s : Desk) (m : ModuleId) (specifier : String) : Option ModuleId :=
  (resolveSpecifier s.host.current.text (s.module m).label specifier).bind fun path =>
    (s.host.tree.locate s.host.current path).toOption.bind s.host.loaded.get?

def Desk.load (s : Desk) (p : Place) (record : SourceRecord) : Desk :=
  (s.newSource record (some p.text)).2.setHost
    { s.host with loaded := s.host.loaded.put p ⟨s.modules.size⟩ }

/-! ## Loading -/

/-- A file that can be loaded was loaded before, or is loaded now. -/
theorem loadFile_ok (h : loadFile p s = some (.ok m, s')) :
    (s.host.loaded.get? p = some m ∧ s' = s) ∨
      s.host.loaded.get? p = none ∧ (∃ x, s.host.tree.read p = .ok x) ∧
        ∃ record, record.Coheres ∧ m = ⟨s.modules.size⟩ ∧ s' = Desk.load s p record := by
  rw [loadFile, Act.view_bind] at h
  cases hloaded : s.host.loaded.get? p with
  | some n =>
    simp only [hloaded] at h
    cases h
    exact .inl ⟨rfl, rfl⟩
  | none =>
    simp only [hloaded] at h
    cases hread : s.host.tree.read p with
    | error e =>
      simp only [hread] at h
      cases h
    | ok x =>
      simp only [hread] at h
      cases hrecord : SourceRecord.ofText x.1 x.2 with
      | error e =>
        simp only [hrecord] at h
        cases h
      | ok record =>
        simp only [hrecord] at h
        cases h
        exact .inr ⟨rfl, ⟨x, rfl⟩, record, SourceRecord.coheres_ofText hrecord, rfl, rfl⟩

/-- A specifier that means a module leads to the place of its file. -/
theorem Desk.place_of_target (h : Desk.target? s m request = some n) :
    ∃ path p, resolveSpecifier s.host.current.text (s.module m).label request = some path ∧
      s.host.tree.locate s.host.current path = .ok p ∧ s.host.loaded.get? p = some n := by
  obtain ⟨path, hpath, h⟩ := Option.bind_eq_some_iff.1 h
  obtain ⟨p, hp, h⟩ := Option.bind_eq_some_iff.1 h
  refine ⟨path, p, hpath, ?_, h⟩
  cases hl : s.host.tree.locate s.host.current path with
  | error e => rw [hl] at hp; cases hp
  | ok q => rw [hl] at hp; cases hp; rfl

/-- A specifier whose file was loaded is not looked for again. -/
theorem loadSpecifier_of_target (h : Desk.target? s m request = some n) :
    loadSpecifier (.module m) request s = some (.ok n, s) := by
  obtain ⟨path, p, hpath, hp, hn⟩ := Desk.place_of_target h
  simp only [loadSpecifier, Act.view_bind, pathOf, hpath, hp, loadFile, hn]
  rfl

theorem loadSpecifier_ok (h : loadSpecifier (.module m) request s = some (.ok n, s')) :
    ∃ path p, resolveSpecifier s.host.current.text (s.module m).label request = some path ∧
      s.host.tree.locate s.host.current path = .ok p ∧ loadFile p s = some (.ok n, s') := by
  rw [loadSpecifier, Act.view_bind, Act.view_bind, pathOf] at h
  cases hpath : resolveSpecifier s.host.current.text (s.module m).label request with
  | none =>
    simp only [hpath] at h
    cases h
  | some path =>
    simp only [hpath] at h
    cases hp : s.host.tree.locate s.host.current path with
    | error e =>
      simp only [hp] at h
      cases h
    | ok p =>
      simp only [hp] at h
      exact ⟨path, p, rfl, hp, h⟩

namespace Desk

theorem module_load (s : Desk) (p : Place) (record : SourceRecord) (n : ModuleId) :
    (load s p record).module n = if n = ⟨s.modules.size⟩ then
      .new (.source record none (.new record.requested record.hasAwait)) (some p.text)
    else s.module n := by
  obtain ⟨i⟩ := n
  by_cases e : i = s.modules.size
  · have hself : (⟨i⟩ : ModuleId) = ⟨s.modules.size⟩ := congrArg ModuleId.mk e
    rw [if_pos hself, hself]
    exact Machine.module_newModule_self s _
  · have hne : (⟨i⟩ : ModuleId) ≠ ⟨s.modules.size⟩ := fun h => e (congrArg ModuleId.index h)
    rw [if_neg hne]
    simp [load, Machine.newSource, Machine.newModule, Machine.setHost, Machine.module,
      Array.getD_eq_getD_getElem?, Array.getElem?_push, e]

theorem size_load (s : Desk) (p : Place) (record : SourceRecord) :
    (load s p record).modules.size = s.modules.size + 1 := Array.size_push _

/-! ## What stays as it is -/

structure Grows (s s' : Desk) : Prop where
  tree : s'.host.tree = s.host.tree
  current : s'.host.current = s.host.current
  loaded : ∀ p m, s.host.loaded.get? p = some m → s'.host.loaded.get? p = some m
  has : ∀ m, s.Has m → s'.Has m
  label : ∀ m, s.Has m → (s'.module m).label = (s.module m).label
  record : ∀ m, s.Has m → s'.record? m = s.record? m

structure Peeks (s s' : Desk) : Prop extends Grows s s' where
  kind : ∀ m, s.Has m → (s'.module m).kind = (s.module m).kind
  made : ∀ m, ¬s.Has m → (s'.module m).kind.IsNew

theorem Grows.refl (s : Desk) : Grows s s :=
  ⟨rfl, rfl, fun _ _ => id, fun _ => id, fun _ _ => rfl, fun _ _ => rfl⟩

theorem Grows.trans (h : Grows s s') (h' : Grows s' s'') : Grows s s'' where
  tree := h'.tree.trans h.tree
  current := h'.current.trans h.current
  loaded p m hm := h'.loaded p m (h.loaded p m hm)
  has m hm := h'.has m (h.has m hm)
  label m hm := (h'.label m (h.has m hm)).trans (h.label m hm)
  record m hm := (h'.record m (h.has m hm)).trans (h.record m hm)

theorem Peeks.refl (s : Desk) : Peeks s s :=
  ⟨.refl s, fun _ _ => rfl, fun _ => Machine.isNew_of_not_has⟩

theorem Peeks.trans (h : Peeks s s') (h' : Peeks s' s'') : Peeks s s'' where
  toGrows := h.toGrows.trans h'.toGrows
  kind m hm := (h'.kind m (h.has m hm)).trans (h.kind m hm)
  made m hm := by
    by_cases hm' : s'.Has m
    · rw [h'.kind m hm']
      exact h.made m hm
    · exact h'.made m hm'

theorem Grows.target? (h : Grows s s') (hm : s.Has m) (ht : target? s m request = some n) :
    target? s' m request = some n := by
  obtain ⟨path, hpath, ht⟩ := Option.bind_eq_some_iff.1 ht
  obtain ⟨p, hp, hn⟩ := Option.bind_eq_some_iff.1 ht
  rw [Desk.target?, h.current, h.tree, h.label m hm, hpath, Option.bind_some, hp, Option.bind_some]
  exact h.loaded p n hn

theorem peeks_load (s : Desk) {p : Place} (hp : s.host.loaded.get? p = none)
    (record : SourceRecord) : Peeks s (load s p record) := by
  have hold : ∀ m, s.Has m → (load s p record).module m = s.module m := fun m hm => by
    rw [module_load, if_neg]
    rintro rfl
    exact Nat.lt_irrefl _ hm
  refine ⟨⟨rfl, rfl, fun q m hq => ?_, fun m hm => ?_, fun m hm => by rw [hold m hm],
    fun m hm => by rw [Machine.record?, hold m hm, Machine.record?]⟩, fun m hm => by rw [hold m hm],
    fun m hm => ?_⟩
  · have hne : p ≠ q := by
      rintro rfl
      rw [hp] at hq
      cases hq
    exact (Table.get?_put_of_ne _ _ hne).trans hq
  · rw [Machine.Has, size_load]
    exact Nat.lt_succ_of_lt hm
  · rw [module_load]
    split
    · exact ⟨rfl, rfl⟩
    · exact Machine.isNew_of_not_has hm

/-! ## The stock -/

structure Still (s : Desk) : Prop where
  promises : s.promises = #[]
  reactions : s.reactions = #[]
  joins : s.joins = #[]
  imports : s.imports = #[]
  jobs : s.jobs = []
  nextTurn : s.nextTurn = 1
  events : s.host.events = []

/-- A desk on which files were loaded and linked, and nothing else. -/
structure Stock (s : Desk) : Prop where
  still : Still s
  source : ∀ m, (s.module m).kind.InStock
  shelf : s.host.loaded.map (·.2) = (List.range s.modules.size).map ModuleId.mk
  places : s.host.loaded.keys.Nodup
  files : ∀ p ∈ s.host.loaded.keys, ∃ x, s.host.tree.read p = .ok x
  asked : ∀ m, s.Has m → m.index ≠ 0 →
    ∃ x r, x.index < m.index ∧ r ∈ s.requested x ∧ target? s x r = some m

theorem stock_initial (t : Tree) (current : Place) :
    Stock (.initial (.initial t current)) where
  still := ⟨rfl, rfl, rfl, rfl, rfl, rfl, rfl⟩
  source _ := ⟨default, none, .unlinked, none, none, SourceRecord.coheres_default, rfl⟩
  shelf := rfl
  places := List.nodup_nil
  files _ hp := nomatch hp
  asked _ hm := absurd hm (Nat.not_lt_zero _)

namespace Stock

theorem record? (h : Stock s) (m : ModuleId) :
    ∃ record, s.record? m = some record ∧ record.Coheres ∧ s.requested m = record.requested := by
  obtain ⟨record, env, status, visit, ancestor, hrecord, hk⟩ := h.source m
  refine ⟨record, by rw [Machine.record?, hk]; rfl, hrecord, ?_⟩
  rw [Machine.requested, Machine.cyclic?_eq, hk]
  rfl

theorem requested_eq (h : Stock s) (hr : s.record? m = some record) :
    record.Coheres ∧ s.requested m = record.requested := by
  obtain ⟨record', hr', hcoheres, hrequested⟩ := h.record? m
  cases hr.symm.trans hr'
  exact ⟨hcoheres, hrequested⟩

theorem requested_congr (h : Stock s) (h' : Stock s') (hr : s'.record? m = s.record? m) :
    s'.requested m = s.requested m := by
  obtain ⟨record, hrecord, -, hrequested⟩ := h.record? m
  rw [hrequested, (h'.requested_eq (hr.trans hrecord)).2]

theorem mem_loaded (h : Stock s) : m ∈ s.host.loaded.map (·.2) ↔ s.Has m := by
  rw [h.shelf, List.mem_map]
  constructor
  · rintro ⟨i, hi, rfl⟩
    exact List.mem_range.1 hi
  · exact fun hm => ⟨m.index, List.mem_range.2 hm, rfl⟩

theorem nodup_loaded (h : Stock s) : (s.host.loaded.map (·.2)).Nodup := by
  rw [h.shelf]
  exact List.nodup_range.map fun i j e => congrArg ModuleId.index e

theorem has_of_loaded (h : Stock s) (hm : s.host.loaded.get? p = some m) : s.Has m :=
  h.mem_loaded.1 (List.mem_map.2 ⟨(p, m), Table.mem_of_get? hm, rfl⟩)

theorem has_target (h : Stock s) (hn : target? s m request = some n) : s.Has n := by
  obtain ⟨path, -, hn⟩ := Option.bind_eq_some_iff.1 hn
  obtain ⟨p, -, hn⟩ := Option.bind_eq_some_iff.1 hn
  exact h.has_of_loaded hn

/-- A file is loaded: it is the first one, or a module requests it. -/
theorem load (h : Stock s) (hp : s.host.loaded.get? p = none)
    (hread : ∃ x, s.host.tree.read p = .ok x) (hrecord : record.Coheres)
    (hasked : s.modules.size = 0 ∨ ∃ x r, r ∈ s.requested x ∧
      target? (Desk.load s p record) x r = some ⟨s.modules.size⟩) :
    Stock (Desk.load s p record) := by
  have hnot : ¬s.host.loaded.has p := by
    rw [Table.has, hp]
    rintro ⟨⟩
  have hpeeks := peeks_load s hp record
  have hsource : ∀ m, ((Desk.load s p record).module m).kind.InStock := fun m => by
    rw [module_load]
    split
    · exact ⟨record, none, .unlinked, none, none, hrecord, rfl⟩
    · exact h.source m
  have hrequested : ∀ x, s.Has x →
      (Desk.load s p record).requested x = s.requested x := fun x hx => by
    rw [Machine.requested, Machine.cyclic?_eq, hpeeks.kind x hx, Machine.requested,
      Machine.cyclic?_eq]
  refine ⟨⟨h.still.promises, h.still.reactions, h.still.joins, h.still.imports, h.still.jobs,
    h.still.nextTurn, h.still.events⟩, hsource, ?_, Table.nodup_keys_put _ _ _ h.places,
    fun q hq => ?_, fun m hm hindex => ?_⟩
  · rw [size_load, List.range_succ, List.map_append, ← h.shelf]
    change (s.host.loaded.put p ⟨s.modules.size⟩).map (·.2) = _
    rw [Table.put_of_not_has _ _ hnot, List.map_append]
    rfl
  · change q ∈ (s.host.loaded.put p ⟨s.modules.size⟩).keys at hq
    rw [Table.keys_put_of_not_has _ _ hnot, List.mem_append, List.mem_singleton] at hq
    obtain hq | rfl := hq
    · exact h.files q hq
    · exact hread
  · rw [Machine.Has, size_load, Nat.lt_succ_iff_lt_or_eq] at hm
    obtain hm | hm := hm
    · obtain ⟨x, r, hlt, hr, ht⟩ := h.asked m hm hindex
      have hx : s.Has x := Nat.lt_trans hlt hm
      exact ⟨x, r, hlt, by rwa [hrequested x hx], hpeeks.target? hx ht⟩
    · obtain hzero | ⟨x, r, hr, ht⟩ := hasked
      · exact absurd (hm.trans hzero) hindex
      · have hx : s.Has x := Machine.has_of_requested hr
        refine ⟨x, r, by rw [hm]; exact hx, by rwa [hrequested x hx], ?_⟩
        rw [ht, ← hm]

/-- The module that a specifier means to a module that requests it is there, or is loaded now. -/
theorem loadSpecifier (h : Stock s) (hr : request ∈ s.requested m)
    (hrun : FileSystem.loadSpecifier (.module m) request s = some (.ok n, s')) :
    Stock s' ∧ Peeks s s' ∧ target? s' m request = some n := by
  obtain ⟨path, p, hpath, hp, hload⟩ := loadSpecifier_ok hrun
  have hm := Machine.has_of_requested hr
  obtain ⟨hn, rfl⟩ | ⟨hnone, hread, record, hrecord, rfl, rfl⟩ := loadFile_ok hload
  · refine ⟨h, .refl _, ?_⟩
    simp only [target?, hpath, hp, Option.bind_some, Except.toOption, hn]
  · have hpeeks := peeks_load s hnone record
    have ht : target? (Desk.load s p record) m request = some ⟨s.modules.size⟩ := by
      have hpath' : resolveSpecifier (Desk.load s p record).host.current.text
          ((Desk.load s p record).module m).label request = some path := by
        rw [hpeeks.label m hm]
        exact hpath
      rw [target?, hpath', Option.bind_some]
      change ((s.host.tree.locate s.host.current path).toOption.bind
        (s.host.loaded.put p ⟨s.modules.size⟩).get?) = _
      rw [hp]
      exact Table.get?_put_self _ _ _
    exact ⟨h.load hnone hread hrecord (.inr ⟨m, request, hr, ht⟩), hpeeks, ht⟩

theorem loadEntry (h : Stock s) (hs : s.modules.size = 0) {path : String}
    (hrun : FileSystem.loadEntry path s = some (.ok m, s')) :
    Stock s' ∧ Peeks s s' ∧ m = ⟨0⟩ ∧ s'.Has m := by
  rw [FileSystem.loadEntry, Act.view_bind] at hrun
  cases hp : s.host.tree.walk (Tree.start s.host.current path) (entryParts path) with
  | error e =>
    simp only [hp] at hrun
    cases hrun
  | ok p =>
    simp only [hp] at hrun
    obtain ⟨hm, -⟩ | ⟨hnone, hread, record, hrecord, rfl, rfl⟩ := loadFile_ok hrun
    · have hhas := h.has_of_loaded hm
      rw [Machine.Has, hs] at hhas
      exact absurd hhas (Nat.not_lt_zero _)
    · refine ⟨h.load hnone hread hrecord (.inl hs), peeks_load s hnone record, by rw [hs], ?_⟩
      rw [Machine.Has, size_load]
      exact Nat.lt_succ_self _

theorem updateModule (h : Stock s) {f : Module → Module} (hlabel : ∀ x, (f x).label = x.label)
    (hkind : ∀ x, x.kind.InStock → (f x).kind.InStock ∧ (f x).kind.record? = x.kind.record?) :
    Stock (s.updateModule m f) ∧ Grows s (s.updateModule m f) := by
  by_cases hm : s.Has m
  · have hmodule : ∀ n, (s.updateModule m f).module n =
        if n = m then f (s.module n) else s.module n := fun n =>
      Machine.module_updateModule s m n f hm
    have hrecord : ∀ n, (s.updateModule m f).record? n = s.record? n := fun n => by
      rw [Machine.record?, hmodule, Machine.record?]
      split
      · exact (hkind _ (h.source n)).2
      · rfl
    have hgrows : Grows s (s.updateModule m f) :=
      ⟨rfl, rfl, fun _ _ => id, fun n hn => (Machine.has_updateModule f).2 hn, fun n _ => by
        rw [hmodule]
        split
        · exact hlabel _
        · rfl, fun n _ => hrecord n⟩
    have hsource : ∀ n, ((s.updateModule m f).module n).kind.InStock := fun n => by
      rw [hmodule]
      split
      · exact (hkind _ (h.source n)).1
      · exact h.source n
    have hrequested : ∀ n, (s.updateModule m f).requested n = s.requested n := fun n => by
      obtain ⟨record, hr, -, hq⟩ := h.record? n
      have hk := hsource n
      obtain ⟨record', env, status, visit, ancestor, -, hk⟩ := hk
      have hr' := hrecord n
      rw [hr, Machine.record?, hk] at hr'
      cases hr'
      rw [hq, Machine.requested, Machine.cyclic?_eq, hk]
      rfl
    refine ⟨⟨⟨h.still.promises, h.still.reactions, h.still.joins, h.still.imports, h.still.jobs,
      h.still.nextTurn, h.still.events⟩, hsource, ?_, h.places, h.files, fun n hn hindex => ?_⟩,
      hgrows⟩
    · rw [Machine.size_updateModule]
      exact h.shelf
    · rw [Machine.has_updateModule] at hn
      obtain ⟨x, r, hlt, hr, ht⟩ := h.asked n hn hindex
      exact ⟨x, r, hlt, by rwa [hrequested], hgrows.target? (Nat.lt_trans hlt hn) ht⟩
  · rw [Machine.updateModule_of_not_has f hm]
    exact ⟨h, .refl s⟩

theorem size_le (h : Stock s) : s.modules.size ≤ s.host.tree.length := by
  have hlength : s.modules.size = s.host.loaded.keys.length := by
    have hs := congrArg List.length h.shelf
    rw [List.length_map, List.length_map, List.length_range] at hs
    rw [Table.keys, List.length_map, hs]
  have hsub : s.host.loaded.keys ⊆ s.host.tree.map (·.1) := fun p hp => by
    obtain ⟨x, hx⟩ := h.files p hp
    exact Tree.mem_of_read hx
  have hle := (List.subperm_of_subset h.places hsub).length_le
  rwa [List.length_map, ← hlength] at hle

end Stock

end Desk

end FileSystem

end ModuleGraph
