import Mathlib.Data.List.Forall2
import ModuleGraph.Proofs.Live.Scopes
import ModuleGraph.Proofs.Syntax.Hoisting

/-! # Import and export entries

The sites of imports and exports are the places of a text where a name is imported or exported. A
record has one entry for each of them. Which entry it is depends on the imports of the whole text,
be they before or after an export. -/

namespace ModuleGraph

namespace Syntax

def Item.importSites : Item → List (String × ImportSpecifier)
  | .importFrom request names => names.map (request, ·)
  | _ => []

def Program.importSites (program : Program) : List (String × ImportSpecifier) :=
  program.flatMap Item.importSites

/-- The entry of a name in an import clause. -/
inductive Imports : String × ImportSpecifier → ImportEntry → Prop
  | named (request imported binding : String) :
    Imports (request, .named imported binding) ⟨request, some imported, binding⟩
  | star (request binding : String) : Imports (request, .star binding) ⟨request, none, binding⟩

inductive ExportSite where
  /-- A name in an export clause without a specifier. -/
  | listed (name : ExportSpecifier)
  /-- A name in an export clause with a specifier. -/
  | taken (request : String) (name : ExportSpecifier)
  /-- A name that an exported declaration binds. -/
  | declared (name : String)
  /-- A default export and the name of its binding. -/
  | default (binding : String)
  /-- `export * as name`. -/
  | namespace (request name : String)
  /-- `export *`. -/
  | star (request : String)

def Declaration.bindings : Declaration → List String
  | .variables kind ds => ((Node.variables kind ds).walk Node.isExpr).flatMap Node.binding
  | .function name _ | .class name _ => name.toList

def Item.exportSites : Item → List ExportSite
  | .exportDeclaration declared => declared.bindings.map .declared
  | .exportNames names => names.map .listed
  | .exportNamesFrom request names => names.map (.taken request)
  | .exportAll request none => [.star request]
  | .exportAll request (some name) => [.namespace request name]
  | .exportDefault exported => [.default exported.localName]
  | .statement _ | .importFrom .. => []

def Program.exportSites (program : Program) : List ExportSite :=
  program.flatMap Item.exportSites

/-- The entry of an export. Only a name that a named or default import binds is taken from where
that import takes it. -/
inductive Exports (imports : List ImportEntry) : ExportSite → ExportEntry → Prop
  | imported {name : ExportSpecifier} {i : ImportEntry} {importName : String} (hi : i ∈ imports)
    (hlocal : i.localName = name.source) (hname : i.importName = some importName) :
    Exports imports (.listed name) (.indirect ⟨name.exported, i.request, some importName⟩)
  | own {name : ExportSpecifier}
    (hown : ∀ i ∈ imports, i.localName = name.source → i.importName = none) :
    Exports imports (.listed name) (.own ⟨name.exported, name.source⟩)
  | taken (request : String) (name : ExportSpecifier) :
    Exports imports (.taken request name) (.indirect ⟨name.exported, request, some name.source⟩)
  | declared (name : String) : Exports imports (.declared name) (.own ⟨name, name⟩)
  | default (binding : String) : Exports imports (.default binding) (.own ⟨"default", binding⟩)
  | namespace (request name : String) :
    Exports imports (.namespace request name) (.indirect ⟨name, request, none⟩)
  | star (request : String) : Exports imports (.star request) (.star request)

end Syntax

open Syntax

/-- The imports, exports and requests of a record are those of a program. -/
structure SourceRecord.Describes (record : SourceRecord) (program : Program) : Prop where
  imports : List.Forall₂ Imports program.importSites record.imports
  exports : ∃ entries, List.Forall₂ (Exports record.imports) program.exportSites entries ∧
    record.localExports = entries.filterMap ExportEntry.own? ∧
    record.indirectExports = entries.filterMap ExportEntry.indirect? ∧
    record.starExports = entries.filterMap ExportEntry.star?
  own : ∀ e ∈ record.localExports, ∀ i ∈ record.imports, i.localName = e.localName →
    i.importName = none
  requested : Enumerates record.requested (program.filterMap Item.request?)
  listed : record.Listed

namespace Syntax

variable {program : Program}

theorem forall₂_flatMap {α β γ : Type} {R : β → γ → Prop} {f : α → List β} {g : α → List γ}
    {xs : List α} (h : ∀ x ∈ xs, List.Forall₂ R (f x) (g x)) :
    List.Forall₂ R (xs.flatMap f) (xs.flatMap g) := by
  induction xs with
  | nil => exact .nil
  | cons x rest ih =>
    rw [List.flatMap_cons, List.flatMap_cons]
    apply List.rel_append (h x List.mem_cons_self)
    exact ih fun y hy => h y (List.mem_cons_of_mem _ hy)

theorem Program.imports_describe (program : Program) :
    List.Forall₂ Imports program.importSites program.imports := by
  apply forall₂_flatMap
  intro item _
  cases item with
  | importFrom request names =>
    simp only [Item.importSites, Item.imports, List.forall₂_map_left_iff,
      List.forall₂_map_right_iff, List.forall₂_same]
    intro name _
    cases name <;> constructor
  | _ => exact .nil

theorem Declaration.bindings_eq (d : Declaration) : d.bindings = d.boundNames := by
  cases d with
  | «variables» kind ds => exact Node.declaratorNames_eq_walk kind ds
  | function | «class» => rfl

/-- If no name is imported twice, an export clause means the import that binds its name. -/
theorem exports_ofName {imports : List ImportEntry} (h : (imports.map (·.localName)).Nodup)
    (name : ExportSpecifier) :
    Exports imports (.listed name) (ExportEntry.ofName imports name) := by
  rw [ExportEntry.ofName]
  split
  · rename_i request importName binding hfind
    have hlocal := List.find?_some hfind
    exact .imported (List.mem_of_find?_eq_some hfind) (beq_iff_eq.1 hlocal) rfl
  · rename_i request binding hfind
    have hlocal := List.find?_some hfind
    apply Exports.own
    intro i hi heq
    have hi' := SourceRecord.find?_eq_some_of_nodup h hi
    rw [heq, hfind] at hi'
    cases hi'
    rfl
  · rename_i hfind
    apply Exports.own
    intro i hi heq
    have hne := List.find?_eq_none.1 hfind i hi
    simp [heq] at hne

theorem Program.exports_describe (h : program.importedNames.Nodup) :
    List.Forall₂ (Exports program.imports) program.exportSites program.exports := by
  apply forall₂_flatMap
  intro item _
  cases item with
  | exportNames names =>
    simp only [Item.exportSites, Item.exports, List.forall₂_map_left_iff,
      List.forall₂_map_right_iff, List.forall₂_same]
    exact fun name _ => exports_ofName h name
  | exportNamesFrom request names =>
    simp only [Item.exportSites, Item.exports, List.forall₂_map_left_iff,
      List.forall₂_map_right_iff, List.forall₂_same]
    exact fun name _ => .taken request name
  | exportDeclaration declared =>
    simp only [Item.exportSites, Item.exports, declared.bindings_eq, List.forall₂_map_left_iff,
      List.forall₂_map_right_iff, List.forall₂_same]
    exact fun name _ => .declared name
  | exportAll request name =>
    cases name with
    | none => exact .cons (.star request) .nil
    | some name => exact .cons (.namespace request name) .nil
  | exportDefault exported => exact .cons (.default _) .nil
  | statement | importFrom => exact .nil

/-- Where no imported name is declared, a local export never means a named or default import. -/
theorem Program.own_not_imported (h : program.importedNames.Nodup) (hr : program.redeclared = [])
    {e : LocalExport} (he : .own e ∈ program.exports) {i : ImportEntry} (hi : i ∈ program.imports)
    (hlocal : i.localName = e.localName) : i.importName = none := by
  have apart : ∀ n ∈ program.declared, i.localName ≠ n := by
    rintro n hn rfl
    have clash : i.localName ∈ program.redeclared :=
      List.mem_filter.2 ⟨hn, List.contains_iff_mem.2 (List.mem_map_of_mem hi)⟩
    simp [hr] at clash
  obtain ⟨item, hitem, he⟩ := List.mem_flatMap.1 he
  cases item with
  | exportNames names =>
    obtain ⟨name, -, hentry⟩ := List.mem_map.1 he
    have described := exports_ofName h name
    rw [hentry] at described
    cases described with
    | own hown => exact hown i hi hlocal
  | exportDefault exported =>
    cases List.mem_singleton.1 he
    exact absurd hlocal (apart _ (mem_declared_of_lexical hitem (List.mem_singleton_self _)))
  | exportDeclaration declared =>
    obtain ⟨n, hn, hname⟩ := List.mem_map.1 he
    cases hname
    rcases mem_names_of_boundNames hn with hvar | hlexical
    · exact absurd hlocal (apart _ (mem_declared_of_varNames hitem hvar))
    · exact absurd hlocal (apart _ (mem_declared_of_lexical hitem hlexical))
  | exportAll request name => cases name <;> simp [Item.exports] at he
  | exportNamesFrom | statement | importFrom => simp [Item.exports] at he

end Syntax

/-- The record of a module in which no name is imported twice describes it. -/
theorem SourceRecord.describes_ofText {text : String} {program : Program} {record : SourceRecord}
    (h : SourceRecord.ofText text (some program) = .ok record)
    (distinct : program.importedNames.Nodup) : record.Describes program := by
  have listed := SourceRecord.listed_ofProgram h
  rw [SourceRecord.ofText, SourceRecord.ofProgram] at h
  split at h
  · rename_i hr
    cases h
    refine ⟨program.imports_describe, ⟨_, Program.exports_describe distinct, rfl, rfl, rfl⟩, ?_,
      enumerates_eraseDups _, listed⟩
    intro e he i hi hlocal
    obtain ⟨entry, hentry, hown⟩ := List.mem_filterMap.1 he
    cases entry with
    | own e' =>
      cases hown
      exact Program.own_not_imported distinct hr hentry hi hlocal
    | indirect | star => cases hown
  · cases h

/-- The export clause of `export { a }; import { a } from "m";` stands before the import. -/
theorem SourceRecord.describes_export_before_import :
    ∃ record, SourceRecord.ofText "" (some [.exportNames [⟨"a", "a"⟩],
        .importFrom "m" [.named "a" "a"]]) = .ok record ∧
      record.indirectExports = [⟨"a", "m", some "a"⟩] ∧
      record.Describes [.exportNames [⟨"a", "a"⟩], .importFrom "m" [.named "a" "a"]] :=
  ⟨_, rfl, rfl, SourceRecord.describes_ofText rfl (by decide)⟩

end ModuleGraph
