import Mathlib.Data.List.Dedup
import Mathlib.Tactic.Common
import ModuleGraph.Record.Source

/-! # Records of parsed modules

Whatever a record imports or exports from elsewhere is among the modules that it requests. To
export a name twice is an early error, so the entries of a name are unique. -/

namespace ModuleGraph

open Syntax

namespace SourceRecord

def ownExport? (record : SourceRecord) (name : String) : Option LocalExport :=
  record.localExports.find? fun e => e.exportName == name

def indirectExport? (record : SourceRecord) (name : String) : Option IndirectExport :=
  record.indirectExports.find? fun e => e.exportName == name

def ownNames (record : SourceRecord) : List String :=
  record.localExports.map (·.exportName) ++ record.indirectExports.map (·.exportName)

theorem mem_ownNames_of_own {record : SourceRecord} {name : String} {e : LocalExport}
    (h : record.ownExport? name = some e) : name ∈ record.ownNames := by
  have hname : (e.exportName == name) = true :=
    List.find?_some (p := fun e : LocalExport => e.exportName == name) h
  rw [beq_iff_eq] at hname
  exact List.mem_append_left _ (hname ▸ List.mem_map_of_mem (List.mem_of_find?_eq_some h))

theorem mem_ownNames_of_indirect {record : SourceRecord} {name : String} {e : IndirectExport}
    (h : record.indirectExport? name = some e) : name ∈ record.ownNames := by
  have hname : (e.exportName == name) = true :=
    List.find?_some (p := fun e : IndirectExport => e.exportName == name) h
  rw [beq_iff_eq] at hname
  exact List.mem_append_right _ (hname ▸ List.mem_map_of_mem (List.mem_of_find?_eq_some h))

/-- What a record takes from elsewhere it requests. -/
structure Listed (record : SourceRecord) : Prop where
  imports : ∀ i ∈ record.imports, i.request ∈ record.requested
  indirect : ∀ e ∈ record.indirectExports, e.request ∈ record.requested
  stars : ∀ request ∈ record.starExports, request ∈ record.requested

/-- What holds of the records of all texts that are modules. -/
structure WellFormed (record : SourceRecord) : Prop where
  imports : ∀ i ∈ record.imports, i.request ∈ record.requested
  indirect : ∀ e ∈ record.indirectExports, e.request ∈ record.requested
  stars : ∀ request ∈ record.starExports, request ∈ record.requested
  distinct : record.ownNames.Nodup

theorem WellFormed.listed {record : SourceRecord} (h : record.WellFormed) : record.Listed :=
  ⟨h.imports, h.indirect, h.stars⟩

/-- Elements of different names are found by their names. -/
theorem find?_eq_some_of_nodup {α : Type} {f : α → String} {xs : List α} {x : α}
    (h : (xs.map f).Nodup) (hx : x ∈ xs) : (xs.find? fun y => f y == f x) = some x := by
  induction xs with
  | nil => cases hx
  | cons y rest ih =>
    obtain ⟨hy, hrest⟩ := List.nodup_cons.1 h
    rcases List.mem_cons.1 hx with rfl | hx
    · exact List.find?_cons_of_pos (beq_self_eq_true _)
    · have hne : f y ≠ f x := fun hf => hy (hf ▸ List.mem_map_of_mem hx)
      rw [List.find?_cons_of_neg (by simpa using hne)]
      exact ih hrest hx

/-- Each indirect entry is the one that its name means. -/
theorem WellFormed.indirectExport?_eq {record : SourceRecord} {e : IndirectExport}
    (h : record.WellFormed) (he : e ∈ record.indirectExports) :
    record.ownExport? e.exportName = none ∧ record.indirectExport? e.exportName = some e := by
  obtain ⟨-, hi, hdisj⟩ := List.nodup_append.1 h.distinct
  refine ⟨List.find?_eq_none.2 fun own ho hname => ?_, find?_eq_some_of_nodup hi he⟩
  exact hdisj _ (List.mem_map_of_mem ho) _ (List.mem_map_of_mem he) (beq_iff_eq.1 hname)

end SourceRecord

namespace ExportEntry

def name? : ExportEntry → Option String
  | .own e => some e.exportName
  | .indirect e => some e.exportName
  | .star _ => none

def request? : ExportEntry → Option String
  | .own _ => none
  | .indirect e => some e.request
  | .star request => some request

variable {entry : ExportEntry}

theorem indirect?_eq_some {e : IndirectExport} :
    entry.indirect? = some e ↔ entry = .indirect e := by
  cases entry <;> simp [indirect?]

theorem star?_eq_some {request : String} : entry.star? = some request ↔ entry = .star request := by
  cases entry <;> simp [star?]

/-- The local and the indirect entries together have the names of all entries. -/
theorem names_perm (entries : List ExportEntry) :
    ((entries.filterMap own?).map (·.exportName) ++
      (entries.filterMap indirect?).map (·.exportName)).Perm (entries.filterMap name?) := by
  induction entries with
  | nil => exact .nil
  | cons entry rest ih =>
    cases entry with
    | own e => exact ih.cons _
    | indirect e => exact List.perm_middle.trans (ih.cons _)
    | star request => exact ih

end ExportEntry

namespace Syntax

variable {program : Program} {request : String} {entry : ExportEntry} {i : ImportEntry}

def Program.exportNames (program : Program) : List String :=
  program.exports.filterMap ExportEntry.name?

theorem mem_requested :
    request ∈ program.requested ↔ ∃ item ∈ program, item.request? = some request := by
  rw [Program.requested, List.mem_eraseDups, List.mem_filterMap]

theorem request_import (h : i ∈ program.imports) : i.request ∈ program.requested := by
  obtain ⟨item, hitem, hi⟩ := List.mem_flatMap.1 h
  cases item with
  | importFrom specifier names =>
    obtain ⟨name, -, rfl⟩ := List.mem_map.1 hi
    exact mem_requested.2 ⟨_, hitem, by cases name <;> rfl⟩
  | _ => cases hi

/-- An exported name that an import binds takes its binding from where the import does. -/
theorem request_ofName {name : ExportSpecifier}
    (h : (ExportEntry.ofName program.imports name).request? = some request) :
    request ∈ program.requested := by
  rw [ExportEntry.ofName] at h
  split at h
  · rename_i source importName binding hfind
    cases h
    exact request_import (List.mem_of_find?_eq_some hfind)
  · cases h
  · cases h

theorem request_export (h : entry ∈ program.exports) (hr : entry.request? = some request) :
    request ∈ program.requested := by
  obtain ⟨item, hitem, he⟩ := List.mem_flatMap.1 h
  cases item with
  | statement body => cases he
  | importFrom specifier names => cases he
  | exportDeclaration declared =>
    obtain ⟨name, -, rfl⟩ := List.mem_map.1 he
    cases hr
  | exportNames names =>
    obtain ⟨name, -, rfl⟩ := List.mem_map.1 he
    exact request_ofName hr
  | exportNamesFrom specifier names =>
    obtain ⟨name, -, rfl⟩ := List.mem_map.1 he
    cases hr
    exact mem_requested.2 ⟨_, hitem, rfl⟩
  | exportAll specifier name =>
    cases name with
    | none =>
      cases List.mem_singleton.1 he
      cases hr
      exact mem_requested.2 ⟨_, hitem, rfl⟩
    | some name =>
      cases List.mem_singleton.1 he
      cases hr
      exact mem_requested.2 ⟨_, hitem, rfl⟩
  | exportDefault exported =>
    cases List.mem_singleton.1 he
    cases hr

end Syntax

namespace SourceRecord

variable {text : String} {program : Program} {record : SourceRecord}

theorem listed_ofProgram (h : ofProgram text program = .ok record) : record.Listed := by
  rw [ofProgram] at h
  split at h
  · cases h
    refine ⟨fun i hi => request_import hi, fun e he => ?_, fun request hr => ?_⟩
    · obtain ⟨entry, hentry, he⟩ := List.mem_filterMap.1 he
      exact request_export hentry (by rw [ExportEntry.indirect?_eq_some.1 he]; rfl)
    · obtain ⟨entry, hentry, he⟩ := List.mem_filterMap.1 hr
      exact request_export hentry (by rw [ExportEntry.star?_eq_some.1 he]; rfl)
  · cases h

/-- The record of a program that exports no name twice is well formed. -/
theorem wellFormed_ofProgram (h : ofProgram text program = .ok record)
    (hd : program.exportNames.Nodup) : record.WellFormed := by
  obtain ⟨himports, hindirect, hstars⟩ := listed_ofProgram h
  refine ⟨himports, hindirect, hstars, ?_⟩
  rw [ofProgram] at h
  split at h
  · cases h
    exact (ExportEntry.names_perm program.exports).nodup_iff.2 hd
  · cases h

end SourceRecord

end ModuleGraph
