import ModuleGraph.Proofs.Exports.Records

/-! # The scope of a module

An export without a specifier names a binding of the module's own: a declared name, or an imported
namespace. A name that an import takes from another module is exported by an indirect entry, which
leads to that module. So a local entry never stands for the binding of another module. -/

namespace ModuleGraph

open Syntax

namespace Syntax

def Program.declared (program : Program) : List String :=
  program.varNames ++ program.lexical.map (·.1)

/-- A program without the errors of scope that a parser reports: no name is imported twice, and all
that its export clauses name is bound. -/
structure Program.Scoped (program : Program) : Prop where
  distinct : (program.imports.map (·.localName)).Nodup
  bound : ∀ names, Item.exportNames names ∈ program → ∀ n ∈ names,
    n.source ∈ program.declared ∨ n.source ∈ program.imports.map (·.localName)

variable {program : Program} {item : Item} {n : String}

theorem mem_declared_of_varNames (hi : item ∈ program) (hn : n ∈ item.varNames) :
    n ∈ program.declared := by
  refine List.mem_append_left _ ?_
  rw [Program.varNames, List.mem_eraseDups]
  exact List.mem_flatMap.2 ⟨item, hi, hn⟩

theorem mem_declared_of_lexical (hi : item ∈ program) (hn : n ∈ item.lexical.map (·.1)) :
    n ∈ program.declared := by
  refine List.mem_append_right _ ?_
  obtain ⟨d, hd, rfl⟩ := List.mem_map.1 hn
  exact List.mem_map_of_mem (List.mem_flatMap.2 ⟨item, hi, hd⟩)

/-- A declaration binds its names as `var` names or lexically. -/
theorem mem_names_of_boundNames {declared : Declaration} (h : n ∈ declared.boundNames) :
    n ∈ declared.varNames ∨ n ∈ declared.lexical.map (·.1) := by
  cases declared with
  | «variables» kind declarators =>
    cases kind with
    | var => exact .inl h
    | «let» | const | «using» | awaitUsing =>
      refine .inr ?_
      rw [Declaration.lexical, VariableKind.lexical, List.map_map]
      exact List.mem_map.2 ⟨n, h, rfl⟩
  | function name definition =>
    refine .inr ?_
    rw [Declaration.lexical, List.map_map]
    exact List.mem_map.2 ⟨n, h, rfl⟩
  | «class» name definition =>
    refine .inr ?_
    rw [Declaration.lexical, List.map_map]
    exact List.mem_map.2 ⟨n, h, rfl⟩

/-- A local export is one of a declared name or of an imported namespace. -/
theorem Program.Scoped.own (h : program.Scoped) {e : LocalExport}
    (he : .own e ∈ program.exports) : e.localName ∈ program.declared ∨
      ∃ i ∈ program.imports, i.importName = none ∧ i.localName = e.localName := by
  obtain ⟨item, hitem, he⟩ := List.mem_flatMap.1 he
  cases item with
  | statement body => cases he
  | importFrom specifier names => cases he
  | exportNamesFrom specifier names =>
    obtain ⟨name, -, hname⟩ := List.mem_map.1 he
    cases hname
  | exportAll specifier name =>
    cases name <;> cases List.mem_singleton.1 he
  | exportDefault exported =>
    cases List.mem_singleton.1 he
    exact .inl (mem_declared_of_lexical hitem (List.mem_singleton_self _))
  | exportDeclaration declared =>
    obtain ⟨n, hn, hname⟩ := List.mem_map.1 he
    cases hname
    refine .inl ((mem_names_of_boundNames hn).elim (fun hv => ?_) fun hl => ?_)
    · exact mem_declared_of_varNames hitem hv
    · exact mem_declared_of_lexical hitem hl
  | exportNames names =>
    obtain ⟨name, hname, hentry⟩ := List.mem_map.1 he
    rw [ExportEntry.ofName] at hentry
    split at hentry
    · cases hentry
    · rename_i request binding hfind
      cases hentry
      have hlocal := List.find?_some hfind
      rw [beq_iff_eq] at hlocal
      exact .inr ⟨_, List.mem_of_find?_eq_some hfind, rfl, hlocal⟩
    · rename_i hfind
      cases hentry
      -- No import binds the name, so it is declared.
      refine .inl ((h.bound names hitem name hname).resolve_right fun himported => ?_)
      obtain ⟨i, hi, hlocal⟩ := List.mem_map.1 himported
      exact List.find?_eq_none.1 hfind i hi (beq_iff_eq.2 hlocal)

end Syntax

namespace SourceRecord

def declared (record : SourceRecord) : List String :=
  record.varNames ++ record.lexical.map (·.1)

/-- Each name is bound once, by an import or by declarations, and all local exports are bound. -/
structure Scoped (record : SourceRecord) : Prop where
  distinct : (record.imports.map (·.localName)).Nodup
  disjoint : ∀ n ∈ record.declared, n ∉ record.imports.map (·.localName)
  own : ∀ e ∈ record.localExports, e.localName ∈ record.declared ∨
    ∃ i ∈ record.imports, i.importName = none ∧ i.localName = e.localName

/-- A program that declares an imported name has no record, so the names of a record are apart. -/
theorem disjoint_ofProgram {text : String} {program : Program} {record : SourceRecord}
    (h : ofProgram text program = .ok record) :
    ∀ n ∈ record.declared, n ∉ record.imports.map (·.localName) := by
  rw [ofProgram] at h
  split at h
  · rename_i hredeclared
    cases h
    intro n hn himported
    have hmem : n ∈ program.redeclared :=
      List.mem_filter.2 ⟨hn, List.contains_iff_mem.2 himported⟩
    rw [hredeclared] at hmem
    cases hmem
  · cases h

theorem scoped_ofProgram {text : String} {program : Program} {record : SourceRecord}
    (h : ofProgram text program = .ok record) (hs : program.Scoped) : record.Scoped := by
  have hdisjoint := disjoint_ofProgram h
  rw [ofProgram] at h
  split at h
  · cases h
    refine ⟨hs.distinct, hdisjoint, fun e he => hs.own ?_⟩
    obtain ⟨entry, hentry, hown⟩ := List.mem_filterMap.1 he
    cases entry with
    | own e' =>
      cases hown
      exact hentry
    | indirect e' => cases hown
    | star request => cases hown
  · cases h

end SourceRecord

end ModuleGraph
