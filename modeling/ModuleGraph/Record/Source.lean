import ModuleGraph.Syntax.Await
import ModuleGraph.Syntax.Declared

/-! # Source text records

A record holds what linking and evaluation need to know of a module's text: the modules it
requests, its import and export entries, and the names it declares. An export of an imported name
is an indirect entry; all other exports without a specifier are local. A program that declares an
imported name again has no record. -/

namespace ModuleGraph

open Syntax

/-- One imported name. Without an import name the whole namespace is meant. -/
structure ImportEntry where
  request : String
  importName : Option String
  localName : String
  deriving DecidableEq, Repr

/-- An export of one of the module's own bindings. -/
structure LocalExport where
  exportName : String
  localName : String
  deriving DecidableEq, Repr

/-- An export of another module's export, or of its namespace. -/
structure IndirectExport where
  exportName : String
  request : String
  importName : Option String
  deriving DecidableEq, Repr

/-- What the text of a module says about its imports, exports and declarations. -/
structure SourceRecord where
  text : String
  requested : List String
  imports : List ImportEntry
  localExports : List LocalExport
  indirectExports : List IndirectExport
  /-- The specifiers of plain `export *` items. -/
  starExports : List String
  varNames : List String
  lexical : List (String × LexicalKind)
  hasAwait : Bool
  deriving DecidableEq, Repr, Inhabited

inductive Refusal where
  /-- The text is not a module. -/
  | malformed
  /-- These declared names are also imported; a name stands once for each declaration. -/
  | redeclared (names : List String)
  deriving DecidableEq, Repr

def Refusal.messages : Refusal → List String
  | .malformed => []
  | .redeclared names =>
    names.map fun n => "Identifier \x60" ++ n ++ "\x60 has already been declared"

namespace Syntax

/-- The specifiers that an item requests: one or none. -/
def Item.request? : Item → Option String
  | .importFrom specifier _ => some specifier
  | .exportNamesFrom specifier _ => some specifier
  | .exportAll specifier _ => some specifier
  | .statement _ | .exportDeclaration _ | .exportNames _ | .exportDefault _ => none

/-- The requested specifiers, once each in order of first occurrence. -/
def Program.requested (program : Program) : List String :=
  (program.filterMap Item.request?).eraseDups

def ImportSpecifier.entry (request : String) : ImportSpecifier → ImportEntry
  | .named imported binding => ⟨request, some imported, binding⟩
  | .star binding => ⟨request, none, binding⟩

def Item.imports : Item → List ImportEntry
  | .importFrom specifier names => names.map (ImportSpecifier.entry specifier)
  | _ => []

def Program.imports (program : Program) : List ImportEntry := program.flatMap Item.imports

end Syntax

/-- One export of a program, sorted by where its binding is. -/
inductive ExportEntry where
  | own (entry : LocalExport)
  | indirect (entry : IndirectExport)
  | star (request : String)
  deriving DecidableEq, Repr

namespace ExportEntry

/-- The entry of a name in an export clause without a specifier: indirect if a named import binds
it, and local otherwise, also if it is an imported namespace. -/
def ofName (imports : List ImportEntry) (name : ExportSpecifier) : ExportEntry :=
  match imports.find? fun i => i.localName == name.source with
  | some ⟨request, some importName, _⟩ => .indirect ⟨name.exported, request, some importName⟩
  | some ⟨_, none, _⟩ | none => .own ⟨name.exported, name.source⟩

def own? : ExportEntry → Option LocalExport
  | .own e => some e
  | _ => none

def indirect? : ExportEntry → Option IndirectExport
  | .indirect e => some e
  | _ => none

def star? : ExportEntry → Option String
  | .star request => some request
  | _ => none

end ExportEntry

namespace Syntax

/-- The exports of an item, given the imports of the whole program. -/
def Item.exports (imports : List ImportEntry) : Item → List ExportEntry
  | .exportDefault exported => [.own ⟨"default", exported.localName⟩]
  | .exportNamesFrom specifier names =>
    names.map fun n => .indirect ⟨n.exported, specifier, some n.source⟩
  | .exportDeclaration declared => declared.boundNames.map fun n => .own ⟨n, n⟩
  | .exportNames names => names.map (ExportEntry.ofName imports)
  | .exportAll specifier (some name) => [.indirect ⟨name, specifier, none⟩]
  | .exportAll specifier none => [.star specifier]
  | .importFrom .. | .statement _ => []

def Program.exports (program : Program) : List ExportEntry :=
  program.flatMap (Item.exports program.imports)

/-- The declared names that an import binds too. -/
def Program.redeclared (program : Program) : List String :=
  let imported := program.imports.map (·.localName)
  (program.varNames ++ program.lexical.map (·.1)).filter imported.contains

end Syntax

/-- The record of a program and the text it was read from. -/
def SourceRecord.ofProgram (text : String) (program : Program) : Except Refusal SourceRecord :=
  match program.redeclared with
  | [] =>
    .ok
      { text
        requested := program.requested
        imports := program.imports
        localExports := program.exports.filterMap ExportEntry.own?
        indirectExports := program.exports.filterMap ExportEntry.indirect?
        starExports := program.exports.filterMap ExportEntry.star?
        varNames := program.varNames
        lexical := program.lexical
        hasAwait := program.awaits }
  | names => .error (.redeclared names)

/-- The record of a text; a text that is not a module has no program and no record. -/
def SourceRecord.ofText (text : String) : Option Program → Except Refusal SourceRecord
  | none => .error .malformed
  | some program => SourceRecord.ofProgram text program

end ModuleGraph
