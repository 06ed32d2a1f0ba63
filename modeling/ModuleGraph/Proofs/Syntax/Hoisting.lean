import ModuleGraph.Proofs.Computation
import ModuleGraph.Proofs.Syntax.Occurrences
import ModuleGraph.Proofs.Syntax.Parts
import ModuleGraph.FileSystem.Loader

/-! # Hoisted names and redeclarations

The `var` names of a module are those that a walk through it meets in `var` declarations, where the
walk enters neither functions nor classes. A program that binds an imported name once more has no
record; its refusal names each `var` name and each lexical declaration that clashes. -/

namespace ModuleGraph

namespace Syntax

theorem fieldNames_eq (fs : List Field) : fieldNames fs = fs.flatMap Field.boundNames := by
  induction fs with
  | nil => rfl
  | cons f rest ih => simp [fieldNames, ih]

theorem restNames_eq (p : Option Pattern) : restNames p = p.toList.flatMap Pattern.boundNames := by
  cases p <;> simp [restNames]

theorem elementNames_eq (ps : List (Option Pattern)) :
    elementNames ps = (ps.filterMap id).flatMap Pattern.boundNames := by
  induction ps with
  | nil => rfl
  | cons p rest ih => cases p <;> simp [elementNames, restNames, ih]

theorem filterMap_map {α β : Type} (f : α → β) (os : List (Option α)) :
    os.filterMap (·.map f) = (os.filterMap id).map f := by
  simp [List.map_filterMap]

theorem stmtVarNames_eq (ss : List Stmt) : stmtVarNames ss = ss.flatMap Stmt.varNames := by
  induction ss with
  | nil => rfl
  | cons s rest ih => simp [stmtVarNames, ih]

theorem optionVarNames_eq (s : Option Stmt) :
    optionVarNames s = s.toList.flatMap Stmt.varNames := by
  cases s <;> simp [optionVarNames]

def Case.varNames : Case → List String
  | .mk _ body => stmtVarNames body

theorem caseVarNames_eq (cs : List Case) : caseVarNames cs = cs.flatMap Case.varNames := by
  induction cs with
  | nil => rfl
  | cons c rest ih => cases c; simp [caseVarNames, Case.varNames, ih]

namespace Node

/-! ## Names that a declaration binds -/

def isExpr : Node → Bool
  | .expr _ => true
  | _ => false

def binding : Node → List String
  | .pattern (.name n) => [n]
  | _ => []

def boundNames : Node → List String
  | .pattern p => p.boundNames
  | .field f => f.boundNames
  | .variables _ declarators => declaratorNames declarators
  | .declarator d => d.boundNames
  | _ => []

/-- The nodes that make up a variable declaration, apart from its expressions. -/
def isBinder : Node → Bool
  | .pattern _ | .field _ | .variables .. | .declarator _ => true
  | _ => false

theorem isBinder_part {n p : Node} (h : n.isBinder = true) (hp : p ∈ n.parts)
    (hs : p.isExpr = false) : p.isBinder = true := by
  cases n with
  | pattern target => cases target <;> simp [parts, patternParts] at hp <;> grind [isExpr, isBinder]
  | field f => cases f; simp [parts] at hp; grind [isExpr, isBinder]
  | «variables» kind ds => simp [parts] at hp; grind [isExpr, isBinder]
  | declarator d => cases d; simp [parts] at hp; grind [isExpr, isBinder]
  | _ => simp [isBinder] at h

theorem boundNames_parts {n : Node} (h : n.isBinder = true) :
    n.boundNames =
      n.binding ++ n.parts.flatMap fun p => if p.isExpr then [] else p.boundNames := by
  cases n with
  | pattern target =>
    cases target <;> simp [parts, patternParts, boundNames, Pattern.boundNames, binding, isExpr,
      fieldNames_eq, restNames_eq, elementNames_eq, filterMap_map, List.flatMap_map]
  | field f =>
    cases f
    simp [parts, boundNames, Field.boundNames, binding, isExpr, List.flatMap_map]
  | «variables» kind ds =>
    simp [parts, boundNames, declaratorNames, binding, isExpr, List.flatMap_map]
  | declarator d =>
    cases d
    simp [parts, boundNames, Declarator.boundNames, binding, isExpr, List.flatMap_map]
  | _ => simp [isBinder] at h

/-- The names bound by declarators are the identifiers in their patterns outside of expressions. -/
theorem declaratorNames_eq_walk (kind : VariableKind) (ds : List Declarator) :
    ((Node.variables kind ds).walk isExpr).flatMap binding = declaratorNames ds := 
  flatMap_walk (g := boundNames) (fun _ hn _ => isBinder_part hn)
    (fun _ => boundNames_parts) _ rfl

/-! ## `var` names -/

/-- Functions and classes, out of which no `var` name is hoisted. -/
def isEnclosed : Node → Bool
  | .function _ | .class _ => true
  | _ => false

def hoisted : Node → List String
  | .variables .var ds => ((Node.variables .var ds).walk isExpr).flatMap binding
  | _ => []

def varNames : Node → List String
  | .variables kind ds => Syntax.varNames kind ds
  | .declaration d => d.varNames
  | .head h => h.varNames
  | .case c => c.varNames
  | .stmt s => s.varNames
  | .item i => i.varNames
  | _ => []

/-- The nodes around functions and classes. What `export default` declares is one of these. -/
def isAround : Node → Bool
  | .function _ | .class _ | .member _ | .staticBlock _ => false
  | .item (.exportDefault (.declaration (.variables ..))) => false
  | _ => true

theorem isAround_part {n p : Node} (h : n.isAround = true) (hp : p ∈ n.parts)
    (hs : p.isEnclosed = false) : p.isAround = true := by
  cases n with
  | expr e => cases e <;> simp [parts, exprParts] at hp <;> grind [isAround, isEnclosed]
  | stmt s => cases s <;> simp [parts, stmtParts] at hp <;> grind [isAround]
  | pattern target => cases target <;> simp [parts, patternParts] at hp <;> grind [isAround]
  | property entry => cases entry <;> simp [parts] at hp <;> grind [isAround]
  | declaration declared =>
    cases declared <;> simp [parts, declarationParts] at hp <;> grind [isAround, isEnclosed]
  | head first => cases first <;> simp [parts, headParts] at hp <;> grind [isAround]
  | item i =>
    rcases i with _ | _ | _ | _ | _ | _ | ⟨_ | _⟩ <;> simp [parts, itemParts] at hp <;>
      grind [isAround]
  | field part | declarator part | case part =>
    cases part
    simp [parts] at hp
    grind [isAround]
  | function | «class» | member | staticBlock => simp [isAround] at h
  | _ => simp [parts] at hp; grind [isAround]

/-- A node around functions and classes has the `var` names that it binds and those of its parts
that are not enclosed. -/
theorem varNames_parts {n : Node} (h : n.isAround = true) :
    n.varNames =
      n.hoisted ++ n.parts.flatMap fun p => if p.isEnclosed then [] else p.varNames := by
  cases n with
  | expr e => cases e <;> simp [parts, exprParts, varNames, hoisted, isEnclosed, List.flatMap_map]
  | stmt s =>
    cases s <;> simp [parts, stmtParts, varNames, hoisted, isEnclosed, List.flatMap_map,
      Stmt.varNames, stmtVarNames_eq, optionVarNames_eq, caseVarNames_eq,
      List.flatMap_eq_nil_iff.2]
  | pattern target =>
    cases target <;> simp [parts, patternParts, varNames, hoisted, isEnclosed, filterMap_map]
  | property entry => cases entry <;> simp [parts, varNames, hoisted, isEnclosed]
  | declaration declared =>
    cases declared <;> simp [parts, declarationParts, varNames, hoisted, isEnclosed,
      Declaration.varNames]
  | head first =>
    cases first <;> simp [parts, headParts, varNames, hoisted, isEnclosed, Head.varNames]
  | item i =>
    rcases i with _ | _ | _ | _ | _ | _ | ⟨(_ | _ | _) | _⟩ <;>
      simp_all [parts, itemParts, varNames, hoisted, isEnclosed, Item.varNames, isAround,
        Declaration.varNames]
  | «variables» kind ds =>
    cases kind <;> simp [parts, varNames, hoisted, isEnclosed, List.flatMap_map, Syntax.varNames,
      declaratorNames_eq_walk]
  | case c =>
    cases c
    simp [parts, varNames, hoisted, isEnclosed, List.flatMap_map, Case.varNames, stmtVarNames_eq]
  | field part | declarator part =>
    cases part
    simp [parts, varNames, hoisted, isEnclosed, List.flatMap_map]
  | function | «class» | member | staticBlock => simp [isAround] at h
  | _ => simp [parts, varNames, hoisted, isEnclosed]

end Node

/-! ## Redeclarations -/

/-- The names that a declaration binds lexically: all but those of a `var` declaration. -/
def Declaration.lexicalNames : Declaration → List String
  | .variables .var _ => []
  | .variables kind ds => ((Node.variables kind ds).walk Node.isExpr).flatMap Node.binding
  | .function name _ | .class name _ => name.toList

def Item.lexicalNames : Item → List String
  | .statement (.declaration d) | .exportDeclaration d | .exportDefault (.declaration d) =>
    d.lexicalNames
  | _ => []

def Program.lexicalNames (program : Program) : List String := program.flatMap Item.lexicalNames

def Program.importedNames (program : Program) : List String := program.imports.map (·.localName)

/-- What the grammar says of a module: variables have no default export, and `*default*` is no
identifier. -/
structure Program.Grammatical (program : Program) : Prop where
  defaults : ∀ kind ds, Item.exportDefault (.declaration (.variables kind ds)) ∉ program
  identifiers : starDefault ∉ program.importedNames

variable {program : Program}

theorem Program.Grammatical.isAround (h : program.Grammatical) {i : Item} (hi : i ∈ program) :
    (Node.item i).isAround = true := by
  rcases i with _ | _ | _ | _ | _ | _ | ⟨(_ | _ | _) | _⟩ <;> try rfl
  exact absurd hi (h.defaults _ _)

/-- The `var` names are those bound by the `var` declarations outside of functions and classes. -/
theorem Program.Grammatical.enumerates_varNames (h : program.Grammatical) :
    Enumerates program.varNames ((program.nodes Node.isEnclosed).flatMap Node.hoisted) := by
  have walked : (program.nodes Node.isEnclosed).flatMap Node.hoisted =
      program.flatMap Item.varNames := by
    rw [Program.nodes, List.flatMap_assoc, List.flatMap, List.flatMap]
    congr 1
    apply List.map_congr_left
    intro i hi
    exact Node.flatMap_walk (g := Node.varNames) (fun _ hn _ => Node.isAround_part hn)
      (fun _ => Node.varNames_parts) _ (h.isAround hi)
  rw [walked]
  exact enumerates_eraseDups _

theorem Declaration.lexical_names (d : Declaration) : d.lexical.map (·.1) = d.lexicalNames := by
  cases d with
  | «variables» kind ds =>
    cases kind <;> simp [Declaration.lexical, VariableKind.lexical, Declaration.lexicalNames,
      Node.declaratorNames_eq_walk, Function.comp_def]
  | function name definition | «class» name definition =>
    simp [Declaration.lexical, Declaration.lexicalNames, Function.comp_def]

/-- Apart from `*default*`, a program has the lexical names of its declarations. -/
theorem Program.Grammatical.filter_lexical (h : program.Grammatical) :
    (program.lexical.map (·.1)).filter program.importedNames.contains =
      program.lexicalNames.filter program.importedNames.contains := by
  have anonymous := h.identifiers
  rw [Program.lexical, Program.lexicalNames, List.map_flatMap, List.filter_flatMap,
    List.filter_flatMap, List.flatMap, List.flatMap]
  congr 1
  apply List.map_congr_left
  intro i hi
  have regular := h.isAround hi
  rcases i with (_ | _ | _ | _) | _ | _ | _ | _ | _ | ⟨(_ | ⟨_ | _, _⟩ | ⟨_ | _, _⟩) | _⟩ <;>
    simp_all [Item.lexical, Item.lexicalNames, Declaration.lexical_names, Node.isAround,
      DefaultExport.localName, Declaration.lexicalNames]

theorem Program.Grammatical.redeclared_eq (h : program.Grammatical) :
    program.redeclared =
      (program.varNames ++ program.lexicalNames).filter program.importedNames.contains := by
  rw [Program.redeclared, List.filter_append, List.filter_append]
  exact congrArg _ h.filter_lexical

end Syntax

open Syntax

variable {program : Program}

theorem SourceRecord.ofProgram_error {text : String} {r : Refusal} :
    SourceRecord.ofProgram text program = .error r ↔
      program.redeclared ≠ [] ∧ r = .redeclared program.redeclared := by
  rw [SourceRecord.ofProgram]
  cases program.redeclared <;> simp [eq_comm]

/-- A file whose program is refused makes no module. -/
theorem FileSystem.loadFile_refused {s : Desk} {p : Place} {text : String}
    {parsed : Option Program} {r : Refusal} (hnew : s.host.loaded.get? p = none)
    (hread : s.host.tree.read p = .ok (text, parsed))
    (hr : SourceRecord.ofText text parsed = .error r) :
    ∃ e s', loadFile p s = some (.error e, s') ∧ s'.modules = s.modules := by
  simp only [loadFile, Act.view_bind, hnew, hread, hr, note, Act.update_bind, Act.fail_apply]
  exact ⟨_, _, rfl, rfl⟩

/-- The `var` names of a module are listed once each as its text has them. A module is refused if
an imported name is among them or is bound by one of its lexical declarations. There is one message
for each `var` name and for each lexical declaration of such a name, and no module is made. -/
theorem Syntax.Program.Grammatical.redeclarations_refused (h : program.Grammatical)
    (text : String) :
    Enumerates program.varNames ((program.nodes Node.isEnclosed).flatMap Node.hoisted) ∧
      ((∃ r, SourceRecord.ofText text (some program) = .error r) ↔
        ∃ n ∈ program.importedNames, n ∈ program.varNames ∨ n ∈ program.lexicalNames) ∧
      ∀ r, SourceRecord.ofText text (some program) = .error r →
        r.messages =
          (((program.varNames ++ program.lexicalNames).filter program.importedNames.contains).map
            fun n => "Identifier \x60" ++ n ++ "\x60 has already been declared") ∧
        ∀ (s : FileSystem.Desk) (p : FileSystem.Place), s.host.loaded.get? p = none →
          s.host.tree.read p = .ok (text, some program) →
          ∃ e s', FileSystem.loadFile p s = some (.error e, s') ∧ s'.modules = s.modules := by
  refine ⟨h.enumerates_varNames, ?_, ?_⟩
  · simp only [SourceRecord.ofText, SourceRecord.ofProgram_error, h.redeclared_eq, exists_and_left,
      exists_eq, and_true, ne_eq, List.filter_eq_nil_iff]
    simp only [List.contains_iff_mem, List.mem_append]
    grind
  · intro r hr
    constructor
    · obtain ⟨-, rfl⟩ := SourceRecord.ofProgram_error.1 hr
      rw [Refusal.messages, h.redeclared_eq]
    · intro s p hnew hread
      exact FileSystem.loadFile_refused hnew hread hr

/-- The program `import { a } from "m"; { var a; }` is refused. -/
theorem Syntax.Program.refused_var_of_import :
    ∃ r, SourceRecord.ofText "" (some [.importFrom "m" [.named "a" "a"],
      .statement (.block [.declaration (.variables .var [.mk (.name "a") none])])]) =
        .error r := by
  have grammatical : Program.Grammatical [.importFrom "m" [.named "a" "a"],
      .statement (.block [.declaration (.variables .var [.mk (.name "a") none])])] :=
    ⟨by simp, by decide⟩
  refine (grammatical.redeclarations_refused "").2.1.2 ⟨"a", by decide, .inl ?_⟩
  simp [Program.varNames, Item.varNames, Stmt.varNames, stmtVarNames, Declaration.varNames,
    Syntax.varNames, declaratorNames, Declarator.boundNames, Pattern.boundNames]

end ModuleGraph
