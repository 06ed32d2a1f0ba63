import ModuleGraph.Syntax.BoundNames

/-! # Declared names of a module

`var` names are hoisted out of every statement but not out of functions and classes. Lexical
declarations are those of the module's own items; an anonymous default export declares
`*default*`. -/

namespace ModuleGraph.Syntax

/-- How a lexical declaration is bound. -/
inductive LexicalKind where
  | let : LexicalKind
  /-- `const`, `using` and `await using`. -/
  | const : LexicalKind
  | function : LexicalKind
  | class : LexicalKind
  /-- The value of `export default` with an expression. -/
  | default : LexicalKind
  deriving DecidableEq, Repr, Inhabited

/-- The name of a default export that has none of its own. -/
def starDefault : String := "*default*"

/-- The names bound by a variable declaration if it is a `var`. -/
def varNames (kind : VariableKind) (declarators : List Declarator) : List String :=
  if kind = .var then declaratorNames declarators else []

def Head.varNames : Head → List String
  | .variables kind declarators => Syntax.varNames kind declarators
  | _ => []

def Declaration.varNames : Declaration → List String
  | .variables kind declarators => Syntax.varNames kind declarators
  | _ => []

mutual

/-- The names that `var` declarations in a statement bind, in order and with repetitions. -/
def Stmt.varNames : Stmt → List String
  | .block body => stmtVarNames body
  | .declaration declared => declared.varNames
  | .conditional _ consequent alternate => consequent.varNames ++ optionVarNames alternate
  | .while _ body => body.varNames
  | .doWhile body _ => body.varNames
  | .for init _ _ body => init.varNames ++ body.varNames
  | .forIn left _ body => left.varNames ++ body.varNames
  | .forOf _ left _ body => left.varNames ++ body.varNames
  | .labeled body => body.varNames
  | .switch _ cases => caseVarNames cases
  | .try block _ handler finalizer =>
    stmtVarNames block ++ stmtVarNames handler ++ stmtVarNames finalizer
  | .with _ body => body.varNames
  | .simple | .expr _ | .return _ | .throw _ => []

def optionVarNames : Option Stmt → List String
  | none => []
  | some s => s.varNames

def stmtVarNames : List Stmt → List String
  | [] => []
  | s :: rest => s.varNames ++ stmtVarNames rest

def caseVarNames : List Case → List String
  | [] => []
  | .mk _ body :: rest => stmtVarNames body ++ caseVarNames rest

end

def Item.varNames : Item → List String
  | .statement s => s.varNames
  | .exportDeclaration declared => declared.varNames
  | _ => []

/-- The `var` names of a module, once each in order of first occurrence. -/
def Program.varNames (program : Program) : List String :=
  (program.flatMap Item.varNames).eraseDups

def VariableKind.lexical : VariableKind → Option LexicalKind
  | .var => none
  | .let => some .let
  | .const | .using | .awaitUsing => some .const

/-- The lexical names of a declaration with their kinds. -/
def Declaration.lexical (declared : Declaration) : List (String × LexicalKind) :=
  match declared with
  | .variables kind declarators =>
    match kind.lexical with
    | some k => (declaratorNames declarators).map (·, k)
    | none => []
  | .function name _ => name.toList.map (·, .function)
  | .class name _ => name.toList.map (·, .class)

/-- The local name behind a default export. -/
def DefaultExport.localName : DefaultExport → String
  | .declaration (.function name _) => name.getD starDefault
  | .declaration (.class name _) => name.getD starDefault
  | .declaration (.variables ..) | .expr _ => starDefault

def DefaultExport.kind : DefaultExport → LexicalKind
  | .declaration (.function ..) => .function
  | .declaration (.class ..) => .class
  | .declaration (.variables ..) | .expr _ => .default

def Item.lexical : Item → List (String × LexicalKind)
  | .statement (.declaration declared) => declared.lexical
  | .exportDeclaration declared => declared.lexical
  | .exportDefault exported => [(exported.localName, exported.kind)]
  | _ => []

/-- The lexical declarations of a module, imports excluded. -/
def Program.lexical (program : Program) : List (String × LexicalKind) :=
  program.flatMap Item.lexical

end ModuleGraph.Syntax
