/-! # Syntax trees of modules

The trees keep what the static rules of modules look at: which names a pattern binds, which parts
belong to the code around a function or a class, and where imports and exports stand. Names of
operators, labels and literal values are left out. -/

namespace ModuleGraph.Syntax

inductive VariableKind where
  | var
  | let
  | const
  | using
  | awaitUsing
  deriving DecidableEq, Repr, Inhabited

mutual

inductive Expr where
  /-- A literal, `this`, `super`, a private name or a meta property. -/
  | atom
  | name (name : String)
  | await (operand : Expr)
  | yield (operand : Option Expr)
  /-- A unary or update expression. -/
  | unary (operand : Expr)
  /-- A binary or logical expression. -/
  | binary (left right : Expr)
  | assign (target : Pattern) (value : Expr)
  | conditional (test consequent alternate : Expr)
  /-- A call or a `new` expression. -/
  | call (callee : Expr) (arguments : List Expr)
  /-- `object.name` or `object.#name`. -/
  | member (object : Expr)
  | index (object key : Expr)
  /-- A parenthesized expression or an optional chain. -/
  | group (inner : Expr)
  | spread (inner : Expr)
  | sequence (parts : List Expr)
  /-- The elements of an array; a hole is `none`. -/
  | array (elements : List (Option Expr))
  | object (properties : List Property)
  | template (substitutions : List Expr)
  | tagged (tag : Expr) (substitutions : List Expr)
  | importCall (specifier : Expr) (options : Option Expr)
  | function (definition : Function)
  | class (definition : Class)

inductive Property where
  /-- A property; only a computed key is an expression. -/
  | entry (key : Option Expr) (value : Expr)
  | spread (value : Expr)

inductive Pattern where
  | name (name : String)
  /-- A place that is assigned to and binds no name. -/
  | place (place : Expr)
  | object (fields : List Field) (rest : Option Pattern)
  | array (elements : List (Option Pattern)) (rest : Option Pattern)
  | withDefault (target : Pattern) (value : Expr)

inductive Field where
  | mk (key : Option Expr) (value : Pattern)

/-- Parameters and body; an arrow function with an expression for a body returns it. -/
inductive Function where
  | mk (parameters : List Pattern) (body : List Stmt)

inductive Class where
  | mk (decorators : List Expr) (heritage : Option Expr) (members : List Member)

inductive Member where
  | method (decorators : List Expr) (key : Option Expr) (body : Function)
  /-- A field or an accessor with its initial value. -/
  | field (decorators : List Expr) (key : Option Expr) (value : Option Expr)
  | staticBlock (body : List Stmt)

inductive Declarator where
  | mk (target : Pattern) (init : Option Expr)

/-- A declaration; only a default export leaves the name out. -/
inductive Declaration where
  | variables (kind : VariableKind) (declarators : List Declarator)
  | function (name : Option String) (definition : Function)
  | class (name : Option String) (definition : Class)

/-- What stands first in the head of a `for` statement. -/
inductive Head where
  | absent
  | variables (kind : VariableKind) (declarators : List Declarator)
  | expr (value : Expr)
  | pattern (target : Pattern)

inductive Case where
  | mk (test : Option Expr) (body : List Stmt)

inductive Stmt where
  /-- An empty, `debugger`, `break` or `continue` statement. -/
  | simple
  | expr (value : Expr)
  | block (body : List Stmt)
  | declaration (declared : Declaration)
  | conditional (test : Expr) (consequent : Stmt) (alternate : Option Stmt)
  | while (test : Expr) (body : Stmt)
  | doWhile (body : Stmt) (test : Expr)
  | for (init : Head) (test update : Option Expr) (body : Stmt)
  | forIn (left : Head) (right : Expr) (body : Stmt)
  | forOf (awaiting : Bool) (left : Head) (right : Expr) (body : Stmt)
  | labeled (body : Stmt)
  | return (value : Option Expr)
  | throw (value : Expr)
  | switch (discriminant : Expr) (cases : List Case)
  /-- The parts that are absent are empty. -/
  | try (block : List Stmt) (parameter : Option Pattern) (handler finalizer : List Stmt)
  | with (object : Expr) (body : Stmt)

end

instance : Inhabited Expr := ⟨.atom⟩
instance : Inhabited Pattern := ⟨.name ""⟩
instance : Inhabited Function := ⟨.mk [] []⟩
instance : Inhabited Class := ⟨.mk [] none []⟩
instance : Inhabited Stmt := ⟨.simple⟩

inductive ImportSpecifier where
  /-- `imported as binding`; a default import imports `default`. -/
  | named (imported binding : String)
  /-- `* as binding`. -/
  | star (binding : String)
  deriving DecidableEq, Repr

/-- `source as exported` in an export clause. -/
structure ExportSpecifier where
  source : String
  exported : String
  deriving DecidableEq, Repr

/-- What `export default` exports. -/
inductive DefaultExport where
  | declaration (declared : Declaration)
  | expr (value : Expr)

inductive Item where
  | statement (statement : Stmt)
  | importFrom (specifier : String) (names : List ImportSpecifier)
  | exportDeclaration (declared : Declaration)
  | exportNames (names : List ExportSpecifier)
  | exportNamesFrom (specifier : String) (names : List ExportSpecifier)
  /-- `export *`, or `export * as name`. -/
  | exportAll (specifier : String) (name : Option String)
  | exportDefault (exported : DefaultExport)

abbrev Program := List Item

end ModuleGraph.Syntax
