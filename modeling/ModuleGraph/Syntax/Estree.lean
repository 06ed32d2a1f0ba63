import ModuleGraph.Syntax.Tree
import ModuleGraph.Json.Basic

/-! # Trees from ESTree JSON

The interchange format writes each node as an object with a `type`. Fields that would hold `null`,
`false` or an empty list may be left out. A node of an unknown type has no parts. -/

namespace ModuleGraph.Syntax.Estree

def nodeType (j : Json) : String := (j.text? "type").getD ""

/-- The name of an identifier, or the text of a string literal. -/
def nameOf (j : Json) : String := ((j.text? "name").orElse fun _ => j.text? "value").getD ""

def nameField (key : String) (j : Json) : String := ((j.get? key).map nameOf).getD ""

def variableKind (j : Json) : VariableKind :=
  match j.text? "kind" with
  | some "let" => .let
  | some "const" => .const
  | some "using" => .using
  | some "await using" => .awaitUsing
  | _ => .var

def isBlock (j : Json) : Bool := nodeType j = "BlockStatement" || nodeType j = "FunctionBody"

mutual

/-- An expression of at most the given depth. -/
def expr : Nat → Json → Expr
  | 0, _ => .atom
  | fuel + 1, j =>
    let part (key : String) : Expr := ((j.get? key).map (expr fuel)).getD .atom
    let part? (key : String) : Option Expr := (j.get? key).map (expr fuel)
    let parts (key : String) : List Expr := (j.list key).map (expr fuel)
    match nodeType j with
    | "Identifier" => .name (nameOf j)
    | "AwaitExpression" => .await (part "argument")
    | "YieldExpression" => .yield (part? "argument")
    | "UnaryExpression" | "UpdateExpression" => .unary (part "argument")
    | "BinaryExpression" | "LogicalExpression" => .binary (part "left") (part "right")
    | "AssignmentExpression" =>
      .assign (((j.get? "left").map (pattern fuel)).getD default) (part "right")
    | "ConditionalExpression" =>
      .conditional (part "test") (part "consequent") (part "alternate")
    | "CallExpression" | "NewExpression" => .call (part "callee") (parts "arguments")
    | "MemberExpression" =>
      if j.flag "computed" then .index (part "object") (part "property")
      else .member (part "object")
    | "ParenthesizedExpression" | "ChainExpression" => .group (part "expression")
    | "SpreadElement" => .spread (part "argument")
    | "SequenceExpression" => .sequence (parts "expressions")
    | "ArrayExpression" => .array ((j.list "elements").map (element fuel))
    | "ObjectExpression" => .object ((j.list "properties").map (property fuel))
    | "TemplateLiteral" => .template (parts "expressions")
    | "TaggedTemplateExpression" =>
      .tagged (part "tag") (((j.get? "quasi").map (Json.list "expressions")).getD []
        |>.map (expr fuel))
    | "ImportExpression" => .importCall (part "source") (part? "options")
    | "FunctionExpression" | "ArrowFunctionExpression" => .function (function fuel j)
    | "ClassExpression" => .class (classBody fuel j)
    | _ => .atom

/-- An array element; `null` is a hole. -/
def element : Nat → Json → Option Expr
  | 0, _ => none
  | fuel + 1, j =>
    match j with
    | .null => none
    | j => some (expr fuel j)

def key : Nat → Json → Option Expr
  | 0, _ => none
  | fuel + 1, j => if j.flag "computed" then (j.get? "key").map (expr fuel) else none

def property : Nat → Json → Property
  | 0, _ => .spread .atom
  | fuel + 1, j =>
    if nodeType j = "SpreadElement" then .spread (((j.get? "argument").map (expr fuel)).getD .atom)
    else .entry (key fuel j) (((j.get? "value").map (expr fuel)).getD .atom)

def pattern : Nat → Json → Pattern
  | 0, _ => default
  | fuel + 1, j =>
    let rest := fun (parts : List Json) =>
      (parts.find? fun p => nodeType p = "RestElement").bind fun p =>
        (p.get? "argument").map (pattern fuel)
    let others := fun (parts : List Json) => parts.filter fun p => nodeType p != "RestElement"
    match nodeType j with
    | "Identifier" => .name (nameOf j)
    | "ObjectPattern" =>
      let parts := j.list "properties"
      .object ((others parts).map (field fuel)) (rest parts)
    | "ArrayPattern" =>
      let parts := j.list "elements"
      .array ((others parts).map (slot fuel)) (rest parts)
    | "AssignmentPattern" =>
      .withDefault (((j.get? "left").map (pattern fuel)).getD default)
        (((j.get? "right").map (expr fuel)).getD .atom)
    | "RestElement" => ((j.get? "argument").map (pattern fuel)).getD default
    | _ => .place (expr fuel j)

def slot : Nat → Json → Option Pattern
  | 0, _ => none
  | fuel + 1, j =>
    match j with
    | .null => none
    | j => some (pattern fuel j)

def field : Nat → Json → Field
  | 0, _ => .mk none default
  | fuel + 1, j => .mk (key fuel j) (((j.get? "value").map (pattern fuel)).getD default)

def function : Nat → Json → Function
  | 0, _ => .mk [] []
  | fuel + 1, j =>
    let body := match j.get? "body" with
      | some b =>
        if isBlock b then (b.list "body").map (stmt fuel) else [.return (some (expr fuel b))]
      | none => []
    .mk ((j.list "params").map (pattern fuel)) body

def decorators : Nat → Json → List Expr
  | 0, _ => []
  | fuel + 1, j =>
    (j.list "decorators").map fun d => ((d.get? "expression").map (expr fuel)).getD .atom

def classBody : Nat → Json → Class
  | 0, _ => .mk [] none []
  | fuel + 1, j =>
    let members := ((j.get? "body").map (Json.list "body")).getD []
    .mk (decorators fuel j) ((j.get? "superClass").map (expr fuel)) (members.map (member fuel))

def member : Nat → Json → Member
  | 0, _ => .staticBlock []
  | fuel + 1, j =>
    match nodeType j with
    | "StaticBlock" => .staticBlock ((j.list "body").map (stmt fuel))
    | "MethodDefinition" =>
      .method (decorators fuel j) (key fuel j) (((j.get? "value").map (function fuel)).getD default)
    | _ => .field (decorators fuel j) (key fuel j) ((j.get? "value").map (expr fuel))

def declarators : Nat → Json → List Declarator
  | 0, _ => []
  | fuel + 1, j =>
    (j.list "declarations").map fun d =>
      .mk (((d.get? "id").map (pattern fuel)).getD default) ((d.get? "init").map (expr fuel))

/-- A declaration, if the node is one. -/
def declaration : Nat → Json → Option Declaration
  | 0, _ => none
  | fuel + 1, j =>
    let name := (j.get? "id").map nameOf
    match nodeType j with
    | "VariableDeclaration" => some (.variables (variableKind j) (declarators fuel j))
    | "FunctionDeclaration" => some (.function name (function fuel j))
    | "ClassDeclaration" => some (.class name (classBody fuel j))
    | _ => none

/-- The first part of a `for` head: a declaration, a pattern to assign to, or an expression. -/
def head : Nat → Bool → Option Json → Head
  | 0, _, _ => .absent
  | _ + 1, _, none => .absent
  | fuel + 1, assigned, some j =>
    if nodeType j = "VariableDeclaration" then .variables (variableKind j) (declarators fuel j)
    else if assigned then .pattern (pattern fuel j)
    else .expr (expr fuel j)

def case : Nat → Json → Case
  | 0, _ => .mk none []
  | fuel + 1, j => .mk ((j.get? "test").map (expr fuel)) ((j.list "consequent").map (stmt fuel))

def stmt : Nat → Json → Stmt
  | 0, _ => .simple
  | fuel + 1, j =>
    let part (key : String) : Expr := ((j.get? key).map (expr fuel)).getD .atom
    let part? (key : String) : Option Expr := (j.get? key).map (expr fuel)
    let body (key : String) : Stmt := ((j.get? key).map (stmt fuel)).getD .simple
    let block (j : Option Json) : List Stmt := ((j.map (Json.list "body")).getD []).map (stmt fuel)
    match nodeType j with
    | "ExpressionStatement" => .expr (part "expression")
    | "BlockStatement" => .block (block (some j))
    | "IfStatement" =>
      .conditional (part "test") (body "consequent") ((j.get? "alternate").map (stmt fuel))
    | "WhileStatement" => .while (part "test") (body "body")
    | "DoWhileStatement" => .doWhile (body "body") (part "test")
    | "ForStatement" =>
      .for (head fuel false (j.get? "init")) (part? "test") (part? "update") (body "body")
    | "ForInStatement" => .forIn (head fuel true (j.get? "left")) (part "right") (body "body")
    | "ForOfStatement" =>
      .forOf (j.flag "await") (head fuel true (j.get? "left")) (part "right") (body "body")
    | "LabeledStatement" => .labeled (body "body")
    | "ReturnStatement" => .return (part? "argument")
    | "ThrowStatement" => .throw (part "argument")
    | "SwitchStatement" => .switch (part "discriminant") ((j.list "cases").map (case fuel))
    | "TryStatement" =>
      let handler := j.get? "handler"
      .try (block (j.get? "block")) ((handler.bind (Json.get? "param")).map (pattern fuel))
        (block (handler.bind (Json.get? "body"))) (block (j.get? "finalizer"))
    | "WithStatement" => .with (part "object") (body "body")
    | _ =>
      match declaration fuel j with
      | some d => .declaration d
      | none => .simple

end

def importSpecifier (j : Json) : ImportSpecifier :=
  let binding := nameField "local" j
  match nodeType j with
  | "ImportNamespaceSpecifier" => .star binding
  | "ImportDefaultSpecifier" => .named "default" binding
  | _ => .named (nameField "imported" j) binding

def exportSpecifier (j : Json) : ExportSpecifier := ⟨nameField "local" j, nameField "exported" j⟩

def item (fuel : Nat) (j : Json) : Item :=
  let source := nameField "source" j
  match nodeType j with
  | "ImportDeclaration" => .importFrom source ((j.list "specifiers").map importSpecifier)
  | "ExportAllDeclaration" => .exportAll source ((j.get? "exported").map nameOf)
  | "ExportDefaultDeclaration" =>
    let exported := (j.get? "declaration").getD .null
    match declaration fuel exported with
    | some d => .exportDefault (.declaration d)
    | none => .exportDefault (.expr (expr fuel exported))
  | "ExportNamedDeclaration" =>
    let names := (j.list "specifiers").map exportSpecifier
    match j.get? "source", (j.get? "declaration").bind (declaration fuel) with
    | some _, _ => .exportNamesFrom source names
    | none, some d => .exportDeclaration d
    | none, none => .exportNames names
  | _ => .statement (stmt fuel j)

/-- The program of a `Program` node. On the way down no node is visited more than four times. -/
def program (j : Json) : Program := (j.list "body").map (item (4 * j.height))

end ModuleGraph.Syntax.Estree
