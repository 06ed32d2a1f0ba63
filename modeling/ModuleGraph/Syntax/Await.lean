import ModuleGraph.Syntax.Tree

/-! # Top-level await

A module is asynchronous when an `await` expression, a `for await` statement or an `await using`
declaration stands in the module's own code. Functions are code of their own, and of a class only
the heritage and the computed keys of its members are looked at. -/

namespace ModuleGraph.Syntax

mutual

def Expr.awaits : Expr → Bool
  | .atom => false
  | .name _ => false
  | .await _ => true
  | .yield operand => optionAwaits operand
  | .unary operand => operand.awaits
  | .binary left right => left.awaits || right.awaits
  | .assign target value => target.awaits || value.awaits
  | .conditional test consequent alternate => test.awaits || consequent.awaits || alternate.awaits
  | .call callee arguments => callee.awaits || anyAwaits arguments
  | .member object => object.awaits
  | .index object key => object.awaits || key.awaits
  | .group inner => inner.awaits
  | .spread inner => inner.awaits
  | .sequence parts => anyAwaits parts
  | .array elements => anyElementAwaits elements
  | .object properties => anyPropertyAwaits properties
  | .template substitutions => anyAwaits substitutions
  | .tagged tag substitutions => tag.awaits || anyAwaits substitutions
  | .importCall specifier options => specifier.awaits || optionAwaits options
  | .function _ => false
  | .class definition => definition.awaits

def optionAwaits : Option Expr → Bool
  | none => false
  | some e => e.awaits

def anyAwaits : List Expr → Bool
  | [] => false
  | e :: rest => e.awaits || anyAwaits rest

def anyElementAwaits : List (Option Expr) → Bool
  | [] => false
  | e :: rest => optionAwaits e || anyElementAwaits rest

def Property.awaits : Property → Bool
  | .entry key value => optionAwaits key || value.awaits
  | .spread value => value.awaits

def anyPropertyAwaits : List Property → Bool
  | [] => false
  | p :: rest => p.awaits || anyPropertyAwaits rest

def Pattern.awaits : Pattern → Bool
  | .name _ => false
  | .place place => place.awaits
  | .object fields rest => anyFieldAwaits fields || patternAwaits rest
  | .array elements rest => anyPatternAwaits elements || patternAwaits rest
  | .withDefault target value => target.awaits || value.awaits

def patternAwaits : Option Pattern → Bool
  | none => false
  | some p => p.awaits

def anyPatternAwaits : List (Option Pattern) → Bool
  | [] => false
  | p :: rest => patternAwaits p || anyPatternAwaits rest

def Field.awaits : Field → Bool
  | .mk key value => optionAwaits key || value.awaits

def anyFieldAwaits : List Field → Bool
  | [] => false
  | f :: rest => f.awaits || anyFieldAwaits rest

def Class.awaits : Class → Bool
  | .mk _ heritage members => optionAwaits heritage || anyMemberAwaits members

def Member.awaits : Member → Bool
  | .method _ key _ => optionAwaits key
  | .field _ key _ => optionAwaits key
  | .staticBlock _ => false

def anyMemberAwaits : List Member → Bool
  | [] => false
  | m :: rest => m.awaits || anyMemberAwaits rest

end

def Declarator.awaits : Declarator → Bool
  | .mk target init => target.awaits || optionAwaits init

/-- Whether a variable declaration awaits; `await using` does so whatever it declares. -/
def variablesAwait (kind : VariableKind) (declarators : List Declarator) : Bool :=
  kind == .awaitUsing || declarators.any Declarator.awaits

def Declaration.awaits : Declaration → Bool
  | .variables kind declarators => variablesAwait kind declarators
  | .function _ _ => false
  | .class _ definition => definition.awaits

def Head.awaits : Head → Bool
  | .absent => false
  | .variables kind declarators => variablesAwait kind declarators
  | .expr value => value.awaits
  | .pattern target => target.awaits

mutual

def Stmt.awaits : Stmt → Bool
  | .simple => false
  | .expr value => value.awaits
  | .block body => anyStmtAwaits body
  | .declaration declared => declared.awaits
  | .conditional test consequent alternate =>
    test.awaits || consequent.awaits || stmtAwaits alternate
  | .while test body => test.awaits || body.awaits
  | .doWhile body test => body.awaits || test.awaits
  | .for init test update body =>
    init.awaits || optionAwaits test || optionAwaits update || body.awaits
  | .forIn left right body => left.awaits || right.awaits || body.awaits
  | .forOf awaiting left right body => awaiting || left.awaits || right.awaits || body.awaits
  | .labeled body => body.awaits
  | .return value => optionAwaits value
  | .throw value => value.awaits
  | .switch discriminant cases => discriminant.awaits || anyCaseAwaits cases
  | .try block parameter handler finalizer =>
    anyStmtAwaits block || patternAwaits parameter || anyStmtAwaits handler ||
      anyStmtAwaits finalizer
  | .with object body => object.awaits || body.awaits

def stmtAwaits : Option Stmt → Bool
  | none => false
  | some s => s.awaits

def anyStmtAwaits : List Stmt → Bool
  | [] => false
  | s :: rest => s.awaits || anyStmtAwaits rest

def anyCaseAwaits : List Case → Bool
  | [] => false
  | .mk test body :: rest => optionAwaits test || anyStmtAwaits body || anyCaseAwaits rest

end

def DefaultExport.awaits : DefaultExport → Bool
  | .declaration declared => declared.awaits
  | .expr value => value.awaits

def Item.awaits : Item → Bool
  | .statement s => s.awaits
  | .exportDeclaration declared => declared.awaits
  | .exportDefault exported => exported.awaits
  | .importFrom .. | .exportNames .. | .exportNamesFrom .. | .exportAll .. => false

def Program.awaits (program : Program) : Bool := program.any Item.awaits

end ModuleGraph.Syntax
