import ModuleGraph.Syntax.Await
import ModuleGraph.Syntax.Declared

/-! # Parts of syntax trees

Every node of a syntax tree has its direct parts in the order of the text. A walk lists a node and
all that lies below it, but it does not enter the nodes at which it is told to stop. The static
rules that look through a whole module are compared with walks. -/

namespace ModuleGraph.Syntax

inductive Node where
  | expr (e : Expr)
  | property (p : Property)
  | pattern (p : Pattern)
  | field (f : Field)
  /-- A function, an arrow function or a method: its parameters and its body. -/
  | function (f : Function)
  | class (c : Class)
  /-- The place of an expression that decorates a class or a member. -/
  | decorator (e : Expr)
  | member (m : Member)
  /-- The place of the initial value of a field or an accessor. -/
  | initializer (e : Expr)
  | staticBlock (body : List Stmt)
  | variables (kind : VariableKind) (declarators : List Declarator)
  | declarator (d : Declarator)
  | declaration (d : Declaration)
  | head (h : Head)
  | case (c : Case)
  | stmt (s : Stmt)
  | item (i : Item)

namespace Node

def exprParts : Expr → List Node
  | .atom | .name _ => []
  | .await operand | .unary operand => [.expr operand]
  | .yield operand => operand.toList.map .expr
  | .binary left right => [.expr left, .expr right]
  | .assign target value => [.pattern target, .expr value]
  | .conditional test consequent alternate => [.expr test, .expr consequent, .expr alternate]
  | .call callee arguments => .expr callee :: arguments.map .expr
  | .member object => [.expr object]
  | .index object key => [.expr object, .expr key]
  | .group inner | .spread inner => [.expr inner]
  | .sequence parts | .template parts => parts.map .expr
  | .array elements => elements.filterMap (·.map .expr)
  | .object properties => properties.map .property
  | .tagged tag substitutions => .expr tag :: substitutions.map .expr
  | .importCall specifier options => .expr specifier :: options.toList.map .expr
  | .function definition => [.function definition]
  | .class definition => [.class definition]

def patternParts : Pattern → List Node
  | .name _ => []
  | .place place => [.expr place]
  | .object fields rest => fields.map .field ++ rest.toList.map .pattern
  | .array elements rest => elements.filterMap (·.map .pattern) ++ rest.toList.map .pattern
  | .withDefault target value => [.pattern target, .expr value]

def memberParts : Member → List Node
  | .method decorators key body =>
    decorators.map .decorator ++ key.toList.map .expr ++ [.function body]
  | .field decorators key value =>
    decorators.map .decorator ++ key.toList.map .expr ++ value.toList.map .initializer
  | .staticBlock body => [.staticBlock body]

def declarationParts : Declaration → List Node
  | .variables kind declarators => [.variables kind declarators]
  | .function _ definition => [.function definition]
  | .class _ definition => [.class definition]

def headParts : Head → List Node
  | .absent => []
  | .variables kind declarators => [.variables kind declarators]
  | .expr value => [.expr value]
  | .pattern target => [.pattern target]

def stmtParts : Stmt → List Node
  | .simple => []
  | .expr value | .throw value => [.expr value]
  | .block body => body.map .stmt
  | .declaration declared => [.declaration declared]
  | .conditional test consequent alternate =>
    .expr test :: .stmt consequent :: alternate.toList.map .stmt
  | .while test body => [.expr test, .stmt body]
  | .doWhile body test => [.stmt body, .expr test]
  | .for init test update body =>
    .head init :: test.toList.map .expr ++ update.toList.map .expr ++ [.stmt body]
  | .forIn left right body => [.head left, .expr right, .stmt body]
  | .forOf _ left right body => [.head left, .expr right, .stmt body]
  | .labeled body => [.stmt body]
  | .return value => value.toList.map .expr
  | .switch discriminant cases => .expr discriminant :: cases.map .case
  | .try block parameter handler finalizer =>
    block.map .stmt ++ parameter.toList.map .pattern ++ handler.map .stmt ++ finalizer.map .stmt
  | .with object body => [.expr object, .stmt body]

def itemParts : Item → List Node
  | .statement s => [.stmt s]
  | .exportDeclaration declared => [.declaration declared]
  | .exportDefault (.declaration declared) => [.declaration declared]
  | .exportDefault (.expr value) => [.expr value]
  | .importFrom .. | .exportNames .. | .exportNamesFrom .. | .exportAll .. => []

def parts : Node → List Node
  | .expr e => exprParts e
  | .decorator e | .initializer e => [.expr e]
  | .property (.entry key value) => key.toList.map .expr ++ [.expr value]
  | .property (.spread value) => [.expr value]
  | .pattern p => patternParts p
  | .field (.mk key value) => key.toList.map .expr ++ [.pattern value]
  | .function (.mk parameters body) => parameters.map .pattern ++ body.map .stmt
  | .class (.mk decorators heritage members) =>
    decorators.map .decorator ++ heritage.toList.map .expr ++ members.map .member
  | .member m => memberParts m
  | .staticBlock body => body.map .stmt
  | .variables _ declarators => declarators.map .declarator
  | .declarator (.mk target init) => .pattern target :: init.toList.map .expr
  | .declaration d => declarationParts d
  | .head h => headParts h
  | .case (.mk test body) => test.toList.map .expr ++ body.map .stmt
  | .stmt s => stmtParts s
  | .item i => itemParts i

/-- The size of a node, with one more for a place than for the expression that stands there. -/
noncomputable def weight : Node → Nat
  | .decorator e | .initializer e => 2 + sizeOf e
  | n => sizeOf n

theorem weight_exprParts {e : Expr} {p : Node} (h : p ∈ exprParts e) :
    p.weight < 1 + sizeOf e := by
  cases e <;> simp [exprParts] at h <;> grind [weight, → List.sizeOf_lt_of_mem]

theorem weight_memberParts {m : Member} {p : Node} (h : p ∈ memberParts m) :
    p.weight < 1 + sizeOf m := by
  cases m <;> simp [memberParts] at h <;> grind [weight, → List.sizeOf_lt_of_mem]

theorem weight_stmtParts {s : Stmt} {p : Node} (h : p ∈ stmtParts s) :
    p.weight < 1 + sizeOf s := by
  cases s <;> simp [stmtParts] at h <;> grind [weight, → List.sizeOf_lt_of_mem]

/-- A part is smaller than the node that it is a part of. -/
theorem weight_parts {n p : Node} (h : p ∈ n.parts) : p.weight < n.weight := by
  cases n with
  | expr e => simpa [weight] using weight_exprParts h
  | member m => simpa [weight] using weight_memberParts h
  | stmt s => simpa [weight] using weight_stmtParts h
  | decorator e | initializer e => simp [parts] at h; simp [h, weight]
  | property entry => cases entry <;> simp [parts] at h <;> grind [weight]
  | pattern target =>
    cases target <;> simp [parts, patternParts] at h <;> grind [weight, → List.sizeOf_lt_of_mem]
  | declaration declared =>
    cases declared <;> simp [parts, declarationParts] at h <;> grind [weight]
  | head first => cases first <;> simp [parts, headParts] at h <;> grind [weight]
  | item i =>
    rcases i with _ | _ | _ | _ | _ | _ | ⟨_ | _⟩ <;> simp [parts, itemParts] at h <;>
      grind [weight]
  | field f => cases f; simp [parts] at h; grind [weight]
  | declarator d => cases d; simp [parts] at h; grind [weight]
  | function f => cases f; simp [parts] at h; grind [weight, → List.sizeOf_lt_of_mem]
  | «class» c => cases c; simp [parts] at h; grind [weight, → List.sizeOf_lt_of_mem]
  | case c => cases c; simp [parts] at h; grind [weight, → List.sizeOf_lt_of_mem]
  | staticBlock body => simp [parts] at h; grind [weight, → List.sizeOf_lt_of_mem]
  | «variables» kind declarators => simp [parts] at h; grind [weight, → List.sizeOf_lt_of_mem]

/-- The node and all nodes below it in the order of the text, apart from those at which the walk
stops and what is below them. -/
def walk (stop : Node → Bool) (n : Node) : List Node :=
  n :: n.parts.attach.flatMap fun ⟨p, _⟩ => if stop p then [] else p.walk stop
termination_by n.weight
decreasing_by exact weight_parts ‹_›

theorem walk_eq (stop : Node → Bool) (n : Node) :
    n.walk stop = n :: n.parts.flatMap fun p => if stop p then [] else p.walk stop := by
  rw [walk]
  simp

theorem self_mem_walk {stop : Node → Bool} (n : Node) : n ∈ n.walk stop := by
  rw [walk_eq]
  exact List.mem_cons_self

theorem mem_walk_of_part {stop : Node → Bool} {m n p : Node} (hp : p ∈ n.parts)
    (hs : stop p = false) (hm : m ∈ p.walk stop) : m ∈ n.walk stop := by
  rw [walk_eq]
  simp only [List.mem_cons, List.mem_flatMap]
  exact .inr ⟨p, hp, by simpa [hs] using hm⟩

/-- What is gathered on a walk is what each node adds to what its parts give. The walk may be
confined to nodes of some kind. -/
theorem flatMap_walk {α : Type} {stop : Node → Bool} {kind : Node → Prop} {f g : Node → List α}
    (closed : ∀ n, kind n → ∀ p ∈ n.parts, stop p = false → kind p)
    (h : ∀ n, kind n → g n = f n ++ n.parts.flatMap fun p => if stop p then [] else g p)
    (n : Node) (hn : kind n) : (n.walk stop).flatMap f = g n := by
  rw [walk_eq, List.flatMap_cons, List.flatMap_assoc, h n hn]
  congr 1
  rw [List.flatMap, List.flatMap]
  congr 1
  apply List.map_congr_left
  intro p hp
  cases hs : stop p with
  | true => simp
  | false => simpa using flatMap_walk closed h p (closed n hn p hp hs)
termination_by n.weight
decreasing_by exact weight_parts ‹_›

end Node

def Program.nodes (stop : Node → Bool) (program : Program) : List Node :=
  program.flatMap fun i => (Node.item i).walk stop

end ModuleGraph.Syntax
