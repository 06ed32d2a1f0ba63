import ModuleGraph.Proofs.Syntax.Parts

/-! # What top-level await sees

A module awaits exactly if a walk through its program meets an `await` expression, a `for await`
statement or an `await using` declaration. The walk passes by functions, initial values and static
blocks, which run on their own. It passes by decorators too, although they run with the class
definition that they stand at. -/

namespace ModuleGraph.Syntax

theorem optionAwaits_eq (e : Option Expr) : optionAwaits e = e.any Expr.awaits := by
  cases e <;> simp [optionAwaits]

theorem anyAwaits_eq (es : List Expr) : anyAwaits es = es.any Expr.awaits := by
  induction es with
  | nil => rfl
  | cons e rest ih => simp [anyAwaits, ih]

theorem anyElementAwaits_eq (es : List (Option Expr)) :
    anyElementAwaits es = es.any (·.any Expr.awaits) := by
  induction es with
  | nil => rfl
  | cons e rest ih => simp [anyElementAwaits, optionAwaits_eq, ih]

theorem anyPropertyAwaits_eq (ps : List Property) :
    anyPropertyAwaits ps = ps.any Property.awaits := by
  induction ps with
  | nil => rfl
  | cons p rest ih => simp [anyPropertyAwaits, ih]

theorem patternAwaits_eq (p : Option Pattern) : patternAwaits p = p.any Pattern.awaits := by
  cases p <;> simp [patternAwaits]

theorem anyPatternAwaits_eq (ps : List (Option Pattern)) :
    anyPatternAwaits ps = ps.any (·.any Pattern.awaits) := by
  induction ps with
  | nil => rfl
  | cons p rest ih => simp [anyPatternAwaits, patternAwaits_eq, ih]

theorem anyFieldAwaits_eq (fs : List Field) : anyFieldAwaits fs = fs.any Field.awaits := by
  induction fs with
  | nil => rfl
  | cons f rest ih => simp [anyFieldAwaits, ih]

theorem anyMemberAwaits_eq (ms : List Member) : anyMemberAwaits ms = ms.any Member.awaits := by
  induction ms with
  | nil => rfl
  | cons m rest ih => simp [anyMemberAwaits, ih]

theorem stmtAwaits_eq (s : Option Stmt) : stmtAwaits s = s.any Stmt.awaits := by
  cases s <;> simp [stmtAwaits]

theorem anyStmtAwaits_eq (ss : List Stmt) : anyStmtAwaits ss = ss.any Stmt.awaits := by
  induction ss with
  | nil => rfl
  | cons s rest ih => simp [anyStmtAwaits, ih]

def Case.awaits : Case → Bool
  | .mk test body => optionAwaits test || anyStmtAwaits body

theorem anyCaseAwaits_eq (cs : List Case) : anyCaseAwaits cs = cs.any Case.awaits := by
  induction cs with
  | nil => rfl
  | cons c rest ih => cases c; simp [anyCaseAwaits, Case.awaits, ih]

section Options

variable {α β : Type} (f : α → β) (g : β → Bool)

theorem any_toList (o : Option α) (g : α → Bool) : o.toList.any g = o.any g := by
  cases o <;> simp

theorem any_filterMap_map (os : List (Option α)) :
    (os.filterMap (·.map f)).any g = os.any (·.any fun a => g (f a)) := by
  induction os with
  | nil => rfl
  | cons o rest ih => cases o <;> simp [ih]

end Options

namespace Node

def isAwait : Node → Bool
  | .expr (.await _) => true
  | .variables .awaitUsing _ => true
  | .stmt (.forOf true ..) => true
  | _ => false

/-- Functions, initial values of class members and static blocks run on their own. -/
def isDeferred : Node → Bool
  | .function _ | .initializer _ | .staticBlock _ => true
  | _ => false

def isDecorator : Node → Bool
  | .decorator _ => true
  | _ => false

def isAside (n : Node) : Bool := n.isDeferred || n.isDecorator

/-- Whether the check for top-level await finds one in a node. -/
def awaits : Node → Bool
  | .expr e => e.awaits
  | .property p => p.awaits
  | .pattern p => p.awaits
  | .field f => f.awaits
  | .class c => c.awaits
  | .member m => m.awaits
  | .variables kind declarators => variablesAwait kind declarators
  | .declarator d => d.awaits
  | .declaration d => d.awaits
  | .head h => h.awaits
  | .case c => c.awaits
  | .stmt s => s.awaits
  | .item i => i.awaits
  | .function _ | .decorator _ | .initializer _ | .staticBlock _ => false

section Awaits

@[simp] theorem awaits_expr (e : Expr) : (expr e).awaits = e.awaits := rfl
@[simp] theorem awaits_property (p : Property) : (property p).awaits = p.awaits := rfl
@[simp] theorem awaits_pattern (p : Pattern) : (pattern p).awaits = p.awaits := rfl
@[simp] theorem awaits_field (f : Field) : (field f).awaits = f.awaits := rfl
@[simp] theorem awaits_class (c : Class) : (Node.class c).awaits = c.awaits := rfl
@[simp] theorem awaits_member (m : Member) : (member m).awaits = m.awaits := rfl
@[simp] theorem awaits_variables (kind : VariableKind) (ds : List Declarator) :
    (Node.variables kind ds).awaits = variablesAwait kind ds := rfl
@[simp] theorem awaits_declarator (d : Declarator) : (declarator d).awaits = d.awaits := rfl
@[simp] theorem awaits_declaration (d : Declaration) : (declaration d).awaits = d.awaits := rfl
@[simp] theorem awaits_head (h : Head) : (head h).awaits = h.awaits := rfl
@[simp] theorem awaits_case (c : Case) : (case c).awaits = c.awaits := rfl
@[simp] theorem awaits_stmt (s : Stmt) : (stmt s).awaits = s.awaits := rfl
@[simp] theorem awaits_item (i : Item) : (item i).awaits = i.awaits := rfl
@[simp] theorem awaits_function (f : Function) : (function f).awaits = false := rfl
@[simp] theorem awaits_decorator (e : Expr) : (decorator e).awaits = false := rfl
@[simp] theorem awaits_initializer (e : Expr) : (initializer e).awaits = false := rfl
@[simp] theorem awaits_staticBlock (body : List Stmt) : (staticBlock body).awaits = false := rfl

end Awaits

theorem awaits_exprParts (e : Expr) :
    e.awaits = ((expr e).isAwait || (exprParts e).any awaits) := by
  cases e <;> simp [Expr.awaits, isAwait, exprParts, optionAwaits_eq, anyAwaits_eq,
    anyElementAwaits_eq, anyPropertyAwaits_eq, any_toList, any_filterMap_map, Function.comp_def,
    Bool.or_assoc, -List.any_filterMap]

theorem awaits_patternParts (p : Pattern) : p.awaits = (patternParts p).any awaits := by
  cases p <;> simp [Pattern.awaits, patternParts, patternAwaits_eq, anyFieldAwaits_eq,
    anyPatternAwaits_eq, any_toList, any_filterMap_map, Function.comp_def, -List.any_filterMap]

theorem awaits_memberParts (m : Member) : m.awaits = (memberParts m).any awaits := by
  cases m <;> simp [Member.awaits, memberParts, optionAwaits_eq, any_toList, Function.comp_def]

theorem awaits_declarationParts (d : Declaration) :
    d.awaits = (declarationParts d).any awaits := by
  cases d <;> simp [Declaration.awaits, declarationParts]

theorem awaits_headParts (h : Head) : h.awaits = (headParts h).any awaits := by
  cases h <;> simp [Head.awaits, headParts]

theorem awaits_stmtParts (s : Stmt) :
    s.awaits = ((stmt s).isAwait || (stmtParts s).any awaits) := by
  cases s with
  | forOf awaiting left right body => cases awaiting <;>
      simp [Stmt.awaits, isAwait, stmtParts, Bool.or_assoc]
  | _ => simp [Stmt.awaits, isAwait, stmtParts, optionAwaits_eq, stmtAwaits_eq, anyStmtAwaits_eq,
      anyCaseAwaits_eq, patternAwaits_eq, any_toList, Function.comp_def, Bool.or_assoc]

theorem awaits_itemParts (i : Item) : i.awaits = (itemParts i).any awaits := by
  rcases i with _ | _ | _ | _ | _ | _ | ⟨_ | _⟩ <;>
    simp [Item.awaits, DefaultExport.awaits, itemParts]

/-- A node that is not passed by awaits on its own account or in one of its parts. -/
theorem awaits_parts {n : Node} (h : n.isAside = false) :
    n.awaits = (n.isAwait || n.parts.any awaits) := by
  cases n with
  | expr e => exact awaits_exprParts e
  | stmt s => exact awaits_stmtParts s
  | pattern p => simpa [isAwait, parts] using awaits_patternParts p
  | member m => simpa [isAwait, parts] using awaits_memberParts m
  | declaration d => simpa [isAwait, parts] using awaits_declarationParts d
  | head first => simpa [isAwait, parts] using awaits_headParts first
  | item i => simpa [isAwait, parts] using awaits_itemParts i
  | property p =>
    cases p <;>
      simp [isAwait, parts, Property.awaits, optionAwaits_eq, any_toList, Function.comp_def]
  | field f =>
    cases f
    simp [isAwait, parts, Field.awaits, optionAwaits_eq, any_toList, Function.comp_def]
  | declarator d =>
    cases d
    simp [isAwait, parts, Declarator.awaits, optionAwaits_eq, any_toList, Function.comp_def]
  | case c =>
    cases c
    simp [isAwait, parts, Case.awaits, optionAwaits_eq, anyStmtAwaits_eq, any_toList,
      Function.comp_def]
  | «class» c =>
    cases c
    simp [isAwait, parts, Class.awaits, optionAwaits_eq, anyMemberAwaits_eq, any_toList,
      Function.comp_def]
  | «variables» kind ds => cases kind <;> simp [isAwait, parts, variablesAwait, Function.comp_def]
  | function | decorator | initializer | staticBlock => simp [isAside, isDeferred, isDecorator] at h

theorem awaits_of_isAside {n : Node} (h : n.isAside = true) : n.awaits = false := by
  cases n <;> simp_all [isAside, isDeferred, isDecorator]

/-- The check for top-level await finds what a walk that passes nodes by meets. -/
theorem awaits_iff_walk (n : Node) (h : n.isAside = false) :
    n.awaits = true ↔ ∃ m ∈ n.walk isAside, m.isAwait = true := by
  have below : ∀ p ∈ n.parts,
      (p.awaits = true ↔ p.isAside = false ∧ ∃ m ∈ p.walk isAside, m.isAwait = true) := by
    intro p hp
    cases hs : p.isAside with
    | true => simp [awaits_of_isAside hs]
    | false => simpa using awaits_iff_walk p hs
  rw [awaits_parts h, walk_eq]
  simp only [Bool.or_eq_true, List.any_eq_true, List.mem_cons, List.mem_flatMap]
  grind
termination_by n.weight
decreasing_by exact weight_parts ‹_›

end Node

/-- A program has top-level await exactly if a walk through it that enters no function, no initial
value, no static block and no decorator meets an `await`. -/
theorem Program.awaits_iff (program : Program) :
    program.awaits = true ↔ ∃ n ∈ program.nodes Node.isAside, n.isAwait = true := by
  have item : ∀ i : Item,
      i.awaits = true ↔ ∃ n ∈ (Node.item i).walk Node.isAside, n.isAwait = true :=
    fun i => Node.awaits_iff_walk (.item i) rfl
  simp only [Program.awaits, Program.nodes, List.any_eq_true, List.mem_flatMap, item]
  grind

/-- Decorators run with the class that they stand at, but an `await` in one of them is missed: the
program `@(await 1) class A {}` is taken to have none. -/
theorem Program.misses_await_in_decorator :
    ¬ ∀ program : Program,
      program.awaits = true ↔ ∃ n ∈ program.nodes Node.isDeferred, n.isAwait = true := by
  intro h
  let await : Node := .expr (.await .atom)
  let program : Program :=
    [.statement (.declaration (.class (some "A") (.mk [.group (.await .atom)] none [])))]
  have met : await ∈ program.nodes Node.isDeferred := by
    simp only [program, Program.nodes, List.flatMap_cons, List.flatMap_nil, List.append_nil]
    iterate 6 apply Node.mem_walk_of_part (.head _) rfl
    exact Node.self_mem_walk _
  have awaits := (h program).mpr ⟨await, met, rfl⟩
  simp [program, Program.awaits, Item.awaits, Stmt.awaits, Declaration.awaits, Class.awaits,
    optionAwaits, anyMemberAwaits] at awaits

end ModuleGraph.Syntax
