import ModuleGraph.Machine.Value

/-! # Module environments

An environment maps names to bindings. A local binding holds a value once it is initialized. The
binding of an import leads to one of another module and is never assigned through. -/

namespace ModuleGraph

inductive Binding where
  | local (value : Option Value) (mutable : Bool)
  | import (target : ModuleId) (name : String)
  deriving DecidableEq, Repr, Inhabited

structure Environment where
  bindings : Table String Binding
  deriving DecidableEq, Repr, Inhabited

/-- Why a binding cannot be assigned. -/
inductive AssignmentFault where
  | missing
  | uninitialized
  | imported
  | constant
  deriving DecidableEq, Repr

namespace Environment

def empty : Environment := ⟨[]⟩

def get? (env : Environment) (name : String) : Option Binding := env.bindings.get? name

def has (env : Environment) (name : String) : Bool := (env.get? name).isSome

/-- Binds a name; a binding that exists is replaced. -/
def put (env : Environment) (name : String) (b : Binding) : Environment :=
  ⟨env.bindings.put name b⟩

@[simp] theorem get?_empty (name : String) : empty.get? name = none := rfl

@[simp] theorem get?_put_self (env : Environment) (name : String) (b : Binding) :
    (env.put name b).get? name = some b := Table.get?_put_self _ _ _

theorem get?_put_of_ne (env : Environment) {name other : String} (b : Binding)
    (h : name ≠ other) : (env.put name b).get? other = env.get? other :=
  Table.get?_put_of_ne _ b h

/-- Gives a local binding its first value. -/
def initialize? (env : Environment) (name : String) (value : Value) : Option Environment :=
  match env.get? name with
  | some (.local none mutable) => some (env.put name (.local (some value) mutable))
  | _ => none

/-- Changes the value of an initialized mutable binding. -/
def assign (env : Environment) (name : String) (value : Value) :
    Except AssignmentFault Environment :=
  match env.get? name with
  | some (.local (some _) true) => .ok (env.put name (.local (some value) true))
  | some (.local none _) => .error .uninitialized
  | some (.import ..) => .error .imported
  | some (.local (some _) false) => .error .constant
  | none => .error .missing

end Environment

end ModuleGraph
