import ModuleGraph.Machine.Host

/-! # Link errors

A link error tells what is wrong and by which chain of specifiers the module was reached. -/

namespace ModuleGraph

variable {σ κ : Type}

inductive LinkFault where
  /-- The host threw instead of giving a module for the specifier. -/
  | resolution (specifier : String) (thrown : Value)
  /-- The host threw when it prepared a module. -/
  | host (thrown : Value)
  /-- The requested module does not export the name. -/
  | unresolvable (specifier name : String)
  /-- The requested module exports the name in conflicting ways. -/
  | ambiguous (specifier name : String)
  deriving DecidableEq, Repr, Inhabited

structure LinkError where
  fault : LinkFault
  /-- The specifiers from the linked module down to the failing request. -/
  path : List String
  deriving DecidableEq, Repr, Inhabited

namespace LinkFault

def kindName : LinkFault → String
  | .resolution .. => "Resolution"
  | .host _ => "Link"
  | .unresolvable .. => "Unresolvable"
  | .ambiguous .. => "Ambiguous"

def specifier? : LinkFault → Option String
  | .resolution specifier _ | .unresolvable specifier _ | .ambiguous specifier _ => some specifier
  | .host _ => none

def name? : LinkFault → Option String
  | .unresolvable _ name | .ambiguous _ name => some name
  | .resolution .. | .host _ => none

def thrown? : LinkFault → Option Value
  | .resolution _ thrown | .host thrown => some thrown
  | .unresolvable .. | .ambiguous .. => none

def message : LinkFault → String
  | .resolution specifier _ => "Cannot resolve module '" ++ specifier ++ "'"
  | .host _ => "Module failed to link"
  | .unresolvable specifier name =>
    "The requested module '" ++ specifier ++ "' does not provide an export named '" ++ name ++ "'"
  | .ambiguous specifier name =>
    "The requested module '" ++ specifier ++ "' contains conflicting star exports for name '" ++
      name ++ "'"

end LinkFault

namespace LinkError

/-- The message of the fault, with the path unless it is empty. -/
def message (e : LinkError) : String :=
  if e.path.isEmpty then e.fault.message
  else e.fault.message ++ " (import path: " ++ String.intercalate " -> " e.path ++ ")"

/-- The value to throw for a link error: what the host threw, or a new error with the message. -/
def toValue (e : LinkError) : Run σ κ Value :=
  match e.fault.thrown? with
  | some v => pure v
  | none => Run.make fun s => s.newError .syntaxError e.message

end LinkError

end ModuleGraph
