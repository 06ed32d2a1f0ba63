import ModuleGraph.Decimal.Notation
import ModuleGraph.Machine.Table

/-! # Values

Primitive values stand for themselves. Objects, errors, promises and modules live in the machine
and are named by their place in it; the namespace object of a module is named by the module. -/

namespace ModuleGraph

structure ModuleId where
  index : Nat
  deriving DecidableEq, Repr, Inhabited

structure PromiseId where
  index : Nat
  deriving DecidableEq, Repr, Inhabited

structure ObjectId where
  index : Nat
  deriving DecidableEq, Repr, Inhabited

structure ErrorId where
  index : Nat
  deriving DecidableEq, Repr, Inhabited

inductive Value where
  | undefined
  | null
  | boolean (value : Bool)
  | number (value : Double)
  | string (value : String)
  | object (id : ObjectId)
  | error (id : ErrorId)
  | promise (id : PromiseId)
  /-- The namespace object of a module. -/
  | namespace (module : ModuleId)
  deriving DecidableEq, Repr, Inhabited

namespace Value

def isObject : Value → Bool
  | .object _ | .error _ | .promise _ | .namespace _ => true
  | .undefined | .null | .boolean _ | .number _ | .string _ => false

def text? : Value → Option String
  | .undefined => some "undefined"
  | .null => some "null"
  | .boolean b => some (if b then "true" else "false")
  | .number d => some d.text
  | .string s => some s
  | .object _ | .error _ | .promise _ | .namespace _ => none

end Value

inductive ErrorKind where
  | error
  | aggregateError
  | evalError
  | rangeError
  | referenceError
  | syntaxError
  | typeError
  | uriError
  deriving DecidableEq, Repr, Inhabited

namespace ErrorKind

def name : ErrorKind → String
  | .error => "Error"
  | .aggregateError => "AggregateError"
  | .evalError => "EvalError"
  | .rangeError => "RangeError"
  | .referenceError => "ReferenceError"
  | .syntaxError => "SyntaxError"
  | .typeError => "TypeError"
  | .uriError => "URIError"

def all : List ErrorKind :=
  [.error, .aggregateError, .evalError, .rangeError, .referenceError, .syntaxError, .typeError,
    .uriError]

def ofName? (s : String) : Option ErrorKind := all.find? fun k => k.name == s

end ErrorKind

structure ErrorObject where
  kind : ErrorKind
  message : String
  deriving DecidableEq, Repr, Inhabited

/-- The kind, with the message after a colon unless it is empty. -/
def ErrorObject.text (e : ErrorObject) : String :=
  if e.message = "" then e.kind.name else e.kind.name ++ ": " ++ e.message

/-- The properties of an object in order of creation. -/
abbrev Properties := Table String Value

namespace Properties

/-- The value of a property; one that is not there is `undefined`. -/
def get (o : Properties) (key : String) : Value := (o.get? key).getD .undefined

/-- The properties of an array: its elements by position, then `length`. -/
def ofList (elements : List Value) : Properties :=
  elements.mapIdx (fun i v => (toString i, v)) ++ [("length", .number (.ofNat elements.length))]

@[simp] theorem get_put_self (o : Properties) (key : String) (value : Value) :
    Properties.get (o.put key value) key = value := by
  simp [Properties.get]

theorem get_put_of_ne (o : Properties) {key other : String} (value : Value) (h : key ≠ other) :
    Properties.get (o.put key value) other = o.get other := by
  rw [Properties.get, Table.get?_put_of_ne o value h, Properties.get]

end Properties

/-- How a promise, or a call that may throw, ended. -/
inductive Settlement where
  | fulfilled (value : Value)
  | rejected (reason : Value)
  deriving DecidableEq, Repr, Inhabited

namespace Settlement

def toExcept : Settlement → Except Value Value
  | .fulfilled v => .ok v
  | .rejected e => .error e

def ofExcept : Except Value Value → Settlement
  | .ok v => .fulfilled v
  | .error e => .rejected e

@[simp] theorem ofExcept_toExcept (s : Settlement) : ofExcept s.toExcept = s := by
  cases s <;> rfl

@[simp] theorem toExcept_ofExcept (r : Except Value Value) : (ofExcept r).toExcept = r := by
  cases r <;> rfl

end Settlement

end ModuleGraph
