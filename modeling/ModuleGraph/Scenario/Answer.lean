import ModuleGraph.Machine.Host

/-! # Answers of a scenario

Answers show values without the places of the machine: promises, errors and objects are numbered
in the order in which they are first shown, modules have their names. -/

namespace ModuleGraph.Scenario

/-- A value as it is shown. -/
inductive Shown where
  | undefined
  | null
  | boolean (value : Bool)
  | number (value : Double)
  | string (value : String)
  | promise (number : Nat)
  | namespace (module : String)
  | error (number : Nat) (kind : ErrorKind) (message : String)
  | object (number : Nat) (properties : List (String × Shown))
  /-- An object that is the value of a property. -/
  | inner (number : Nat)
  deriving Inhabited

mutual

def Shown.same : Shown → Shown → Bool
  | .undefined, .undefined => true
  | .null, .null => true
  | .boolean a, .boolean b => a == b
  | .number a, .number b => a == b
  | .string a, .string b => a == b
  | .promise a, .promise b => a == b
  | .namespace a, .namespace b => a == b
  | .error a _ _, .error b _ _ => a == b
  | .object a props, .object b props' => a == b && sameProperties props props'
  | .inner a, .inner b => a == b
  | _, _ => false

def sameProperties : List (String × Shown) → List (String × Shown) → Bool
  | [], [] => true
  | (k, v) :: rest, (k', v') :: rest' => k == k' && v.same v' && sameProperties rest rest'
  | _, _ => false

end

/-- What a call gave or threw, as it is shown. -/
inductive Got where
  | ok (value : Shown)
  | threw (value : Shown)
  deriving Inhabited

/-- The state of a module as it is shown. -/
structure ModuleReport where
  name : String
  status : Status
  hasAwait : Bool
  root : Option String
  error : Option Shown
  deriving Inhabited

def ModuleReport.same (a b : ModuleReport) : Bool :=
  a.status == b.status && a.hasAwait == b.hasAwait && a.root == b.root &&
    match a.error, b.error with
    | none, none => true
    | some v, some w => v.same w
    | _, _ => false

structure LinkReport where
  kind : String
  specifier : Option String
  name : Option String
  message : String
  path : List String
  thrown : Shown
  deriving Inhabited

/-- A resolved export as it is shown. -/
inductive BindingReport where
  | none
  | ambiguous
  | name (module binding : String)
  | namespace (module : String)
  deriving Inhabited

/-- What a successful action shows. -/
inductive Payload where
  | nothing
  | value (value : Shown)
  | flag (value : Bool)
  | text (value : String)
  | optionalText (value : Option String)
  | names (names : List String)
  | promise (number : Nat)
  | promises (numbers : List Nat)
  | refused (refusal : Refusal)
  | module (report : ModuleReport) (cyclic source : Bool) (requested : List String)
      (label : Option String)
  | exportedNames (names : Option (List String)) (seen : List String)
  | binding (binding : BindingReport) (visited : Nat)
  | representation (text : String) (undefined object : Bool)
  | state (settlement : Option Got)
  | ticket (referrer specifier : Option String) (promise : Option Nat)
  deriving Inhabited

inductive Result where
  | ok (payload : Payload)
  | threw (value : Shown)
  | linkError (report : LinkReport)
  deriving Inhabited

inductive Event where
  | resolved (referrer specifier module : String)
  | resolveThrew (referrer specifier : String) (value : Shown)
  | rejected (promise : Nat)
  | handled (promise : Nat)
  | ticket (number : Nat) (specifier referrer : String)
  | started (module : String)
  | awaited (label : String)
  | resumed (label : String) (got : Got)
  | called (label : String) (got : Got)
  | stepped (label word : String) (result : Result)
  | finished (label : String)
  | leafLinked (module : String)
  | leafEvaluated (module : String)
  | initialized (module : String)
  | instantiated (module : String)
  deriving Inhabited

/-- All that one action of the scenario shows. -/
structure Answer where
  result : Result
  log : List Event
  /-- The modules that are new or have changed. -/
  modules : List ModuleReport
  /-- The named promises that were found settled. -/
  settled : List (String × Got)
  deriving Inhabited

end ModuleGraph.Scenario
