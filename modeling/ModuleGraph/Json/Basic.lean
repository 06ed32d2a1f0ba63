import ModuleGraph.Decimal.Notation

/-! # JSON values

Objects keep their fields in the order of the text. A number is kept as the double it denotes, so
a negative zero keeps its sign. -/

namespace ModuleGraph

inductive Json where
  | null
  | bool (value : Bool)
  | num (value : Double)
  | str (value : String)
  | arr (elements : List Json)
  | obj (fields : List (String × Json))
  deriving Inhabited

namespace Json

/-- The value of a field; where a key is repeated the last one counts. -/
def field? (key : String) : Json → Option Json
  | .obj fields => (fields.reverse.find? fun f => f.1 == key).map (·.2)
  | _ => none

/-- The value of a field that is present and not null. -/
def get? (key : String) (j : Json) : Option Json :=
  match j.field? key with
  | some .null => none
  | found => found

def str? : Json → Option String
  | .str s => some s
  | _ => none

def arr? : Json → Option (List Json)
  | .arr elements => some elements
  | _ => none

def nat? : Json → Option Nat
  | .num d =>
    match d.form with
    | .finite false mantissa exponent =>
      if 0 ≤ exponent then some (mantissa * Nat.pow 2 exponent.toNat)
      else
        let unit := Nat.pow 2 (-exponent).toNat
        if mantissa % unit = 0 then some (mantissa / unit) else none
    | _ => none
  | _ => none

def text? (key : String) (j : Json) : Option String := (j.get? key).bind str?

/-- The elements in a field; an absent field has none. -/
def list (key : String) (j : Json) : List Json := ((j.get? key).bind arr?).getD []

/-- Whether a field holds `true`. -/
def flag (key : String) (j : Json) : Bool :=
  match j.get? key with
  | some (.bool true) => true
  | _ => false

mutual

def height : Json → Nat
  | .arr elements => elementsHeight elements + 1
  | .obj fields => fieldsHeight fields + 1
  | _ => 1

def elementsHeight : List Json → Nat
  | [] => 0
  | j :: rest => max j.height (elementsHeight rest)

def fieldsHeight : List (String × Json) → Nat
  | [] => 0
  | (_, j) :: rest => max j.height (fieldsHeight rest)

end

def ofNat (n : Nat) : Json := .num (.ofNat n)

def ofText? : Option String → Json
  | some s => .str s
  | none => .null

def ofTexts (texts : List String) : Json := .arr (texts.map .str)

end Json

end ModuleGraph
