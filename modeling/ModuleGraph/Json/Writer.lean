import ModuleGraph.Json.Basic

/-! # Writing JSON

One line without blanks. Control characters are written as escapes, all else as it is. -/

namespace ModuleGraph.Json

/-- Four lower-case hexadecimal digits. -/
def hex4 (n : Nat) : String :=
  let digits := Nat.toDigits 16 n
  String.ofList (List.replicate (4 - digits.length) '0' ++ digits)

/-- The form of a character between quotes. -/
def escape (c : Char) : String :=
  if c = '"' then "\\\""
  else if c = '\\' then "\\\\"
  else if c.toNat < 0x20 then "\\u" ++ hex4 c.toNat
  else c.toString

def quote (s : String) : String :=
  s.foldl (fun text c => text ++ escape c) "\"" ++ "\""

mutual

/-- The text of a value. A number that is not finite has none in JSON and is written `null`. -/
def write : Json → String
  | .null => "null"
  | .bool b => if b then "true" else "false"
  | .num d =>
    match d.form with
    | .finite .. => d.text
    | _ => "null"
  | .str s => quote s
  | .arr elements => "[" ++ writeElements elements ++ "]"
  | .obj fields => "\x7b" ++ writeFields fields ++ "\x7d"

def writeElements : List Json → String
  | [] => ""
  | [j] => write j
  | j :: rest => write j ++ "," ++ writeElements rest

def writeFields : List (String × Json) → String
  | [] => ""
  | [(key, j)] => quote key ++ ":" ++ write j
  | (key, j) :: rest => quote key ++ ":" ++ write j ++ "," ++ writeFields rest

end

end ModuleGraph.Json
