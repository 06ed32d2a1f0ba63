import ModuleGraph.Json.Basic

/-! # Reading JSON

A reader takes the characters that are left and gives a value with the characters after it. The
depth of nesting is bounded by the length of the text. A pair of escaped surrogates is one
character; a lone one cannot be held by a text and is read as U+FFFD. -/

namespace ModuleGraph.Json

/-- A reading step: the value and what is left, or nothing where the text does not fit. -/
abbrev Step (α : Type) := List Char → Option (α × List Char)

def isBlank (c : Char) : Bool := c = ' ' || c = '\n' || c = '\r' || c = '\t'

def skipBlanks (cs : List Char) : List Char := cs.dropWhile isBlank

/-- The rest after a fixed word. -/
def expect : List Char → List Char → Option (List Char)
  | [], cs => some cs
  | w :: ws, c :: cs => if w = c then expect ws cs else none
  | _ :: _, [] => none

def hexDigit? (c : Char) : Option Nat :=
  if '0' ≤ c ∧ c ≤ '9' then some (c.toNat - '0'.toNat)
  else if 'a' ≤ c ∧ c ≤ 'f' then some (c.toNat - 'a'.toNat + 10)
  else if 'A' ≤ c ∧ c ≤ 'F' then some (c.toNat - 'A'.toNat + 10)
  else none

/-- A unit written as four hexadecimal digits. -/
def readUnit : Step Nat
  | a :: b :: c :: d :: rest => do
    let a ← hexDigit? a
    let b ← hexDigit? b
    let c ← hexDigit? c
    let d ← hexDigit? d
    some (((a * 16 + b) * 16 + c) * 16 + d, rest)
  | _ => none

/-- The character that an escape without a number stands for. -/
def simpleEscape? (c : Char) : Option Char :=
  if c = 'n' then some '\n'
  else if c = 't' then some '\t'
  else if c = 'r' then some '\r'
  else if c = 'b' then some (Char.ofNat 8)
  else if c = 'f' then some (Char.ofNat 12)
  else if c = '"' || c = '\\' || c = '/' then some c
  else none

def isHighSurrogate (n : Nat) : Bool := 0xD800 ≤ n && n < 0xDC00

def isLowSurrogate (n : Nat) : Bool := 0xDC00 ≤ n && n < 0xE000

def replacement : Char := Char.ofNat 0xFFFD

/-- A character given by its unit, or by two where the first is a high surrogate. -/
def readEscapedUnit : Step Char := fun cs => do
  let (high, rest) ← readUnit cs
  if isHighSurrogate high then
    match rest with
    | '\\' :: 'u' :: more =>
      match readUnit more with
      | some (low, after) =>
        if isLowSurrogate low then
          some (Char.ofNat (0x10000 + (high - 0xD800) * 0x400 + (low - 0xDC00)), after)
        else some (replacement, rest)
      | none => none
    | _ => some (replacement, rest)
  else if isLowSurrogate high then some (replacement, rest)
  else some (Char.ofNat high, rest)

/-- The characters up to the closing quote; each step uses at least one character, so `fuel` may be
any bound on the length of the text. -/
def readQuoted : Nat → List Char → List Char → Option (String × List Char)
  | 0, _, _ => none
  | _ + 1, _, [] => none
  | fuel + 1, done, c :: cs =>
    if c = '"' then some (String.ofList done.reverse, cs)
    else if c = '\\' then
      match cs with
      | 'u' :: rest => do
        let (ch, rest) ← readEscapedUnit rest
        readQuoted fuel (ch :: done) rest
      | e :: rest => do
        let ch ← simpleEscape? e
        readQuoted fuel (ch :: done) rest
      | [] => none
    else readQuoted fuel (c :: done) cs

/-- The digits at the front, as a number and a count. -/
def readDigits (cs : List Char) : Nat × Nat × List Char :=
  let digits := cs.takeWhile Char.isDigit
  (digits.foldl (fun n c => n * 10 + (c.toNat - '0'.toNat)) 0, digits.length,
    cs.dropWhile Char.isDigit)

/-- The exponent part, zero where it is absent. -/
def readExponent : Step Int
  | c :: cs =>
    if c = 'e' || c = 'E' then
      let (negative, cs) := match cs with
        | '-' :: rest => (true, rest)
        | '+' :: rest => (false, rest)
        | _ => (false, cs)
      match readDigits cs with
      | (_, 0, _) => none
      | (n, _, rest) => some (if negative then -(n : Int) else n, rest)
    else some (0, c :: cs)
  | [] => some (0, [])

def readNumber : Step Double := fun cs => do
  let (negative, cs) := match cs with
    | '-' :: rest => (true, rest)
    | _ => (false, cs)
  let (whole, count, cs) := readDigits cs
  if count = 0 then none
  else
    let (mantissa, places, cs) ← match cs with
      | '.' :: rest =>
        match readDigits rest with
        | (_, 0, _) => none
        | (fraction, places, rest) => some (whole * Nat.pow 10 places + fraction, places, rest)
      | _ => some (whole, 0, cs)
    let (exponent, cs) ← readExponent cs
    some (.ofDecimal negative mantissa (exponent - places), cs)

mutual

/-- A value. Each nested reading uses a character and a unit of `fuel`, so the latter never runs out
when it starts above the length of the text. -/
def readValue : Nat → List Char → Option (Json × List Char)
  | 0, _ => none
  | fuel + 1, cs =>
    match skipBlanks cs with
    | 'n' :: rest => (expect "ull".toList rest).map (.null, ·)
    | 't' :: rest => (expect "rue".toList rest).map (.bool true, ·)
    | 'f' :: rest => (expect "alse".toList rest).map (.bool false, ·)
    | '"' :: rest => do
      let (s, rest) ← readQuoted (fuel + 1) [] rest
      some (.str s, rest)
    | '[' :: rest =>
      match skipBlanks rest with
      | ']' :: rest => some (.arr [], rest)
      | rest => readElements fuel [] rest
    | '\x7b' :: rest =>
      match skipBlanks rest with
      | '\x7d' :: rest => some (.obj [], rest)
      | rest => readFields fuel [] rest
    | rest => do
      let (d, rest) ← readNumber rest
      some (.num d, rest)

/-- The elements of an array after its bracket, the first one present. -/
def readElements : Nat → List Json → List Char → Option (Json × List Char)
  | 0, _, _ => none
  | fuel + 1, done, cs => do
    let (j, rest) ← readValue fuel cs
    match skipBlanks rest with
    | ',' :: rest => readElements fuel (j :: done) rest
    | ']' :: rest => some (.arr (j :: done).reverse, rest)
    | _ => none

/-- The fields of an object after its brace, the first one present. -/
def readFields : Nat → List (String × Json) → List Char → Option (Json × List Char)
  | 0, _, _ => none
  | fuel + 1, done, cs =>
    match skipBlanks cs with
    | '"' :: rest => do
      let (key, rest) ← readQuoted (fuel + 1) [] rest
      match skipBlanks rest with
      | ':' :: rest =>
        let (j, rest) ← readValue fuel rest
        match skipBlanks rest with
        | ',' :: rest => readFields fuel ((key, j) :: done) rest
        | '\x7d' :: rest => some (.obj ((key, j) :: done).reverse, rest)
        | _ => none
      | _ => none
    | _ => none

end

/-- The value that a whole text denotes. -/
def read? (text : String) : Option Json :=
  let cs := text.toList
  match readValue (cs.length + 1) cs with
  | some (j, rest) => if (skipBlanks rest).isEmpty then some j else none
  | none => none

end ModuleGraph.Json
