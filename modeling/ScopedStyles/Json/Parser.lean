import ScopedStyles.Json.Basic

/-!
# Reading JSON

The grammar is the strict one of the JSON standard: no comments, no trailing commas, no byte order
mark, and nothing but blanks behind the value.
-/

namespace ScopedStyles.Json

open Text

/-- Whether a character is blank in JSON. -/
def isSpace (c : Char) : Bool := c == ' ' || c == '\n' || c == '\t' || c == '\r'

/-- A text without the JSON blanks at its beginning. -/
def skipSpace (t : Text) : Text := t.dropWhile isSpace

/-! ## Strings -/

/-- The value of a hexadecimal digit. -/
def hexDigit? (c : Char) : Option Nat :=
  if '0' ≤ c ∧ c ≤ '9' then some (c.toNat - '0'.toNat)
  else if 'a' ≤ c ∧ c ≤ 'f' then some (c.toNat - 'a'.toNat + 10)
  else if 'A' ≤ c ∧ c ≤ 'F' then some (c.toNat - 'A'.toNat + 10)
  else none

/-- The code unit that four hexadecimal digits stand for. -/
def codeUnit? (a b c d : Char) : Option Nat := do
  let digits ← [a, b, c, d].mapM hexDigit?
  return digits.foldl (fun value digit => value * 16 + digit) 0

/-- What a backslash and this character stand for. -/
def escaped? : Char → Option Char
  | '"' => some '"'
  | '\\' => some '\\'
  | '/' => some '/'
  | 'b' => some '\x08'
  | 'f' => some '\x0c'
  | 'n' => some '\n'
  | 'r' => some '\r'
  | 't' => some '\t'
  | _ => none

/-- The code points and code units of a string behind its opening quote, with the text behind its
closing one. -/
def stringUnits : Text → Option (List Nat × Text)
  | [] => none
  | '"' :: t => some ([], t)
  | '\\' :: 'u' :: a :: b :: c :: d :: t => do
    let unit ← codeUnit? a b c d
    let (units, rest) ← stringUnits t
    return (unit :: units, rest)
  | '\\' :: c :: t => do
    let e ← escaped? c
    let (units, rest) ← stringUnits t
    return (e.toNat :: units, rest)
  | c :: t =>
    if c.toNat < 0x20 then none
    else do
      let (units, rest) ← stringUnits t
      return (c.toNat :: units, rest)

/-- The character that a high and a low surrogate are together. -/
def joinSurrogates (high low : Nat) : Char :=
  .ofNat (0x10000 + (high - 0xd800) * 0x400 + (low - 0xdc00))

/-- The text that code points and code units stand for: a high and a low surrogate are one
character, and neither is a character on its own. -/
def decodeUnits : List Nat → Option Text
  | [] => some []
  | high :: low :: units =>
    if 0xd800 ≤ high ∧ high < 0xdc00 ∧ 0xdc00 ≤ low ∧ low < 0xe000 then
      (decodeUnits units).map (joinSurrogates high low :: ·)
    else if 0xd800 ≤ high ∧ high < 0xe000 then none
    else (decodeUnits (low :: units)).map (Char.ofNat high :: ·)
  | [unit] => if 0xd800 ≤ unit ∧ unit < 0xe000 then none else some [Char.ofNat unit]

/-- The string at the head of a text, which is no text if a surrogate in it has no partner. -/
def string? : Text → Option (Option Text × Text)
  | '"' :: t => (stringUnits t).map fun (units, rest) => (decodeUnits units, rest)
  | _ => none

/-! ## Numbers -/

/-- The digits at the head of a text, of which there has to be one. -/
def digits? (t : Text) : Option (Text × Text) :=
  if t.takeWhile Char.isDigit = [] then none
  else some (t.takeWhile Char.isDigit, t.dropWhile Char.isDigit)

/-- The digits before the point: a zero, or digits that do not begin with one. -/
def integer? : Text → Option (Text × Text)
  | '0' :: t => some (['0'], t)
  | t => digits? t

/-- The point and the digits behind it, if they are there. -/
def fraction? : Text → Option (Text × Text)
  | '.' :: t => (digits? t).map fun (ds, rest) => ('.' :: ds, rest)
  | t => some ([], t)

/-- The exponent behind its sign. -/
def exponentDigits? : Text → Option (Text × Text)
  | '+' :: t => (digits? t).map fun (ds, rest) => ('+' :: ds, rest)
  | '-' :: t => (digits? t).map fun (ds, rest) => ('-' :: ds, rest)
  | t => digits? t

/-- The exponent, if it is there. -/
def exponent? : Text → Option (Text × Text)
  | 'e' :: t => (exponentDigits? t).map fun (ds, rest) => ('e' :: ds, rest)
  | 'E' :: t => (exponentDigits? t).map fun (ds, rest) => ('E' :: ds, rest)
  | t => some ([], t)

/-- The sign of a number, if it is there. -/
def splitSign : Text → Text × Text
  | '-' :: t => (['-'], t)
  | t => ([], t)

/-- The number at the head of a text. -/
def number? (t : Text) : Option (Json × Text) := do
  let (sign, t) := splitSign t
  let (whole, t) ← integer? t
  let (fraction, t) ← fraction? t
  let (exponent, t) ← exponent? t
  return (.number (sign ++ whole ++ fraction ++ exponent), t)

/-! ## Values -/

/-- A value that is written as a word. -/
def word? (t : Text) : Option (Json × Text) :=
  match after? .exact "null".toList t, after? .exact "true".toList t,
    after? .exact "false".toList t with
  | some t, _, _ => some (.null, t)
  | _, some t, _ => some (.bool true, t)
  | _, _, some t => some (.bool false, t)
  | _, _, _ => none

/-- The values of an array from one of them on, with the text behind the array. The `fuel` bounds
their number. -/
def items? (value? : Text → Option (Json × Text)) :
    (fuel : Nat) → Text → Option (List Json × Text)
  | 0, _ => none
  | fuel + 1, t => do
    let (j, t) ← value? t
    match skipSpace t with
    | ']' :: t => return ([j], t)
    | ',' :: t =>
      let (js, t) ← items? value? fuel t
      return (j :: js, t)
    | _ => none

/-- The members of an object from one of them on, with the text behind the object. The `fuel` bounds
their number. -/
def members? (value? : Text → Option (Json × Text)) :
    (fuel : Nat) → Text → Option (List (Option Text × Json) × Text)
  | 0, _ => none
  | fuel + 1, t => do
    let (name, t) ← string? (skipSpace t)
    let t ← after? .exact [':'] (skipSpace t)
    let (j, t) ← value? t
    match skipSpace t with
    | '}' :: t => return ([(name, j)], t)
    | ',' :: t =>
      let (ms, t) ← members? value? fuel t
      return ((name, j) :: ms, t)
    | _ => none

/-- The value at the head of a text, blanks before it apart. The `fuel` bounds how deep values
stand in one another, and how many stand side by side. -/
def value? : (fuel : Nat) → Text → Option (Json × Text)
  | 0, _ => none
  | fuel + 1, t =>
    match skipSpace t with
    | '[' :: t =>
      match skipSpace t with
      | ']' :: t => some (.array [], t)
      | t => (items? (value? fuel) (fuel + 1) t).map fun (js, rest) => (.array js, rest)
    | '\x7b' :: t =>
      match skipSpace t with
      | '\x7d' :: t => some (.object [], t)
      | t => (members? (value? fuel) (fuel + 1) t).map fun (ms, rest) => (.object ms, rest)
    | '"' :: t => (string? ('"' :: t)).map fun (s, rest) => (.string s, rest)
    | t => word? t <|> number? t

/-- The value that a text stands for. Every value takes a character, so the length of the text is
fuel enough. -/
def parse? (t : Text) : Option Json := do
  let (j, rest) ← value? (t.length + 1) t
  if skipSpace rest = [] then return j else none

end ScopedStyles.Json
