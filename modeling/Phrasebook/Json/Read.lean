import Phrasebook.Json

/-! Reading JSON. The grammar is strict: no comments, no trailing commas, nothing after a value. -/
namespace Phrasebook

namespace Json

def isGap (c : Char) : Bool := c == ' ' || c == '\n' || c == '\t' || c == '\r'

def skipGap (t : Text) : Text := t.dropWhile isGap

/-- A piece of a string: a character as it stands, or the 16-bit unit of an escape. -/
inductive Piece where
  | char (c : Char)
  | unit (n : Nat)
deriving DecidableEq, Repr

def hexValue? (c : Char) : Option Nat :=
  if c.isDigit then some (c.toNat - 48)
  else if 'a' ≤ c ∧ c ≤ 'f' then some (c.toNat - 87)
  else if 'A' ≤ c ∧ c ≤ 'F' then some (c.toNat - 55)
  else none

/-- The unit written by four hexadecimal digits. -/
def unitOf? (a b c d : Char) : Option Nat := do
  return (((← hexValue? a) * 16 + (← hexValue? b)) * 16 + (← hexValue? c)) * 16 + (← hexValue? d)

/-- The character that a letter after a backslash stands for. -/
def escaped? (c : Char) : Option Char :=
  match c with
  | '"' => some '"'
  | '\\' => some '\\'
  | '/' => some '/'
  | 'b' => some '\x08'
  | 'f' => some '\x0c'
  | 'n' => some '\n'
  | 'r' => some '\r'
  | 't' => some '\t'
  | _ => none

/-- The pieces of a string up to its closing quote, and what follows the quote. -/
def pieces : Text → Option (List Piece × Text)
  | [] => none
  | '"' :: r => some ([], r)
  | '\\' :: 'u' :: a :: b :: c :: d :: r => do
    let n ← unitOf? a b c d
    let (more, rest) ← pieces r
    return (.unit n :: more, rest)
  | '\\' :: e :: r => do
    let c ← escaped? e
    let (more, rest) ← pieces r
    return (.char c :: more, rest)
  | c :: r =>
    if c = '\\' ∨ c.toNat < 0x20 then none
    else do
      let (more, rest) ← pieces r
      return (.char c :: more, rest)

def isHigh (n : Nat) : Bool := 0xD800 ≤ n && n < 0xDC00

def isLow (n : Nat) : Bool := 0xDC00 ≤ n && n < 0xE000

/-- The text of pieces, if every surrogate has its partner right after it. `high` is a first half
still waiting for the second. -/
def assemble (high : Option Nat) : List Piece → Option Text
  | [] => if high.isNone then some [] else none
  | p :: more =>
    match high, p with
    | none, .char c => (assemble none more).map (c :: ·)
    | none, .unit n =>
      if isHigh n then assemble (some n) more
      else if isLow n then none
      else (assemble none more).map (Char.ofNat n :: ·)
    | some h, .unit n =>
      if isLow n then
        (assemble none more).map (Char.ofNat (0x10000 + (h - 0xD800) * 0x400 + (n - 0xDC00)) :: ·)
      else none
    | some _, .char _ => none

/-- A string after its opening quote. -/
def readString (t : Text) : Option (Option Text × Text) :=
  (pieces t).map fun (ps, rest) => (assemble none ps, rest)

/-- At least one digit. -/
def readDigits (t : Text) : Option (Text × Text) :=
  match t.takeWhile Char.isDigit with
  | [] => none
  | digits => some (digits, t.dropWhile Char.isDigit)

/-- The whole part of a number: a zero, or digits that do not begin with one. -/
def readWhole (t : Text) : Option (Text × Text) :=
  match t with
  | '0' :: r => some (['0'], r)
  | _ => readDigits t

/-- A point and digits, or nothing. -/
def readFraction (t : Text) : Option (Text × Text) :=
  match t with
  | '.' :: r => (readDigits r).map fun (digits, rest) => ('.' :: digits, rest)
  | _ => some ([], t)

/-- An exponent, or nothing. -/
def readExponent (t : Text) : Option (Text × Text) :=
  match t with
  | e :: r =>
    if e = 'e' ∨ e = 'E' then
      match r with
      | s :: r' =>
        if s = '+' ∨ s = '-' then
          (readDigits r').map fun (digits, rest) => (e :: s :: digits, rest)
        else (readDigits r).map fun (digits, rest) => (e :: digits, rest)
      | [] => none
    else some ([], t)
  | [] => some ([], t)

/-- A number as it is written. -/
def readNumber (t : Text) : Option (Text × Text) := do
  let (sign, t) := match t with
    | '-' :: r => (['-'], r)
    | _ => ([], t)
  let (whole, t) ← readWhole t
  let (fraction, t) ← readFraction t
  let (exponent, t) ← readExponent t
  return (sign ++ whole ++ fraction ++ exponent, t)

mutual

/-- A value and what follows it, within a bound on the nesting of the rules. -/
def valueIn : Nat → Text → Option (Json × Text)
  | 0, _ => none
  | fuel + 1, t =>
    match skipGap t with
    | [] => none
    | c :: r =>
      if c = '"' then (readString r).map fun (s, rest) => (.string s, rest)
      else if c = '[' then
        match skipGap r with
        | ']' :: rest => some (.array [], rest)
        | _ => (itemsIn fuel r).map fun (items, rest) => (.array items, rest)
      else if c = '\x7b' then
        match skipGap r with
        | '\x7d' :: rest => some (.object [], rest)
        | _ => (fieldsIn fuel r).map fun (fields, rest) => (.object fields, rest)
      else if c = '-' ∨ c.isDigit then
        (readNumber (c :: r)).map fun (literal, rest) => (.number literal, rest)
      else match Text.afterLeading? (Text.of "null") (c :: r) with
        | some rest => some (.null, rest)
        | none =>
          match Text.afterLeading? (Text.of "true") (c :: r) with
          | some rest => some (.bool true, rest)
          | none =>
            (Text.afterLeading? (Text.of "false") (c :: r)).map fun rest => (.bool false, rest)

/-- The items of an array up to and with its closing bracket; there is at least one. -/
def itemsIn : Nat → Text → Option (List Json × Text)
  | 0, _ => none
  | fuel + 1, t => do
    let (item, t) ← valueIn fuel t
    match skipGap t with
    | ',' :: r =>
      let (items, rest) ← itemsIn fuel r
      return (item :: items, rest)
    | ']' :: rest => return ([item], rest)
    | _ => none

/-- The fields of an object up to and with its closing brace; there is at least one. -/
def fieldsIn : Nat → Text → Option (List (Option Text × Json) × Text)
  | 0, _ => none
  | fuel + 1, t =>
    match skipGap t with
    | '"' :: r => do
      let (key, t) ← readString r
      match skipGap t with
      | ':' :: r =>
        let (value, t) ← valueIn fuel r
        match skipGap t with
        | ',' :: r =>
          let (fields, rest) ← fieldsIn fuel r
          return ((key, value) :: fields, rest)
        | '\x7d' :: rest => return ([(key, value)], rest)
        | _ => none
      | _ => none
    | _ => none

end

/-- The value that a text begins with, and what follows it. -/
def leading? (t : Text) : Option (Json × Text) := valueIn (2 * t.length + 2) t

/-- The value that a text is, with nothing else but blanks around it. -/
def read (t : Text) : Option Json :=
  match leading? t with
  | some (value, rest) => if (skipGap rest).isEmpty then some value else none
  | none => none

/-- The fields of an object that come before anything is wrong, and what follows its closing brace if
nothing is. There is at least one. -/
def soundFieldsIn : Nat → Text → List (Option Text × Json) × Option Text
  | 0, _ => ([], none)
  | fuel + 1, t =>
    match skipGap t with
    | '"' :: r =>
      match readString r with
      | none => ([], none)
      | some (key, t) =>
        match skipGap t with
        | ':' :: r =>
          match valueIn fuel r with
          | none => ([], none)
          | some (value, t) =>
            match skipGap t with
            | ',' :: r =>
              let (fields, rest) := soundFieldsIn fuel r
              ((key, value) :: fields, rest)
            | '\x7d' :: rest => ([(key, value)], some rest)
            | _ => ([(key, value)], none)
        | _ => ([], none)
    | _ => ([], none)

/-- The fields of the object that a text begins with, as far as nothing is wrong. -/
def soundFields (t : Text) : List (Option Text × Json) × Option Text :=
  match skipGap t with
  | '\x7b' :: r =>
    match skipGap r with
    | '\x7d' :: rest => ([], some rest)
    | _ => soundFieldsIn (2 * t.length + 1) r
  | _ => ([], none)

end Json

end Phrasebook
