import Eel.Double.Decimal
import Eel.Text.Base64
import Eel.Yaml.Tag

/-!
What scalars mean: nothing, truth values, numbers, dates, or else their text.
The text of a plain scalar tells which of them, unless a tag does.
-/

namespace Eel.Yaml

inductive Meaning where
  | null
  | bool
  | int (value : Int)
  | float (value : Double)
  | timestamp
  /-- As a key it takes over the entries of other mappings. -/
  | merge
  | text (value : Bytes)
deriving DecidableEq, Repr

def Meaning.tag : Meaning → Bytes
  | null => Tag.null
  | bool => Tag.bool
  | int _ => Tag.int
  | float _ => Tag.float
  | timestamp => Tag.timestamp
  | merge => Tag.merge
  | text _ => Tag.text

def words : List (String × Meaning) := [
  ("", .null), ("~", .null), ("null", .null), ("Null", .null), ("NULL", .null),
  ("true", .bool), ("True", .bool), ("TRUE", .bool), ("false", .bool), ("False", .bool),
  ("FALSE", .bool), (".nan", .float .nan), (".NaN", .float .nan), (".NAN", .float .nan),
  (".inf", .float .infinity), (".Inf", .float .infinity), (".INF", .float .infinity),
  ("+.inf", .float .infinity), ("+.Inf", .float .infinity), ("+.INF", .float .infinity),
  ("-.inf", .float (Double.neg .infinity)), ("-.Inf", .float (Double.neg .infinity)),
  ("-.INF", .float (Double.neg .infinity)), ("<<", .merge)]

def digitValue? (base : Nat) (c : UInt8) : Option Nat :=
  let c := Bytes.toLower c
  let n :=
    if Bytes.isDigit c then c.toNat - '0'.toNat
    else if Bytes.isLower c then c.toNat - 'a'.toNat + 10
    else base
  if n < base then some n else none

def digits? (base : Nat) (s : Bytes) : Option Nat := do
  guard (!s.isEmpty)
  s.foldlM (fun n c => return n * base + (← digitValue? base c)) 0

/-- A number whose first characters tell its base. A zero in front stands for
base eight. -/
def magnitude? (s : Bytes) : Option Nat :=
  match s with
  | 0x30 :: c :: rest =>
    match Bytes.toLower c with
    | 0x78 => digits? 16 rest
    | 0x62 => digits? 2 rest
    | 0x6f => digits? 8 rest
    | _ => digits? 8 (c :: rest)
  | _ => digits? 10 s

def splitSign (s : Bytes) : Option Bool × Bytes :=
  match s with
  | 0x2b :: rest => (some false, rest)
  | 0x2d :: rest => (some true, rest)
  | _ => (none, s)

/-- An integer of 64 bits. Without a sign the last bit counts as well. -/
def int? (s : Bytes) : Option Int := do
  let (sign, rest) := splitSign s
  let n ← magnitude? rest
  match sign with
  | some true => if n ≤ Nat.pow 2 63 then some (-(n : Int)) else none
  | some false => if n < Nat.pow 2 63 then some n else none
  | none => if n < Nat.pow 2 64 then some n else none

/-- The longest run of decimal digits in front of a text, and the rest. -/
def digitRun (s : Bytes) : Bytes × Bytes := s.span Bytes.isDigit

def exponent? (s : Bytes) : Option Int :=
  match s with
  | [] => some 0
  | c :: rest =>
    if Bytes.toLower c == 'e'.toUInt8 then do
      let (sign, rest) := splitSign rest
      let n ← digits? 10 rest
      return if sign == some true then -(n : Int) else n
    else none

/-- A decimal fraction with or without an exponent, if it lies in range. -/
def float? (s : Bytes) : Option Double := do
  let (sign, rest) := splitSign s
  let (whole, rest) := digitRun rest
  let (fraction, rest) ←
    match rest with
    | 0x2e :: rest =>
      let (fraction, rest) := digitRun rest
      if whole.isEmpty && fraction.isEmpty then none else some (fraction, rest)
    | _ => if whole.isEmpty then none else some ([], rest)
  let exponent ← exponent? rest
  let digits := (digits? 10 (whole ++ fraction)).getD 0
  let place := exponent - fraction.length
  let size : Int := (Bytes.decimal digits).length + place
  let x : Double :=
    if digits = 0 || size < -400 then .zero
    else if 400 < size then .infinity
    else Decimal.toDouble ⟨digits, place⟩
  guard !x.isInfinite
  return if sign == some true then x.neg else x

/-- Without the underscores between digits; one elsewhere is not allowed. -/
def withoutUnderscores? : Option UInt8 → Bytes → Option Bytes
  | _, [] => some []
  | before, 0x5f :: rest =>
    if before.any Bytes.isDigit && rest.head?.any Bytes.isDigit then withoutUnderscores? none rest
    else none
  | _, c :: rest => (withoutUnderscores? (some c) rest).map (c :: ·)

def shortNumber? (low high : Nat) (s : Bytes) : Option (Nat × Bytes) := do
  let count := if (s.drop 1).head?.any Bytes.isDigit then 2 else 1
  let n ← digits? 10 (s.take count)
  guard (low ≤ n && n ≤ high)
  return (n, s.drop count)

def daysInMonth (year month : Nat) : Nat :=
  if month = 2 then if year % 4 = 0 && (year % 100 ≠ 0 || year % 400 = 0) then 29 else 28
  else if month = 4 || month = 6 || month = 9 || month = 11 then 30
  else 31

/-- The rest behind a time of day, whose seconds may have a fraction. -/
def afterTime? (s : Bytes) : Option Bytes := do
  let (_, s) ← shortNumber? 0 23 s
  let (_, s) ← shortNumber? 0 59 (← Bytes.dropFront? (utf8 ":") s)
  let (_, s) ← shortNumber? 0 59 (← Bytes.dropFront? (utf8 ":") s)
  match Bytes.dropFront? (utf8 ".") s with
  | none => return s
  | some s =>
    let (fraction, s) := digitRun s
    guard !fraction.isEmpty
    return s

def isZone (s : Bytes) : Bool :=
  match s with
  | [0x5a] => true
  | sign :: a :: b :: 0x3a :: rest =>
    (sign == '+'.toUInt8 || sign == '-'.toUInt8) && ([a, b] ++ rest).all Bytes.isDigit &&
      rest.length == 2
  | _ => false

def isTimestamp (s : Bytes) : Bool :=
  let (year, rest) := digitRun s
  let read : Option Bool := do
    guard (year.length = 4)
    let year ← digits? 10 year
    let (month, rest) ← shortNumber? 1 12 (← Bytes.dropFront? (utf8 "-") rest)
    let (_, rest) ← shortNumber? 1 (daysInMonth year month) (← Bytes.dropFront? (utf8 "-") rest)
    match rest with
    | [] => return true
    | c :: rest =>
      let rest ← afterTime? rest
      return if c == ' '.toUInt8 then rest.isEmpty
        else Bytes.toLower c == 't'.toUInt8 && isZone rest
  read.getD false

def resolve (s : Bytes) : Meaning :=
  match words.find? (utf8 ·.1 == s) with
  | some (_, meaning) => meaning
  | none =>
    match s with
    | [] => .null
    | c :: _ =>
      if c == '.'.toUInt8 then
        match (withoutUnderscores? none s).bind float? with
        | some x => .float x
        | none => .text s
      else if Bytes.isDigit c || c == '+'.toUInt8 || c == '-'.toUInt8 then
        let plain := s.filter (· != '_'.toUInt8)
        if isTimestamp s then .timestamp
        else
          match int? plain, float? plain with
          | some n, _ => .int n
          | none, some x => .float x
          | none, none => .text s
      else .text s

/-- What a scalar with a tag means, if it can have the tag. Every text can be a
text, and an integer a fraction. -/
def resolveAs (tag s : Bytes) : Option Meaning :=
  if tag == Tag.text then some (.text s)
  else if tag == Tag.binary then (Base64.decode? s).map .text
  else
    let meaning := resolve s
    if meaning.tag == tag then some meaning
    else
      match meaning with
      | .int n =>
        if tag == Tag.float && n < Nat.pow 2 63 then some (.float (Double.ofInt n)) else none
      | _ => none

end Eel.Yaml
