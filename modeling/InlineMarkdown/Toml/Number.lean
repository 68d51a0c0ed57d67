import InlineMarkdown.Entity
import InlineMarkdown.Text.Basic
import InlineMarkdown.Toml.Value

/-! Numbers and dates of a settings document.

Integers have 64 bits, and may be written to base 16, 8 or 2 without a sign. A
number with a fraction or exponent must not be so large that the nearest double is
infinite, unless it is negative. Dates and times must exist in the calendar and on
the clock. -/
namespace InlineMarkdown.Toml

/-! ### Digits -/

/-- Digits in `p` behind others: single underscores may stand between digits. -/
def moreDigits (p : Char → Bool) : List Char → List Char × List Char
  | [] => ([], [])
  | c :: rest =>
    if p c then
      let (digits, rest) := moreDigits p rest
      (c :: digits, rest)
    else
      match c, rest with
      | '_', d :: behind =>
        if p d then
          let (digits, rest) := moreDigits p behind
          (d :: digits, rest)
        else ([], c :: rest)
      | _, _ => ([], c :: rest)

/-- One or more digits in `p`. -/
def digits? (p : Char → Bool) : List Char → Option (List Char × List Char)
  | [] => none
  | c :: rest =>
    if p c then
      let (digits, rest) := moreDigits p rest
      some (c :: digits, rest)
    else none

/-- A decimal integer part: no digit stands behind a leading zero. -/
def wholePart? : List Char → Option (List Char × List Char)
  | '0' :: rest => some (['0'], rest)
  | text => digits? Char.isDigit text

/-- The number that digits write to `base`. -/
def valueOf (base : Nat) (digits : List Char) : Nat :=
  digits.foldl (fun n c => n * base + (digitValue? c).getD 0) 0

/-- A sign, and whether it is a minus. -/
def sign : List Char → Bool × List Char
  | '+' :: rest => (false, rest)
  | '-' :: rest => (true, rest)
  | text => (false, text)

/-! ### Integers -/

/-- Integers are of 64 bits: they stay below this number. -/
def integerLimit : Nat := 0x8000000000000000

/-- An integer to a base of its own, behind its mark. -/
def basedInteger? (base : Nat) (p : Char → Bool) (text : List Char) :
    Option (Value × List Char) := do
  let (digits, rest) ← digits? p text
  let n := valueOf base digits
  if n < integerLimit then some (.integer n, rest) else none

def integer? : List Char → Option (Value × List Char)
  | '0' :: 'x' :: rest => basedInteger? 16 isHexDigit rest
  | '0' :: 'o' :: rest => basedInteger? 8 (fun c => '0' ≤ c && c ≤ '7') rest
  | '0' :: 'b' :: rest => basedInteger? 2 (fun c => c == '0' || c == '1') rest
  | text => do
    let (negative, text) := sign text
    let (digits, rest) ← wholePart? text
    let n := valueOf 10 digits
    if negative then if n ≤ integerLimit then some (.integer (-n), rest) else none
    else if n < integerLimit then some (.integer n, rest) else none

/-! ### Fractions and exponents -/

/-- The digits behind a point. -/
def fraction? (text : List Char) : Option (List Char × List Char) := do
  let rest ← after? ['.'] text
  digits? Char.isDigit rest

/-- An exponent. -/
def exponent? : List Char → Option (Int × List Char)
  | c :: rest =>
    if c = 'e' || c = 'E' then do
      let (negative, rest) := sign rest
      let (digits, rest) ← digits? Char.isDigit rest
      let n : Int := valueOf 10 digits
      some (if negative then -n else n, rest)
    else none
  | [] => none

/-- The nearest double of `mantissa · 10 ^ scale` is infinite: the number is not below
the middle between the largest double and the next power of two. -/
def isHuge (mantissa : Nat) (scale : Int) : Bool :=
  let magnitude : Int := (Nat.toDigits 10 mantissa).length + scale
  let bound := Nat.pow 2 1024 - Nat.pow 2 970
  if mantissa = 0 || magnitude < 300 then false
  else if 400 < magnitude then true
  else if 0 ≤ scale then bound ≤ mantissa * Nat.pow 10 scale.toNat
  else bound * Nat.pow 10 (-scale).toNat ≤ mantissa

/-- A number with a fraction, an exponent or both. -/
def decimal? (text : List Char) : Option (Value × List Char) := do
  let (negative, unsigned) := sign text
  let (whole, behind) ← wholePart? unsigned
  let (places, scale, rest) ← match exponent? behind with
    | some (scale, rest) => some ([], scale, rest)
    | none => do
      let (places, rest) ← fraction? behind
      match exponent? rest with
      | some (scale, rest) => some (places, scale, rest)
      | none => some (places, 0, rest)
  let mantissa := valueOf 10 (whole ++ places)
  if !negative && isHuge mantissa (scale - places.length) then none
  else some (.float (text.take (text.length - rest.length)), rest)

/-- Infinity or not a number. -/
def special? (text : List Char) : Option (Value × List Char) := do
  let (_, unsigned) := sign text
  let rest ← after? "inf".toList unsigned <|> after? "nan".toList unsigned
  some (.float (text.take (text.length - rest.length)), rest)

/-! ### Dates and times -/

/-- A number of exactly `count` digits from `least` to `most`. -/
def fixedDigits? (count least most : Nat) (text : List Char) : Option (Nat × List Char) :=
  let digits := text.take count
  let n := valueOf 10 digits
  if digits.length = count && digits.all Char.isDigit && least ≤ n && n ≤ most then
    some (n, text.drop count)
  else none

def daysInMonth (year month : Nat) : Nat :=
  if month = 2 then if year % 4 = 0 && (year % 100 ≠ 0 || year % 400 = 0) then 29 else 28
  else if month = 4 || month = 6 || month = 9 || month = 11 then 30
  else 31

/-- What follows a calendar date. -/
def afterDate? (text : List Char) : Option (List Char) := do
  let (year, rest) ← fixedDigits? 4 0 9999 text
  let rest ← after? ['-'] rest
  let (month, rest) ← fixedDigits? 2 1 12 rest
  let rest ← after? ['-'] rest
  let (_, rest) ← fixedDigits? 2 1 (daysInMonth year month) rest
  some rest

/-- What follows a time of day. -/
def afterTime? (text : List Char) : Option (List Char) := do
  let (_, rest) ← fixedDigits? 2 0 23 text
  let rest ← after? [':'] rest
  let (_, rest) ← fixedDigits? 2 0 59 rest
  let rest ← after? [':'] rest
  let (_, rest) ← fixedDigits? 2 0 60 rest
  match rest with
  | '.' :: d :: behind =>
    some (if d.isDigit then behind.dropWhile Char.isDigit else rest)
  | _ => some rest

/-- What follows the distance from universal time. -/
def afterOffset? : List Char → Option (List Char)
  | 'Z' :: rest | 'z' :: rest => some rest
  | '+' :: rest | '-' :: rest => do
    let (_, rest) ← fixedDigits? 2 0 23 rest
    let rest ← after? [':'] rest
    let (_, rest) ← fixedDigits? 2 0 59 rest
    some rest
  | _ => none

/-- What follows a date, with or without a time behind it, or a time. -/
def afterDatetime? (text : List Char) : Option (List Char) :=
  match afterDate? text with
  | none => afterTime? text
  | some rest =>
    match rest with
    | c :: behind =>
      if c = 'T' || c = 't' || c = ' ' then
        match afterTime? behind with
        | some rest => some ((afterOffset? rest).getD rest)
        | none => some rest
      else some rest
    | [] => some rest

def datetime? (text : List Char) : Option (Value × List Char) := do
  let rest ← afterDatetime? text
  some (.datetime (text.take (text.length - rest.length)), rest)

/-- A number or a date. -/
def number? (text : List Char) : Option (Value × List Char) :=
  datetime? text <|> decimal? text <|> special? text <|> integer? text

end InlineMarkdown.Toml
