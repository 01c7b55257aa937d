import SdlGraph.Text.Hexadecimal

/-!
# Numbers and dates of TOML

Unquoted values are truth values, integers, floating point numbers, dates and times. Each form is
recognised over the whole word of the value. Digits may be grouped by single underscores. An integer
is recognised by its outline, which leaves open whether there is a number that it stands for, and a
number may be too large to be held.
-/

namespace SdlGraph.Toml

open Text

/-- Whether a character is a digit. -/
def isDigit (c : Char) : Bool := '0' ≤ c && c ≤ '9'

/-- Whether a character is an octal digit. -/
def isOctalDigit (c : Char) : Bool := '0' ≤ c && c ≤ '7'

/-- Whether a character is a binary digit. -/
def isBinaryDigit (c : Char) : Bool := c = '0' || c = '1'

/-- The digits of a run in which single underscores stand between digits only. -/
def groupedDigits? (isDigit : Char → Bool) : List Char → Option (List Char)
  | [] => none
  | [c] => if isDigit c then some [c] else none
  | c :: '_' :: rest =>
    if isDigit c then (groupedDigits? isDigit rest).map (c :: ·) else none
  | c :: rest => if isDigit c then (groupedDigits? isDigit rest).map (c :: ·) else none

/-- Whether every underscore of a word stands between two members of a class of characters. -/
def isGrouped (isMember : Char → Bool) : List Char → Bool
  | [] => true
  | [c] => c ≠ '_'
  | c :: '_' :: rest =>
    isMember c && (rest.head?.map isMember).getD false && isGrouped isMember rest
  | c :: rest => c ≠ '_' && isGrouped isMember rest

/-- The number written by decimal digits. -/
def decimal (digits : List Char) : Nat :=
  digits.foldl (fun n c => 10 * n + (c.toNat - '0'.toNat)) 0

/-- The digits of a decimal integer without sign: no zero leads several digits. -/
def wholeDigits? (word : List Char) : Option (List Char) :=
  match groupedDigits? isDigit word with
  | some ('0' :: _ :: _) => none
  | digits => digits

/-- Take the sign from a word, and tell whether it is a minus sign. -/
def splitSign : List Char → Bool × List Char
  | '-' :: word => (true, word)
  | '+' :: word => (false, word)
  | word => (false, word)

/-- What follows a sign and an underscore right after it, if a word starts with them. -/
def afterSpacedSign? : List Char → Option (List Char)
  | '-' :: '_' :: word => some word
  | '+' :: '_' :: word => some word
  | _ => none

/-- Whether what follows the decimal digits at the start of a word is nothing or starts with an
underscore. -/
def goesOnGrouped (word : List Char) : Bool :=
  match word.dropWhile isDigit with
  | [] => true
  | c :: _ => c = '_'

/-- Whether a word has the outline of a decimal integer. No zero leads it, unless an underscore
stands between it and the sign. Its underscores stand between digits of any base. From the first of
them on it may hold other characters too, but none that marks a floating point number. -/
def hasDecimalOutline (word : List Char) : Bool :=
  (word.all fun c => c ≠ '.' && c ≠ 'e' && c ≠ 'E') &&
    match afterSpacedSign? word with
    | some text => (text.head?.map isHexDigit).getD false && isGrouped isHexDigit text
    | none =>
      match (splitSign word).2 with
      | [] => false
      | '0' :: rest => rest.isEmpty
      | c :: rest => isDigit c && goesOnGrouped rest && isGrouped isHexDigit (c :: rest)

/-- Whether a word has the outline of an integer: of a decimal one, or of a hexadecimal, octal or
binary one after its mark, where the digits may be missing. -/
def hasIntegerOutline : List Char → Bool
  | '0' :: 'x' :: word => word.isEmpty || (groupedDigits? isHexDigit word).isSome
  | '0' :: 'o' :: word => word.isEmpty || (groupedDigits? isOctalDigit word).isSome
  | '0' :: 'b' :: word => word.isEmpty || (groupedDigits? isBinaryDigit word).isSome
  | word => hasDecimalOutline word

/-- The number written in digits of a base that is a power of two. -/
def basedNumber? (isBaseDigit : Char → Bool) (base : Nat) (word : List Char) : Option Int :=
  (groupedDigits? isBaseDigit word).map fun digits =>
    Int.ofNat (digits.foldl (fun n c => base * n + (hexDigit? c).getD 0) 0)

/-- The integer that a word with the outline of one stands for, if its digits are all of its base
and it has some. -/
def integer? : List Char → Option Int
  | '0' :: 'x' :: word => basedNumber? isHexDigit 16 word
  | '0' :: 'o' :: word => basedNumber? isOctalDigit 8 word
  | '0' :: 'b' :: word => basedNumber? isBinaryDigit 2 word
  | word =>
    let (negative, text) := splitSign word
    let digits := text.filter (· ≠ '_')
    if digits.isEmpty || !digits.all isDigit then none
    else some (if negative then -Int.ofNat (decimal digits) else Int.ofNat (decimal digits))

/-- Whether an integer can be held in 128 bits, with or without a sign. -/
def isHeldInteger (n : Int) : Bool := -Int.pow 2 127 ≤ n && n < Int.pow 2 128

/-- The exponent a word stands for, after its letter. -/
def exponent? (word : List Char) : Option Int :=
  let (negative, digits) := splitSign word
  (groupedDigits? isDigit digits).map fun digits =>
    if negative then -Int.ofNat (decimal digits) else Int.ofNat (decimal digits)

/-- Whether a decimal number rounds to a finite number of double precision: it lies below the middle
between the greatest such number and the next power of two. -/
def isFinite (digits : List Char) (exponent : Int) : Bool :=
  let significant := digits.dropWhile (· = '0')
  if significant.isEmpty || significant.length + exponent < 300 then true
  else if significant.length + exponent > 310 then false
  else
    let limit := Nat.pow 2 1024 - Nat.pow 2 970
    if exponent < 0 then decimal significant < limit * Nat.pow 10 exponent.natAbs
    else decimal significant * Nat.pow 10 exponent.natAbs < limit

/-- A floating point number as it is written. -/
inductive FloatingNumber where
  /-- Digits, and the power of ten that they are multiplied by. -/
  | decimal (negative : Bool) (digits : List Char) (exponent : Int)
  /-- Infinity. -/
  | infinity (negative : Bool)
  /-- No number, with a sign nevertheless. -/
  | notANumber (negative : Bool)
  deriving DecidableEq, Repr

/-- Whether a floating point number can be held in double precision: it is not infinite unless it is
written so. -/
def FloatingNumber.isHeld : FloatingNumber → Bool
  | decimal _ digits exponent => isFinite digits exponent
  | infinity _ => true
  | notANumber _ => true

/-- The floating point number a word stands for: an integer part with a fraction, an exponent or
both, or one of the special numbers. An underscore may follow its sign, and then zeros may lead. -/
def floatingNumber? (word : List Char) : Option FloatingNumber :=
  let (negative, text) := splitSign word
  let spaced := afterSpacedSign? word
  let unsigned := spaced.getD text
  if text = ['i', 'n', 'f'] then some (.infinity negative)
  else if text = ['n', 'a', 'n'] then some (.notANumber negative)
  else
    let isMark := fun c : Char => c = 'e' || c = 'E'
    let mantissa := unsigned.takeWhile fun c => !isMark c
    let exponent := match unsigned.dropWhile fun c => !isMark c with
      | [] => some 0
      | _ :: rest => exponent? rest
    let wholePart := mantissa.takeWhile (· ≠ '.')
    let whole := if spaced.isSome then groupedDigits? isDigit wholePart else wholeDigits? wholePart
    let fraction := match mantissa.dropWhile (· ≠ '.') with
      | [] => if mantissa.length < unsigned.length then some [] else none
      | _ :: rest => groupedDigits? isDigit rest
    match whole, fraction, exponent with
    | some whole, some fraction, some exponent =>
      some (.decimal negative (whole ++ fraction) (exponent - fraction.length))
    | _, _, _ => none

/-- The number of two digits, if it does not exceed a limit. -/
def twoDigits? (limit : Nat) : List Char → Option (Nat × List Char)
  | a :: b :: rest =>
    if isDigit a && isDigit b && decimal [a, b] ≤ limit then some (decimal [a, b], rest) else none
  | _ => none

/-- Number of days of a month. -/
def daysIn (year month : Nat) : Nat :=
  if month = 2 then
    if year % 4 = 0 ∧ (year % 100 ≠ 0 ∨ year % 400 = 0) then 29 else 28
  else if month ∈ [4, 6, 9, 11] then 30
  else 31

/-- What follows a date at the start of a word. -/
def afterDate? : List Char → Option (List Char)
  | a :: b :: c :: d :: '-' :: rest =>
    if [a, b, c, d].all isDigit then
      match twoDigits? 12 rest with
      | some (month, '-' :: rest) =>
        match twoDigits? (daysIn (decimal [a, b, c, d]) month) rest with
        | some (day, rest) => if 1 ≤ month ∧ 1 ≤ day then some rest else none
        | none => none
      | _ => none
    else none
  | _ => none

/-- What follows hours and minutes at the start of a word. -/
def afterMinutes? (word : List Char) : Option (List Char) :=
  match twoDigits? 23 word with
  | some (_, ':' :: rest) => (twoDigits? 59 rest).map (·.2)
  | _ => none

/-- What follows a time of day at the start of a word: seconds and their fraction are optional. -/
def afterTime? (word : List Char) : Option (List Char) :=
  match afterMinutes? word with
  | some (':' :: rest) =>
    match twoDigits? 60 rest with
    | some (_, '.' :: d :: rest) => if isDigit d then some (rest.dropWhile isDigit) else none
    | some (_, rest) => some rest
    | none => none
  | rest => rest

/-- Whether a word is an offset from universal time, or nothing. -/
def isOffset : List Char → Bool
  | [] => true
  | ['Z'] => true
  | ['z'] => true
  | c :: rest => (c = '+' || c = '-') && afterMinutes? rest == some []

/-- Whether a word is a time of day. -/
def isTime (word : List Char) : Bool := afterTime? word == some []

/-- Whether a word is a date. -/
def isDate (word : List Char) : Bool := afterDate? word == some []

/-- Whether a word is a date with a time of day and perhaps an offset. -/
def isDateTime (word : List Char) : Bool :=
  match afterDate? word with
  | some (c :: rest) =>
    (c = 'T' || c = 't' || c = ' ') && ((afterTime? rest).map isOffset).getD false
  | _ => false

end SdlGraph.Toml
