/-!
# Numbers

A number is an optional minus sign, an integer without leading zeros, an optional fraction and an
optional exponent. The readers here answer with what is left of the text after the part they read;
an optional part that is not there is left alone.
-/

namespace SdlGraph.Number

/-- Whether a character is an ASCII digit. -/
def isDigit (c : Char) : Bool := '0' ≤ c && c ≤ '9'

/-- What follows a run of one or more digits at the start of a text. -/
def afterDigits? : List Char → Option (List Char)
  | c :: rest => if isDigit c then some (rest.dropWhile isDigit) else none
  | [] => none

/-- What follows an integer: a lone zero, or digits that do not start with a zero. -/
def afterInteger? : List Char → Option (List Char)
  | c :: rest => if c = '0' then some rest else afterDigits? (c :: rest)
  | [] => none

/-- What follows an optional minus sign. -/
def afterSign : List Char → List Char
  | c :: rest => if c = '-' then rest else c :: rest
  | [] => []

/-- What follows an optional plus or minus sign. -/
def afterExponentSign : List Char → List Char
  | c :: rest => if c = '+' ∨ c = '-' then rest else c :: rest
  | [] => []

/-- What follows a fraction: a full stop and digits. -/
def afterFraction? : List Char → Option (List Char)
  | c :: rest => if c = '.' then afterDigits? rest else none
  | [] => none

/-- What follows an exponent: the letter `e`, an optional sign and digits. -/
def afterExponent? : List Char → Option (List Char)
  | c :: rest => if c = 'e' ∨ c = 'E' then afterDigits? (afterExponentSign rest) else none
  | [] => none

/-- A number at the start of a text. -/
structure Reading where
  /-- Whether the number has a fraction or an exponent. -/
  isFloat : Bool
  /-- What follows the number. -/
  rest : List Char
  deriving DecidableEq, Repr

/-- Read the number at the start of a text, if there is one. -/
def read? (text : List Char) : Option Reading :=
  match afterInteger? (afterSign text) with
  | none => none
  | some afterInteger =>
    let fraction := afterFraction? afterInteger
    let exponent := afterExponent? (fraction.getD afterInteger)
    some ⟨fraction.isSome || exponent.isSome, exponent.getD (fraction.getD afterInteger)⟩

theorem afterDigits?_suffix {text rest : List Char} (h : afterDigits? text = some rest) :
    rest <:+ text.tail := by
  cases text with
  | nil => simp [afterDigits?] at h
  | cons c tail =>
    simp only [afterDigits?, Option.ite_none_right_eq_some, Option.some.injEq] at h
    exact h.2 ▸ List.dropWhile_suffix isDigit

theorem afterInteger?_suffix {text rest : List Char} (h : afterInteger? text = some rest) :
    rest <:+ text.tail := by
  cases text with
  | nil => simp [afterInteger?] at h
  | cons c tail =>
    simp only [afterInteger?] at h
    split at h
    · cases h
      exact List.suffix_refl _
    · exact afterDigits?_suffix h

theorem afterExponentSign_suffix (text : List Char) : afterExponentSign text <:+ text := by
  cases text with
  | nil => simp [afterExponentSign]
  | cons c tail => simp only [afterExponentSign]; split <;> simp

theorem afterFraction?_suffix {text rest : List Char} (h : afterFraction? text = some rest) :
    rest <:+ text := by
  cases text with
  | nil => simp [afterFraction?] at h
  | cons c tail =>
    simp only [afterFraction?, Option.ite_none_right_eq_some] at h
    exact ((afterDigits?_suffix h.2).trans (List.tail_suffix _)).trans (List.suffix_cons ..)

theorem afterExponent?_suffix {text rest : List Char} (h : afterExponent? text = some rest) :
    rest <:+ text := by
  cases text with
  | nil => simp [afterExponent?] at h
  | cons c tail =>
    simp only [afterExponent?, Option.ite_none_right_eq_some] at h
    exact (((afterDigits?_suffix h.2).trans (List.tail_suffix _)).trans
      (afterExponentSign_suffix tail)).trans (List.suffix_cons ..)

/-- A number takes the first character and perhaps more. -/
theorem read?_suffix {text : List Char} {reading : Reading} (h : read? text = some reading) :
    reading.rest <:+ text.tail := by
  unfold read? at h
  split at h
  · exact absurd h (by simp)
  next afterInteger hi =>
    cases h
    have hs : afterInteger <:+ text.tail := by
      have := afterInteger?_suffix hi
      cases text with
      | nil => exact this
      | cons c tail =>
        simp only [afterSign] at this
        split at this
        · exact this.trans (List.tail_suffix _)
        · exact this
    cases hf : afterFraction? afterInteger with
    | none =>
      cases he : afterExponent? afterInteger with
      | none => simpa [he] using hs
      | some rest => simpa [he] using (afterExponent?_suffix he).trans hs
    | some middle =>
      have hm := (afterFraction?_suffix hf).trans hs
      cases he : afterExponent? middle with
      | none => simpa [he] using hm
      | some rest => simpa [he] using (afterExponent?_suffix he).trans hm

end SdlGraph.Number
