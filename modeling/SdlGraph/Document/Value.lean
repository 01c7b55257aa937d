/-!
# Constant values

Default values and arguments of directives are constants: numbers as written, strings, booleans,
null, names of enum values, lists and input objects. The written form of a value is schema text
that reads back as the same value.
-/

namespace SdlGraph

/-- A constant value. -/
inductive Value where
  /-- A number without fraction and exponent, as written. -/
  | int (text : String)
  /-- A number with a fraction or an exponent, as written. -/
  | float (text : String)
  /-- A string. -/
  | string (text : String)
  /-- A truth value. -/
  | boolean (value : Bool)
  /-- The absent value. -/
  | null
  /-- The name of an enum value. -/
  | enum (name : String)
  /-- A list. -/
  | list (items : List Value)
  /-- An input object, its entries in written order. -/
  | object (entries : List (String × Value))
  deriving Repr

namespace Value

/-- Whether a character is a control: it lies in the category `Cc`. -/
def isControl (c : Char) : Bool := c.toNat < 0x20 || (0x7F ≤ c.toNat && c.toNat < 0xA0)

/-- A hexadecimal digit, in upper case. -/
def hexDigit (n : Nat) : Char := if n < 10 then Char.ofNat (48 + n) else Char.ofNat (55 + n)

/-- The form of a character inside a written string. -/
def writeChar (c : Char) : List Char :=
  match c with
  | '"' => ['\\', '"']
  | '\\' => ['\\', '\\']
  | '\n' => ['\\', 'n']
  | '\r' => ['\\', 'r']
  | '\t' => ['\\', 't']
  | c =>
    if isControl c then
      ['\\', 'u', '0', '0', hexDigit (c.toNat / 16), hexDigit (c.toNat % 16)]
    else [c]

/-- The written form of a string, quotes included. -/
def writeString (text : String) : String :=
  String.ofList ('"' :: text.toList.flatMap writeChar ++ ['"'])

/-- The kind of a value. -/
def kind : Value → String
  | int _ => "Int"
  | float _ => "Float"
  | string _ => "String"
  | boolean _ => "Boolean"
  | null => "Null"
  | enum _ => "Enum"
  | list _ => "List"
  | object _ => "Object"

mutual

/-- The written form of a value. -/
def render : Value → String
  | int text => text
  | float text => text
  | string text => writeString text
  | boolean true => "true"
  | boolean false => "false"
  | null => "null"
  | enum name => name
  | list items => "[" ++ ", ".intercalate (renderItems items) ++ "]"
  | object entries => "\x7b" ++ ", ".intercalate (renderEntries entries) ++ "\x7d"

/-- The written forms of the items of a list. -/
def renderItems : List Value → List String
  | [] => []
  | item :: rest => item.render :: renderItems rest

/-- The written forms of the entries of an input object. -/
def renderEntries : List (String × Value) → List String
  | [] => []
  | (name, value) :: rest => (name ++ ": " ++ value.render) :: renderEntries rest

end

theorem renderItems_eq_map (items : List Value) : renderItems items = items.map render := by
  induction items with
  | nil => rfl
  | cons item rest ih => simp [renderItems, ih]

theorem renderEntries_eq_map (entries : List (String × Value)) :
    renderEntries entries = entries.map fun entry => entry.1 ++ ": " ++ entry.2.render := by
  induction entries with
  | nil => rfl
  | cons entry rest ih => simp [renderEntries, ih]

end Value

end SdlGraph
