/-!
# Codes of the problems a schema text can have

Every problem has a code that tells its phase: `E0xx` while cutting the text into tokens, `E1xx`
while reading definitions, `E2xx` while checking the document and `E3xx` while assembling the
catalog. Each code has a written form and a short description.
-/

namespace SdlGraph

/-- The kinds of problems, in the order of their codes. -/
inductive Code where
  /-- A quoted string without its closing quote. -/
  | unterminatedString
  /-- A character that starts no token, or a number run into a name. -/
  | unexpectedCharacter
  /-- A backslash followed by no known escape. -/
  | invalidEscape
  /-- A malformed unicode escape, or one that names no character. -/
  | invalidUnicodeEscape
  /-- A block string without its closing quotes. -/
  | unterminatedBlockString
  /-- A token that cannot continue the document. -/
  | unexpectedToken
  /-- A text that ends inside a definition. -/
  | incompleteInput
  /-- A text without definitions. -/
  | emptyDocument
  /-- An operation or a fragment among type system definitions. -/
  | executableDefinition
  /-- A reference to a type that is not defined. -/
  | unknownType
  /-- A second definition of a type, or one of a built-in type. -/
  | duplicateType
  /-- A second field or input field of one name. -/
  | duplicateField
  /-- A second argument of one name. -/
  | duplicateArgument
  /-- A second enum value of one name. -/
  | duplicateEnumValue
  /-- A directive that is not defined or not allowed at its place. -/
  | unknownDirective
  /-- A second definition of a directive, or one of a built-in directive. -/
  | duplicateDirective
  /-- A second schema definition. -/
  | multipleSchemas
  /-- A root operation named twice. -/
  | duplicateRootOperation
  /-- A root operation whose type is not an object type. -/
  | invalidRootOperation
  /-- An extension of a type that is not defined. -/
  | undefinedExtension
  /-- An extension whose keyword does not match its type. -/
  | extensionKindMismatch
  /-- An extension that found no target while the catalog was assembled. -/
  | assemblyFailure
  deriving DecidableEq, Repr

namespace Code

/-- The written form of a code. -/
def text : Code → String
  | unterminatedString => "E001"
  | unexpectedCharacter => "E002"
  | invalidEscape => "E003"
  | invalidUnicodeEscape => "E004"
  | unterminatedBlockString => "E005"
  | unexpectedToken => "E100"
  | incompleteInput => "E101"
  | emptyDocument => "E102"
  | executableDefinition => "E103"
  | unknownType => "E200"
  | duplicateType => "E201"
  | duplicateField => "E202"
  | duplicateArgument => "E203"
  | duplicateEnumValue => "E204"
  | unknownDirective => "E205"
  | duplicateDirective => "E206"
  | multipleSchemas => "E207"
  | duplicateRootOperation => "E208"
  | invalidRootOperation => "E209"
  | undefinedExtension => "E210"
  | extensionKindMismatch => "E211"
  | assemblyFailure => "E300"

/-- What a code means, in a few words. -/
def description : Code → String
  | unterminatedString => "unterminated string literal"
  | unexpectedCharacter => "unexpected character"
  | invalidEscape => "invalid escape sequence"
  | invalidUnicodeEscape => "invalid unicode escape"
  | unterminatedBlockString => "unterminated block string"
  | unexpectedToken => "unexpected token"
  | incompleteInput => "incomplete input"
  | emptyDocument => "empty document"
  | executableDefinition => "executable definition"
  | unknownType => "unknown type"
  | duplicateType => "duplicate type definition"
  | duplicateField => "duplicate field"
  | duplicateArgument => "duplicate argument"
  | duplicateEnumValue => "duplicate enum value"
  | unknownDirective => "unknown or misplaced directive"
  | duplicateDirective => "duplicate directive definition"
  | multipleSchemas => "multiple schema definitions"
  | duplicateRootOperation => "duplicate root operation"
  | invalidRootOperation => "invalid root operation type"
  | undefinedExtension => "extension of undefined type"
  | extensionKindMismatch => "extension kind mismatch"
  | assemblyFailure => "elaboration failure"

/-- Every code, in order. -/
def all : List Code :=
  [unterminatedString, unexpectedCharacter, invalidEscape, invalidUnicodeEscape,
    unterminatedBlockString, unexpectedToken, incompleteInput, emptyDocument,
    executableDefinition, unknownType, duplicateType, duplicateField, duplicateArgument,
    duplicateEnumValue, unknownDirective, duplicateDirective, multipleSchemas,
    duplicateRootOperation, invalidRootOperation, undefinedExtension, extensionKindMismatch,
    assemblyFailure]

/-- The code with a given written form. -/
def ofText? (written : String) : Option Code := all.find? (·.text == written)

end Code

end SdlGraph
