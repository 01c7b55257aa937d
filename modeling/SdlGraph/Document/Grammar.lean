import SdlGraph.Document.Parser

/-!
# The grammar of documents

Each construct of the language has its parser. Keywords are names that matter at their place only,
so a field may be called `type`. Lists in a type, and lists and input objects in a value, nest up to
`nestingLimit`; the parsers for them count the levels that are left. The place of a larger part is
put together from the places of its first token and of those of its parts that can end it.
-/

namespace SdlGraph

namespace Token

/-- The word a token is. -/
def name? : Token → Option String
  | name text => some text
  | _ => none

/-- The text of a quoted or block string. -/
def text? : Token → Option String
  | stringValue text => some text
  | blockString text => some text
  | _ => none

/-- The constant that a single token stands for. -/
def value? : Token → Option Value
  | intValue text => some (.int text)
  | floatValue text => some (.float text)
  | stringValue text => some (.string text)
  | blockString text => some (.string text)
  | name "true" => some (.boolean true)
  | name "false" => some (.boolean false)
  | name "null" => some .null
  | name text => some (.enum text)
  | _ => none

/-- The name of an enum value: a word that is no other constant. -/
def enumValueName? : Token → Option String
  | name text => if text ∈ ["true", "false", "null"] then none else some text
  | _ => none

/-- The root operation that a word names. -/
def operation? : Token → Option OperationKind
  | name text => OperationKind.ofKeyword? text
  | _ => none

/-- The directive location that a word names. -/
def location? : Token → Option DirectiveLocation
  | name text => DirectiveLocation.ofName? text
  | _ => none

end Token

namespace Parser

/-- A word, with its place. -/
def name (expectation : Expectation) : Parser (Located Extent String) :=
  take expectation Token.name?

/-- A description, if a string is next. -/
def description : Parser (Option (Located Extent String)) := take? Token.text?

/-- A value of a single token. -/
def scalarValue : Parser (Located Extent Value) := take .value Token.value?

/-- An entry of an input object, with a way to read its value. -/
def objectEntry (content : Parser (Located Extent Value)) : Parser (String × Value) := do
  let name ← name .objectFieldName
  let _ ← expect .colon
  let value ← content
  pure (name.value, value.value)

/-- The rest of a list behind its opening mark, with a way to read its items. -/
def listValue (item : Parser (Located Extent Value)) (start : Extent) :
    Parser (Located Extent Value) := do
  let (items, stop) ← upTo .rightBracket (Located.value <$> item)
  pure ⟨.list items, start.union stop⟩

/-- The rest of an input object behind its opening mark, with a way to read its values. -/
def objectValue (content : Parser (Located Extent Value)) (start : Extent) :
    Parser (Located Extent Value) := do
  let (entries, stop) ← upTo .rightBrace (objectEntry content)
  pure ⟨.object entries, start.union stop⟩

/-- A value with at most the given number of levels of lists and input objects. -/
def value : Nat → Parser (Located Extent Value)
  | 0 => do
    match ← peek? with
    | some (.punctuator .leftBracket) => refuse .tooDeep
    | some (.punctuator .leftBrace) => refuse .tooDeep
    | _ => scalarValue
  | levels + 1 =>
    ifNext .leftBracket (fun start => committed (listValue (value levels) start)) <|
      ifNext .leftBrace (fun start => committed (objectValue (value levels) start)) scalarValue

/-- A type with at most the given number of levels of lists. -/
def typeRef : Nat → Parser (TypeUse Extent)
  | 0 => do
    match ← peek? with
    | some (.punctuator .leftBracket) => refuse .tooDeep
    | _ => nullable namedType
  | levels + 1 =>
    ifNext .leftBracket (fun start => nullable (committed (listType (typeRef levels) start)))
      (nullable namedType)
where
  /-- A type that is a name. -/
  namedType : Parser (TypeUse Extent) := do
    let name ← name .type
    pure ⟨.named name.value, name.place, name.place⟩
  /-- The rest of a list type behind its opening mark, with a way to read the type in it. -/
  listType (inner : Parser (TypeUse Extent)) (start : Extent) : Parser (TypeUse Extent) := do
    let element ← inner
    let stop ← expect .rightBracket
    pure ⟨.list element.type, start.union stop, element.namePlace⟩
  /-- A type and the exclamation mark that may follow it. -/
  nullable (inner : Parser (TypeUse Extent)) : Parser (TypeUse Extent) := do
    let use ← inner
    ifNext .bang (fun bang => pure ⟨.nonNull use.type, use.place.union bang, use.namePlace⟩)
      (pure use)

/-- A type after a colon. -/
def typeUse : Parser (TypeUse Extent) := typeRef nestingLimit

/-- A constant with its place. -/
def constant : Parser (Located Extent Value) := value nestingLimit

/-- An argument given to a directive. -/
def argument : Parser (Argument Extent) := do
  let name ← name .argumentName
  let _ ← expect .colon
  let value ← constant
  pure ⟨name, value⟩

/-- A directive application behind its mark. It ends with its arguments, or else with its name. -/
def directiveUse (start : Extent) : Parser (DirectiveUse Extent) := do
  let name ← name .directiveName
  let (arguments, block) ← delimited .leftParen .rightParen argument
  pure ⟨name, arguments, start.union (block.getD name.place)⟩

/-- A directive application, if one is next. -/
def directiveUse? : Parser (Option (DirectiveUse Extent)) :=
  following .atSign fun start => committed (directiveUse start)

/-- The directive applications that follow. -/
def directives : Parser (List (DirectiveUse Extent)) := collect directiveUse?

/-- An argument definition or a field of an input object type. -/
def inputValue (expectation : Expectation) : Parser (InputValue Extent) := do
  let description ← description
  let name ← name expectation
  committed do
    let _ ← expect .colon
    let type ← typeUse
    let default ← following .equals fun _ => constant
    let directives ← directives
    pure ⟨description, name, type, default, directives⟩

/-- The argument definitions of a field or directive. -/
def argumentDefinitions : Parser (List (InputValue Extent)) :=
  Prod.fst <$> delimited .leftParen .rightParen (inputValue .argumentName)

/-- A field of an object or interface type. -/
def field : Parser (Field Extent) := do
  let description ← description
  let name ← name .fieldName
  committed do
    let arguments ← argumentDefinitions
    let _ ← expect .colon
    let type ← typeUse
    let directives ← directives
    pure ⟨description, name, arguments, type, directives⟩

/-- A value of an enum type. -/
def enumValue : Parser (EnumValue Extent) := do
  let description ← description
  let name ← take .enumValueName Token.enumValueName?
  let directives ← committed directives
  pure ⟨description, name, directives⟩

/-- The interfaces after `implements`, if it is next. -/
def interfaces : Parser (List (Located Extent String)) := do
  if ← eatWord "implements" then
    committed do
      let _ ← eat .amp
      separated .amp (name .interfaceName)
  else pure []

/-- The members of a union after an equals sign, if it is next. -/
def unionMembers : Parser (List (Located Extent String)) :=
  ifNext .equals (fun _ => do
    let _ ← eat .pipe
    separated .pipe (name .unionMember)) (pure [])

/-- The fields of an object or interface type between braces, if there are any. -/
def fields : Parser (List (Field Extent) × Option Extent) :=
  delimited .leftBrace .rightBrace field

/-- The directives and parts of a type of some kind, after its name, and the place of the parts
that stand between braces. -/
def typeBody :
    TypeKind → Parser (List (DirectiveUse Extent) × TypeBody Extent × Option Extent)
  | .object => do
    let interfaces ← interfaces
    let directives ← directives
    let (fields, block) ← fields
    pure (directives, .object interfaces fields, block)
  | .interface => do
    let interfaces ← interfaces
    let directives ← directives
    let (fields, block) ← fields
    pure (directives, .interface interfaces fields, block)
  | .union => do
    let directives ← directives
    let members ← unionMembers
    pure (directives, .union members, none)
  | .enum => do
    let directives ← directives
    let (values, block) ← delimited .leftBrace .rightBrace enumValue
    pure (directives, .enum values, block)
  | .inputObject => do
    let directives ← directives
    let (fields, block) ← delimited .leftBrace .rightBrace (inputValue .inputFieldName)
    pure (directives, .inputObject fields, block)
  | .scalar => do
    let directives ← directives
    pure (directives, .scalar, none)

/-- A place extended by the directive applications behind it. -/
def directivesPlace (place : Extent) (directives : List (DirectiveUse Extent)) : Extent :=
  directives.foldl (fun place use => place.union use.place) place

/-- The place of a declared type, from the place of what stands before its directives and
interfaces, by all of its parts that can be its last. -/
def typePlace (place : Extent) (directives : List (DirectiveUse Extent)) (body : TypeBody Extent)
    (block : Option Extent) : Extent :=
  let ends := [body.interfaces.getLast?.map Located.place, body.members.getLast?.map Located.place,
    block]
  ends.reduceOption.foldl Extent.union (directivesPlace place directives)

/-- A type declaration that starts at a place, taken up at its keyword. An extension has to add
something. -/
def typeDeclaration (kind : TypeKind) (isExtension : Bool) (start : Extent) :
    Parser (TypeDeclaration Extent) := do
  let keyword ← expectWord kind.keyword
  committed do
    let name ← name .typeName
    let (directives, body, block) ← typeBody kind
    if isExtension && directives.isEmpty && body.isEmpty then refuse (.expected .addition)
    else
      let place := typePlace ((start.union keyword).union name.place) directives body block
      pure ⟨name, directives, body, place⟩

/-- A root operation and its type. -/
def rootOperation : Parser (RootOperation Extent) := do
  let operation ← take .operation Token.operation?
  let type ← committed do
    let _ ← expect .colon
    name .typeName
  pure ⟨operation, type⟩

/-- A schema block that starts at a place, taken up at its keyword. Only an extension with
directives can do without operations. -/
def schemaBlock (isExtension : Bool) (start : Extent) : Parser (SchemaBlock Extent) := do
  let keyword ← expectWord "schema"
  committed do
    let directives ← directives
    let (operations, block) ← delimited .leftBrace .rightBrace rootOperation
    if block.isNone && !(isExtension && !directives.isEmpty) then
      refuse (.expected (.mark .leftBrace))
    else
      let place := directivesPlace (start.union keyword) directives
      pure ⟨directives, operations, block.elim place place.union⟩

/-- A directive location. -/
def directiveLocation : Parser (Located Extent DirectiveLocation) :=
  take .directiveLocation Token.location?

/-- A directive declaration that starts at a place, taken up at its keyword. -/
def directiveDeclaration (start : Extent) : Parser (DirectiveDeclaration Extent) := do
  let keyword ← expectWord "directive"
  committed do
    let _ ← expect .atSign
    let name ← name .directiveName
    let arguments ← argumentDefinitions
    let isRepeatable ← eatWord "repeatable"
    let _ ← expectWord "on"
    let _ ← eat .pipe
    let locations ← separated .pipe directiveLocation
    let last := (locations.getLast?.map Located.place).getD name.place
    pure ⟨name, arguments, isRepeatable, locations, (start.union keyword).union last⟩

/-- An extension that starts at a place, after its keyword. -/
def extension (start : Extent) : Parser (Definition Extent) := do
  match (← peek?).bind Token.name? with
  | some "schema" => Definition.extendSchema <$> schemaBlock true start
  | some word =>
    match TypeKind.ofKeyword? word with
    | some kind => Definition.extendType <$> typeDeclaration kind true start
    | none => refuse (.expected .extension)
  | none => refuse (.expected .extension)

/-- A definition or extension that starts at a place, after its description. -/
def describedDefinition (start : Extent) (description : Option (Located Extent String)) :
    Parser (Definition Extent) := do
  match ← peek? with
  | none => refuse (.expected .describedDefinition)
  | some (.punctuator .leftBrace) => refuse .executable
  | some (.name word) =>
    if word = "schema" then Definition.schema description <$> schemaBlock false start
    else if word = "directive" then
      Definition.directive description <$> directiveDeclaration start
    else if word = "extend" ∧ description.isNone then do
      let _ ← expectWord "extend"
      extension start
    else if word ∈ ["query", "mutation", "subscription", "fragment"] then refuse .executable
    else
      match TypeKind.ofKeyword? word with
      | some kind => Definition.type description <$> typeDeclaration kind false start
      | none => refuse (.expected .definition)
  | some _ => refuse (.expected .definition)

/-- One definition or extension. -/
def definition : Parser (Definition Extent) := do
  let description ← description
  let next ← nextPlace
  describedDefinition (description.elim next Located.place) description

/-- A definition, unless the tokens are at their end. -/
def definition? : Parser (Option (Definition Extent)) := do
  match ← peek? with
  | none => pure none
  | some _ => some <$> definition

end Parser

/-- Read the significant tokens of a schema text as a document. -/
def Document.read (tokens : List Token) : Except Refusal (Document Extent) :=
  match tokens with
  | [] => .error ⟨.noDefinitions, 0, none⟩
  | _ =>
    match Parser.collect Parser.definition? ⟨0, tokens⟩ with
    | .ok (definitions, _) => .ok ⟨definitions⟩
    | .error refusal => .error refusal

end SdlGraph
