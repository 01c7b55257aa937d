import SdlGraph.Document.Refusal

/-!
# Reading from a list of tokens

A parser reads from a cursor and ends at a later cursor with a result, or with a refusal. The
primitives look at the next token or take it, and tell the place of what they take; `committed`
marks the point after which a refusal belongs to the construct being read, and `collect` repeats a
step for as long as it yields items.
-/

namespace SdlGraph

/-- A point in a list of tokens. -/
structure Cursor where
  /-- Number of tokens before the point. -/
  index : Nat
  /-- The tokens after the point. -/
  rest : List Token
  deriving DecidableEq, Repr

/-- The range of the token that is next. -/
def Cursor.nextPlace (cursor : Cursor) : Extent := ⟨cursor.index, cursor.index + 1⟩

/-- A way to read a value at a cursor. -/
def Parser (α : Type) : Type := Cursor → Except Refusal (α × Cursor)

namespace Parser

variable {α β : Type}

instance : Monad Parser where
  pure value := fun cursor => .ok (value, cursor)
  bind first next := fun cursor =>
    match first cursor with
    | .ok (value, later) => next value later
    | .error refusal => .error refusal

/-- Refuse the document here. -/
def refuse (obstacle : Obstacle) : Parser α := fun cursor => .error ⟨obstacle, cursor.index, none⟩

/-- The range that the next token has, if there is one. -/
def nextPlace : Parser Extent := fun cursor => .ok (cursor.nextPlace, cursor)

/-- The next token, left in place. -/
def peek? : Parser (Option Token) := fun cursor => .ok (cursor.rest.head?, cursor)

/-- Take the next token if it has the value asked for. -/
def take? (value? : Token → Option α) : Parser (Option (Located Extent α)) := fun cursor =>
  match cursor.rest with
  | [] => .ok (none, cursor)
  | token :: rest =>
    match value? token with
    | some value => .ok (some ⟨value, cursor.nextPlace⟩, ⟨cursor.index + 1, rest⟩)
    | none => .ok (none, cursor)

/-- Take the next token, which must have the value asked for. -/
def take (expectation : Expectation) (value? : Token → Option α) : Parser (Located Extent α) := do
  match ← take? value? with
  | some read => pure read
  | none => refuse (.expected expectation)

/-- Take the next token if it is a given mark, and tell its place. -/
def eat (mark : Punctuator) : Parser (Option Extent) :=
  Option.map Located.place <$> take? fun token =>
    if token = .punctuator mark then some () else none

/-- Take the next token if it is a given word, and tell whether it is. -/
def eatWord (word : String) : Parser Bool :=
  Option.isSome <$> take? fun token => if token = .name word then some () else none

/-- Take a mark that must be next, and tell its place. -/
def expect (mark : Punctuator) : Parser Extent :=
  Located.place <$> take (.mark mark) fun token =>
    if token = .punctuator mark then some () else none

/-- Take a word that must be next, and tell its place. -/
def expectWord (word : String) : Parser Extent :=
  Located.place <$> take (.keyword word) fun token =>
    if token = .name word then some () else none

/-- Go on in one way behind a mark that is next, and in another way if it is not. The first way
knows the place of the mark. -/
def ifNext (mark : Punctuator) (yes : Extent → Parser α) (no : Parser α) : Parser α := do
  match ← eat mark with
  | some place => yes place
  | none => no

/-- Read the rest of a construct that has been recognised: a refusal belongs to it. -/
def committed (parser : Parser α) : Parser α := fun cursor =>
  match parser cursor with
  | .ok answer => .ok answer
  | .error refusal => .error (refusal.within cursor.index)

/-- Repeat a step for as long as it yields items. A step that yields an item without taking a
token is the last. -/
def collect (step : Parser (Option α)) : Parser (List α) := fun cursor =>
  match step cursor with
  | .error refusal => .error refusal
  | .ok (none, later) => .ok ([], later)
  | .ok (some item, later) =>
    if later.rest.length < cursor.rest.length then
      match collect step later with
      | .error refusal => .error refusal
      | .ok (items, last) => .ok (item :: items, last)
    else .ok ([item], later)
termination_by cursor => cursor.rest.length

/-- Read an item unless a closing mark is next, which is left in place. -/
def unlessNext (close : Punctuator) (item : Parser α) : Parser (Option α) := do
  if (← peek?) = some (.punctuator close) then pure none else some <$> item

/-- Read items up to a closing mark, and tell the place of the mark. -/
def upTo (close : Punctuator) (item : Parser α) : Parser (List α × Extent) := do
  let items ← collect (unlessNext close item)
  let closing ← expect close
  pure (items, closing)

/-- Read an item behind a mark, which it knows the place of, if the mark is next. -/
def following (mark : Punctuator) (item : Extent → Parser α) : Parser (Option α) :=
  ifNext mark (fun place => some <$> item place) (pure none)

/-- Read one or more items between an opening and a closing mark, or nothing if the opening mark
is not next. The items have a place from the one mark to the other. -/
def delimited (opening close : Punctuator) (item : Parser α) : Parser (List α × Option Extent) :=
  ifNext opening (fun start => committed do
    let first ← item
    let (more, stop) ← upTo close item
    pure (first :: more, some (start.union stop))) (pure ([], none))

/-- Read one or more items with a mark between them. -/
def separated (mark : Punctuator) (item : Parser α) : Parser (List α) := do
  let first ← item
  let more ← collect (following mark fun _ => item)
  pure (first :: more)

end Parser

end SdlGraph
