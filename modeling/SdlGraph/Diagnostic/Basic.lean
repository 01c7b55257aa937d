import SdlGraph.Diagnostic.Code
import SdlGraph.Text.Span

/-!
# Diagnostics

A diagnostic is a message with an optional code, labels that point at places of the text, and an
optional hint. The kind of place is a parameter: phases after the lexer point at ranges of tokens,
and `mapPlace` turns these into byte ranges at the very end.
-/

namespace SdlGraph

/-- A remark attached to a place. -/
structure Label (σ : Type) where
  /-- The place remarked on. -/
  place : σ
  /-- The remark. -/
  message : String
  /-- Whether this is where the problem lies, as opposed to context for it. -/
  isPrimary : Bool
  deriving DecidableEq, Repr

namespace Label

/-- A label at the place of the problem. -/
def primary {σ : Type} (place : σ) (message : String) : Label σ := ⟨place, message, true⟩

/-- A label that adds context. -/
def secondary {σ : Type} (place : σ) (message : String) : Label σ := ⟨place, message, false⟩

/-- Move a label to another kind of place. -/
def mapPlace {σ τ : Type} (f : σ → τ) (label : Label σ) : Label τ :=
  ⟨f label.place, label.message, label.isPrimary⟩

end Label

/-- One problem found in a schema text. -/
structure Diagnostic (σ : Type) where
  /-- The kind of problem, when it has one. -/
  code : Option Code
  /-- What is wrong. -/
  message : String
  /-- Places in the text, in the order they are shown. -/
  labels : List (Label σ)
  /-- How to mend it. -/
  help : Option String
  deriving DecidableEq, Repr

namespace Diagnostic

variable {σ τ : Type}

/-- The place of the first primary label. -/
def primaryPlace? (problem : Diagnostic σ) : Option σ :=
  (problem.labels.find? (·.isPrimary)).map (·.place)

/-- Move every label to another kind of place. -/
def mapPlace (f : σ → τ) (problem : Diagnostic σ) : Diagnostic τ :=
  { problem with labels := problem.labels.map (Label.mapPlace f) }

/-- One line for people: the code in brackets, if there is one, and the message. -/
def headline (problem : Diagnostic σ) : String :=
  match problem.code with
  | some code => "error[" ++ code.text ++ "]: " ++ problem.message
  | none => "error: " ++ problem.message

/-- The headline of the first of several problems, and how many more follow. -/
def summary : List (Diagnostic σ) → String
  | [] => ""
  | [only] => only.headline
  | first :: rest => first.headline ++ " (+" ++ toString rest.length ++ " more)"

/-- The message of the first of several problems, as shown to users. -/
def leadingMessage : List (Diagnostic σ) → String
  | [] => "invalid schema"
  | first :: _ => first.message

end Diagnostic

end SdlGraph
