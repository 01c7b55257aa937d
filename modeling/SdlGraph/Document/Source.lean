import SdlGraph.Document.Grammar
import SdlGraph.Token.Region

/-!
# Documents of a schema text

A schema text is cut into tokens, and its significant tokens are read as a document whose places are
ranges of these tokens. The byte range of each significant token is kept beside the document, so
that places and diagnostics can be shown in the text.
-/

namespace SdlGraph

/-- The significant tokens of a schema text. -/
structure SignificantTokens where
  /-- The tokens with their byte ranges. -/
  tokens : List (Located Span Token)

namespace SignificantTokens

/-- The significant tokens of a text, or a diagnostic for each lexical fault in it. -/
def ofSource (source : String) : Except (List (Diagnostic Span)) SignificantTokens :=
  match Token.scan source with
  | .ok tokens => .ok ⟨tokens.filter fun token => !token.value.isTrivia⟩
  | .error problems => .error problems

/-- The tokens without their places. -/
def values (source : SignificantTokens) : List Token := source.tokens.map (·.value)

/-- The byte ranges of the tokens. -/
def spans (source : SignificantTokens) : Array Span := (source.tokens.map (·.place)).toArray

/-- Point at the text instead of the tokens. -/
def locate (source : SignificantTokens) (problem : Diagnostic Extent) : Diagnostic Span :=
  problem.mapPlace (Extent.locate source.spans)

/-- The document that the tokens form, or the diagnostic of their refusal. -/
def document (source : SignificantTokens) :
    Except (List (Diagnostic Span)) (Document Extent) :=
  match Document.read source.values with
  | .ok document => .ok document
  | .error refusal => .error [source.locate (refusal.diagnostic source.values)]

/-- The tokens form a document exactly when they are read as one. -/
theorem document_eq_ok_iff {source : SignificantTokens} {document : Document Extent} :
    source.document = .ok document ↔ Document.read source.values = .ok document := by
  unfold SignificantTokens.document
  cases Document.read source.values <;> simp

/-- If something is found in the document of a text, the text has a document. -/
theorem exists_document_of_found {α : Type} {text : String}
    {look : SignificantTokens → Document Extent → α} {found : α}
    (h : ((ofSource text).toOption.bind fun source =>
      source.document.toOption.map (look source)) = some found) :
    ∃ source document, ofSource text = .ok source ∧ source.document = .ok document ∧
      look source document = found := by
  cases hsource : ofSource text with
  | error problems =>
    rw [hsource] at h
    cases h
  | ok source =>
    rw [hsource] at h
    cases hdocument : source.document with
    | error problems => simp [Except.toOption, hdocument] at h
    | ok document =>
      refine ⟨source, document, rfl, hdocument, ?_⟩
      simpa [Except.toOption, hdocument] using h

/-- A document with the byte ranges of its parts. -/
def placed (source : SignificantTokens) (document : Document Extent) : Document Span :=
  document.mapPlace (Extent.locate source.spans)

end SignificantTokens

end SdlGraph
