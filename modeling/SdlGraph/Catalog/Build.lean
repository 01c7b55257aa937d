import SdlGraph.Catalog.Assembly
import SdlGraph.Document.Source
import SdlGraph.Validation.Check

/-!
# From text to catalog

A schema text becomes a catalog in four steps: tokens, document, check, assembly. The first step
that fails gives all its diagnostics, and the steps after it are not taken.
-/

namespace SdlGraph

namespace SignificantTokens

/-- Check a document; its findings become diagnostics of the text. -/
def check (source : SignificantTokens) (document : Document Extent) :
    Except (List (Diagnostic Span)) Unit :=
  match document.findings with
  | [] => .ok ()
  | findings => .error (findings.map fun finding => source.locate finding.diagnostic)

/-- Assemble the catalog of a document; a missing target becomes a diagnostic of the text. -/
def assemble (source : SignificantTokens) (document : Document Extent) :
    Except (List (Diagnostic Span)) Catalog :=
  match document.assemble with
  | .ok catalog => .ok catalog
  | .error missing => .error [source.locate missing.diagnostic]

end SignificantTokens

/-- The catalog of a schema text, or what is wrong with the text. -/
def Catalog.ofSource (source : String) : Except (List (Diagnostic Span)) Catalog :=
  match SignificantTokens.ofSource source with
  | .error problems => .error problems
  | .ok tokens =>
    match tokens.document with
    | .error problems => .error problems
    | .ok document =>
      match tokens.check document with
      | .error problems => .error problems
      | .ok () => tokens.assemble document

end SdlGraph
