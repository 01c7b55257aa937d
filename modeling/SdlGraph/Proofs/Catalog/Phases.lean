import SdlGraph.Proofs.Catalog.Merging
import SdlGraph.Proofs.Document.FirstOffence
import SdlGraph.Proofs.Token.Splitting

/-!
# Failures come from one phase

A schema text without a catalog gets the diagnostics of the first phase that fails, and of no other:
those of its lexical faults, the one of the token that is refused, or those of what is found in its
document. The codes tell the phase. The assembly does not fail after the check: a document in which
nothing is found extends only types that it defines.
-/

namespace SdlGraph

namespace Diagnostic

variable {σ τ : Type}

/-- A diagnostic has a code, and the code is one of these. -/
def CodeIn (codes : List String) (problem : Diagnostic σ) : Prop :=
  ∃ code, problem.code = some code ∧ code.text ∈ codes

/-- A diagnostic points at one place as the place of the problem. -/
def OnePrimary (problem : Diagnostic σ) : Prop :=
  ∃ label, problem.labels.filter (·.isPrimary) = [label]

theorem OnePrimary.mapPlace {problem : Diagnostic σ} (h : problem.OnePrimary) (f : σ → τ) :
    (problem.mapPlace f).OnePrimary := by
  obtain ⟨label, hlabel⟩ := h
  refine ⟨label.mapPlace f, ?_⟩
  rw [Diagnostic.mapPlace, List.filter_map]
  exact congrArg (List.map (Label.mapPlace f)) hlabel

end Diagnostic

namespace Code

/-- The codes of lexical faults. -/
def lexical : List String := ["E001", "E002", "E003", "E004", "E005"]

/-- The codes of refused tokens. -/
def syntactic : List String := ["E100", "E101", "E103"]

/-- The codes of findings. -/
def structural : List String :=
  ["E200", "E201", "E202", "E203", "E204", "E205", "E206", "E207", "E208", "E209", "E210", "E211"]

end Code

open Diagnostic

theorem LexicalFault.codeIn_diagnostic (start : Nat) (fault : LexicalFault) :
    (fault.diagnostic start).CodeIn Code.lexical := by
  refine ⟨fault.code, rfl, ?_⟩
  cases fault <;> simp [code, Code.text, Code.lexical]

theorem Finding.codeIn_diagnostic {σ : Type} (finding : Finding σ) :
    finding.diagnostic.CodeIn Code.structural := by
  refine ⟨finding.code, rfl, ?_⟩
  cases finding <;> simp [code, Code.text, Code.structural]

theorem Finding.onePrimary_diagnostic {σ : Type} (finding : Finding σ) :
    finding.diagnostic.OnePrimary := by
  cases finding <;> exact ⟨_, rfl⟩

/-- A refusal for anything but the lack of tokens has a code of its own and points at one token. -/
theorem Refusal.codeIn_diagnostic (refusal : Refusal) (tokens : List Token)
    (hobstacle : refusal.obstacle ≠ .noDefinitions) :
    (refusal.diagnostic tokens).CodeIn Code.syntactic ∧
      (refusal.diagnostic tokens).OnePrimary := by
  unfold diagnostic
  split
  next => exact ⟨⟨.executableDefinition, rfl, by decide⟩, _, rfl⟩
  next => exact ⟨⟨.unexpectedToken, rfl, by decide⟩, _, rfl⟩
  next hnone => exact absurd hnone hobstacle
  next =>
    split
    next =>
      refine ⟨⟨.unexpectedToken, rfl, by decide⟩,
        .primary (tokenExtent refusal.index) "unexpected token", ?_⟩
      -- The context, if there is one, is no primary label.
      cases refusal.context? <;> rfl
    next => exact ⟨⟨.incompleteInput, rfl, by decide⟩, _, rfl⟩

namespace Catalog

/-- How a text can come to have no catalog. -/
inductive Fails (source : String) (problems : List (Diagnostic Span)) : Prop where
  /-- There are lexical faults. -/
  | lexical (hscan : Token.scan source = .error problems)
  /-- The significant tokens are refused. -/
  | syntactic {tokens : SignificantTokens} {refusal : Refusal}
      (htokens : SignificantTokens.ofSource source = .ok tokens)
      (hread : Document.read tokens.values = .error refusal)
      (hproblems : problems = [tokens.locate (refusal.diagnostic tokens.values)])
  /-- Something is found in the document. -/
  | structural {tokens : SignificantTokens} {document : Document Extent}
      (htokens : SignificantTokens.ofSource source = .ok tokens)
      (hread : Document.read tokens.values = .ok document) (hfindings : document.findings ≠ [])
      (hproblems :
        problems = document.findings.map fun finding => tokens.locate finding.diagnostic)

variable {source : String} {problems : List (Diagnostic Span)}

/-- The assembly is no reason to have no catalog. -/
theorem fails_of_ofSource (h : ofSource source = .error problems) : Fails source problems := by
  unfold ofSource at h
  split at h
  next faults hfaults =>
    cases h
    refine .lexical ?_
    unfold SignificantTokens.ofSource at hfaults
    split at hfaults
    next => cases hfaults
    next hscan => rwa [← Except.error.inj hfaults]
  next tokens htokens =>
    cases hread : Document.read tokens.values with
    | error refusal =>
      simp only [SignificantTokens.document, hread] at h
      exact .syntactic htokens hread (Except.error.inj h).symm
    | ok document =>
      simp only [SignificantTokens.document, hread] at h
      cases hcheck : tokens.check document with
      | error found =>
        rw [hcheck] at h
        obtain rfl := Except.error.inj h
        obtain ⟨hfindings, hproblems⟩ := SignificantTokens.check_eq_error_iff.mp hcheck
        exact .structural htokens hread hfindings hproblems
      | ok _ =>
        have hsound := Document.findings_eq_nil_iff.mp
          (SignificantTokens.check_eq_ok_iff_findings.mp hcheck)
        obtain ⟨catalog, hcatalog⟩ := hsound.exists_catalog
        simp only [hcheck, SignificantTokens.assemble, hcatalog] at h
        cases h

/-- The diagnostics of a text are those of the first phase that fails. -/
inductive OnePhase (source : String) (problems : List (Diagnostic Span)) : Prop where
  /-- There are lexical faults, and nothing but their diagnostics. -/
  | lexical (hscan : Token.scan source = .error problems)
      (hproblems : ∀ problem ∈ problems, problem.CodeIn Code.lexical ∧ problem.OnePrimary)
  /-- There are no significant tokens, which is told without pointing at a place. -/
  | empty {tokens : SignificantTokens} {problem : Diagnostic Span}
      (htokens : SignificantTokens.ofSource source = .ok tokens) (hempty : tokens.tokens = [])
      (hproblems : problems = [problem]) (hcode : problem.CodeIn ["E102"])
      (hlabels : problem.labels = [])
  /-- The significant tokens are no document, which one diagnostic tells. -/
  | syntactic {tokens : SignificantTokens} {problem : Diagnostic Span}
      (htokens : SignificantTokens.ofSource source = .ok tokens) (hne : tokens.tokens ≠ [])
      (hdocument : tokens.document = .error [problem]) (hproblems : problems = [problem])
      (hcode : problem.CodeIn Code.syntactic) (hprimary : problem.OnePrimary)
  /-- The document is not accepted. -/
  | structural {tokens : SignificantTokens} {document : Document Extent}
      (htokens : SignificantTokens.ofSource source = .ok tokens)
      (hdocument : tokens.document = .ok document)
      (hcheck : tokens.check document = .error problems)
      (hproblems : ∀ problem ∈ problems, problem.CodeIn Code.structural ∧ problem.OnePrimary)

/-- The diagnostic of a text without significant tokens. -/
theorem diagnostic_of_empty {tokens : SignificantTokens} {refusal : Refusal}
    (hempty : tokens.tokens = []) (hread : Document.read tokens.values = .error refusal) :
    (tokens.locate (refusal.diagnostic tokens.values)).CodeIn ["E102"] ∧
      (tokens.locate (refusal.diagnostic tokens.values)).labels = [] := by
  have hvalues : tokens.values = [] := by rw [SignificantTokens.values, hempty, List.map_nil]
  rw [hvalues] at hread ⊢
  cases hread
  exact ⟨⟨.emptyDocument, rfl, by decide⟩, rfl⟩

/-- The diagnostic of significant tokens that are no document. -/
theorem diagnostic_of_refusal {tokens : SignificantTokens} {refusal : Refusal}
    (hne : tokens.tokens ≠ []) (hread : Document.read tokens.values = .error refusal) :
    (tokens.locate (refusal.diagnostic tokens.values)).CodeIn Code.syntactic ∧
      (tokens.locate (refusal.diagnostic tokens.values)).OnePrimary := by
  have hvalues : tokens.values ≠ [] := by simpa [SignificantTokens.values] using hne
  obtain ⟨_, _, -, -, hfits, -, -⟩ := Document.read_eq_error hvalues hread
  have hobstacle : refusal.obstacle ≠ .noDefinitions := by
    intro hnone
    rw [hnone] at hfits
    exact hfits
  obtain ⟨hcode, hprimary⟩ := refusal.codeIn_diagnostic tokens.values hobstacle
  exact ⟨hcode, hprimary.mapPlace _⟩

/-- Whatever the reason, all diagnostics are those of one phase. -/
theorem Fails.onePhase (h : Fails source problems) : OnePhase source problems := by
  cases h with
  | lexical hscan =>
    refine .lexical hscan fun problem hp => ?_
    obtain ⟨region, -, fault, -, rfl⟩ := Token.exists_fault_of_scan hscan hp
    exact ⟨fault.codeIn_diagnostic _, _, rfl⟩
  | @syntactic tokens refusal htokens hread hproblems =>
    by_cases hempty : tokens.tokens = []
    · obtain ⟨hcode, hlabels⟩ := diagnostic_of_empty hempty hread
      exact .empty htokens hempty hproblems hcode hlabels
    · obtain ⟨hcode, hprimary⟩ := diagnostic_of_refusal hempty hread
      refine .syntactic htokens hempty ?_ hproblems hcode hprimary
      rw [SignificantTokens.document, hread]
  | @structural tokens document htokens hread hfindings hproblems =>
    refine .structural htokens (SignificantTokens.document_eq_ok_iff.mpr hread)
      (SignificantTokens.check_eq_error_iff.mpr ⟨hfindings, hproblems⟩) fun problem hp => ?_
    rw [hproblems] at hp
    obtain ⟨finding, -, rfl⟩ := List.mem_map.mp hp
    exact ⟨finding.codeIn_diagnostic, finding.onePrimary_diagnostic.mapPlace _⟩

/-- Every failure has a diagnostic, and each has the code of a phase before the assembly. -/
theorem OnePhase.coded (h : OnePhase source problems) : problems ≠ [] ∧
    ∀ problem ∈ problems, ∃ code, problem.code = some code ∧ code.text ≠ "E300" := by
  have hearlier {problem : Diagnostic Span} {codes : List String} (h : problem.CodeIn codes)
      (hcodes : "E300" ∉ codes) : ∃ code, problem.code = some code ∧ code.text ≠ "E300" := by
    obtain ⟨code, hcode, htext⟩ := h
    exact ⟨code, hcode, fun he => hcodes (he ▸ htext)⟩
  cases h with
  | lexical hscan hproblems =>
    exact ⟨(Token.scan_eq_error_iff.mp hscan).1,
      fun problem hp => hearlier (hproblems problem hp).1 (by decide)⟩
  | empty _ _ hproblems hcode _ =>
    rw [hproblems]
    exact ⟨List.cons_ne_nil _ _, List.forall_mem_singleton.mpr (hearlier hcode (by decide))⟩
  | syntactic _ _ _ hproblems hcode _ =>
    rw [hproblems]
    exact ⟨List.cons_ne_nil _ _, List.forall_mem_singleton.mpr (hearlier hcode (by decide))⟩
  | @structural tokens document _ _ hcheck hproblems =>
    refine ⟨?_, fun problem hp => hearlier (hproblems problem hp).1 (by decide)⟩
    obtain ⟨hfindings, rfl⟩ := SignificantTokens.check_eq_error_iff.mp hcheck
    exact fun hnil => hfindings (List.map_eq_nil_iff.mp hnil)

/-- A text with a catalog has passed all phases. -/
theorem phases_of_ofSource {catalog : Catalog} (h : ofSource source = .ok catalog) :
    ∃ tokens document, SignificantTokens.ofSource source = .ok tokens ∧
      tokens.document = .ok document ∧ tokens.check document = .ok () ∧
      tokens.assemble document = .ok catalog := by
  obtain ⟨tokens, document, htokens, hread, hsound, hassemble⟩ := ofSource_eq_ok_iff.mp h
  refine ⟨tokens, document, htokens, SignificantTokens.document_eq_ok_iff.mpr hread, ?_, ?_⟩
  · rwa [SignificantTokens.check_eq_ok_iff_findings, Document.findings_eq_nil_iff]
  · rw [SignificantTokens.assemble, hassemble]

end Catalog

end SdlGraph
