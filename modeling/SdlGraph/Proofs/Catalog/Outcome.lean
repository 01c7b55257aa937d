import SdlGraph.Catalog.Build
import SdlGraph.Proofs.Token.Essentials

/-!
# Outcomes apart from places

A schema text gives a catalog or a list of diagnostics. Apart from the places that the diagnostics
point at, this outcome is a function of the essentials of the text: the grammar, the check and the
assembly see the significant tokens only, and a fault has the same diagnostic wherever it stands.
-/

namespace SdlGraph

/-- A diagnostic without its places: its code, message and help, and of each label its kind and
remark. -/
def Diagnostic.placeless {σ : Type} (problem : Diagnostic σ) : Diagnostic Unit :=
  problem.mapPlace fun _ => ()

/-- The catalog of a schema text, or its diagnostics without their places. -/
def Catalog.outcome (source : String) : Except (List (Diagnostic Unit)) Catalog :=
  (Catalog.ofSource source).mapError (List.map Diagnostic.placeless)

/-- What is read of a text, or its diagnostic apart from places. -/
def Essential.kind (item : Essential) : Except (Diagnostic Unit) Token :=
  item.mapError fun fault => (fault.diagnostic 0).placeless

namespace Region

/-- What is left of a reading apart from places, unless it is trivia. -/
def kept? : Except (Diagnostic Unit) Token → Option (Except (Diagnostic Unit) Token)
  | .ok token => if token.isTrivia then none else some (.ok token)
  | .error problem => some (.error problem)

/-- What a text holds besides trivia, apart from places. -/
def contents (text : List Char) : List (Except (Diagnostic Unit) Token) :=
  (cut text).filterMap fun region => kept? (Essential.kind region.outcome)

/-- The diagnostic in the place of a token. -/
def problem? : Except (Diagnostic Unit) Token → Option (Diagnostic Unit)
  | .ok _ => none
  | .error problem => some problem

end Region

namespace Diagnostic

variable {σ τ : Type}

theorem placeless_mapPlace (problem : Diagnostic σ) (f : σ → τ) :
    (problem.mapPlace f).placeless = problem.placeless := by
  simp [placeless, mapPlace, Label.mapPlace]

end Diagnostic

namespace Region

/-- Places do not matter for what a text holds. -/
theorem map_kind_essentials (start : Nat) (text : List Char) :
    ((essentials start text).map fun item => Essential.kind item.value) = contents text := by
  rw [essentials, contents]
  induction cut text generalizing start with
  | nil => rfl
  | cons region regions ih =>
    obtain ⟨piece, outcome⟩ := region
    have hregion : ((essential? ⟨⟨piece, outcome⟩,
        Span.between start (start + utf8Length piece)⟩).map fun item => Essential.kind item.value) =
        kept? (Essential.kind outcome) := by
      cases outcome with
      | ok token =>
        cases htrivia : token.isTrivia <;>
          simp [essential?, kept?, Essential.kind, Except.mapError, htrivia]
      | error fault => rfl
    rw [locate, List.filterMap_cons, List.filterMap_cons, ← hregion]
    cases essential? ⟨⟨piece, outcome⟩, Span.between start (start + utf8Length piece)⟩ with
    | none => exact ih _
    | some item => exact congrArg (List.cons _) (ih _)

/-- The first reading of a text gives the first of its contents, unless it is trivia. -/
theorem contents_cons (c : Char) (text : List Char) :
    contents (c :: text) = (kept? (Essential.kind (Reading.ofText c text).outcome)).toList ++
      contents (Reading.ofText c text).rest := by
  rw [contents, cut, List.filterMap_cons, ofReading]
  cases kept? (Essential.kind (Reading.ofText c text).outcome) <;> rfl

theorem contents_lineEnd {c : Char} (hend : QuotedString.isLineEnd c = true) (text : List Char) :
    contents (c :: text) = contents text := by
  rw [← map_kind_essentials 0, essentials_lineEnd hend, map_kind_essentials]

end Region

namespace Essential

theorem filterMap_problem?_kind (items : List (Located Span Essential)) :
    (items.map fun item => kind item.value).filterMap Region.problem? =
      (items.filterMap diagnostic?).map Diagnostic.placeless := by
  rw [List.filterMap_map, List.map_filterMap]
  congr 1
  funext item
  obtain ⟨value, place⟩ := item
  cases value <;> rfl

theorem filterMap_toOption_kind (items : List (Located Span Essential)) :
    (items.map fun item => kind item.value).filterMap Except.toOption =
      (items.filterMap token?).map (·.value) := by
  rw [List.filterMap_map, List.map_filterMap]
  congr 1
  funext item
  obtain ⟨value, place⟩ := item
  cases value <;> rfl

end Essential

/-- The outcome of a schema text with the given significant tokens. -/
def Catalog.ofTokens (tokens : List Token) : Except (List (Diagnostic Unit)) Catalog :=
  match Document.read tokens with
  | .error refusal => .error [(refusal.diagnostic tokens).placeless]
  | .ok document =>
    match document.findings with
    | [] =>
      match document.assemble with
      | .ok catalog => .ok catalog
      | .error missing => .error [missing.diagnostic.placeless]
    | findings => .error (findings.map (·.diagnostic.placeless))

namespace Catalog

/-- The outcome of a text without faults is that of its significant tokens. -/
theorem outcome_eq_ofTokens {source : String} {tokens : SignificantTokens}
    (h : SignificantTokens.ofSource source = .ok tokens) :
    outcome source = ofTokens tokens.values := by
  have hlocate (problem : Diagnostic Extent) :
      (tokens.locate problem).placeless = problem.placeless :=
    Diagnostic.placeless_mapPlace problem _
  rw [outcome, ofSource, h, ofTokens]
  simp only [SignificantTokens.document]
  cases Document.read tokens.values with
  | error refusal => simp only [Except.mapError, List.map_cons, List.map_nil, hlocate]
  | ok document =>
    simp only [SignificantTokens.check]
    cases document.findings with
    | nil =>
      simp only [SignificantTokens.assemble]
      cases document.assemble with
      | error missing => simp only [Except.mapError, List.map_cons, List.map_nil, hlocate]
      | ok catalog => rfl
    | cons finding findings =>
      simp only [Except.mapError, List.map_map, Function.comp_def, hlocate]

/-- The outcome of a text with faults are the diagnostics of the faults. -/
theorem outcome_eq_error {source : String} {problems : List (Diagnostic Span)}
    (h : SignificantTokens.ofSource source = .error problems) :
    outcome source = .error (problems.map Diagnostic.placeless) := by
  rw [outcome, ofSource, h]
  rfl

/-- The outcome of a text can be read off its contents. -/
theorem outcome_eq (source : String) :
    outcome source =
      match (Region.contents source.toList).filterMap Region.problem? with
      | [] => ofTokens ((Region.contents source.toList).filterMap Except.toOption)
      | problems => .error problems := by
  have hsource := SignificantTokens.ofSource_eq source
  rw [← Region.map_kind_essentials 0]
  generalize Region.essentials 0 source.toList = items at hsource
  rw [Essential.filterMap_problem?_kind, Essential.filterMap_toOption_kind]
  cases hfaults : items.filterMap Essential.diagnostic? with
  | nil =>
    rw [hfaults] at hsource
    exact outcome_eq_ofTokens hsource
  | cons problem problems =>
    rw [hfaults] at hsource
    exact outcome_eq_error hsource

/-- Texts with the same contents have the same outcome. -/
theorem outcome_congr {source other : String}
    (h : Region.contents source.toList = Region.contents other.toList) :
    outcome source = outcome other := by
  rw [outcome_eq, outcome_eq, h]

end Catalog

/-- A text that holds nothing but trivia and some tokens has these tokens. -/
theorem SignificantTokens.ofSource_of_contents {source : String} {tokens : List Token}
    (h : Region.contents source.toList = tokens.map .ok) :
    ∃ significant, ofSource source = .ok significant ∧ significant.values = tokens := by
  have hsource := ofSource_eq source
  rw [← Region.map_kind_essentials 0] at h
  generalize Region.essentials 0 source.toList = items at hsource h
  have hproblems := Essential.filterMap_problem?_kind items
  have htokens := Essential.filterMap_toOption_kind items
  have hnone : (tokens.map Except.ok).filterMap Region.problem? = [] := by
    rw [List.filterMap_map]
    exact List.filterMap_eq_nil_iff.mpr fun _ _ => rfl
  have hall : (tokens.map Except.ok).filterMap
      (Except.toOption : Except (Diagnostic Unit) Token → Option Token) = tokens := by
    rw [List.filterMap_map]
    exact List.filterMap_some
  rw [h, hnone] at hproblems
  rw [h, hall] at htokens
  rw [List.map_eq_nil_iff.mp hproblems.symm] at hsource
  exact ⟨_, hsource, htokens.symm⟩

end SdlGraph
