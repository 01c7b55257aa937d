import SdlGraph.Document.Source
import SdlGraph.Proofs.Document.Completion
import SdlGraph.Proofs.Document.Readable

/-!
# Documents are refused at the first offending token

A token list that is no document is refused where it stops being the start of one. The diagnostic
points at the first token that cannot stand behind the tokens before it, and all token lists that
agree up to this token get the same diagnostic. If there is no such token, the list is cut short,
and the diagnostic points at its last token.
-/

namespace SdlGraph

open Spelling

/-- A start of a document can be continued to one. -/
theorem Document.exists_read_append {taken : List Token}
    (h : Parser.Viable (spelled (each Definition.spelling)
      fun definitions : List (Definition Unit) =>
        ∀ definition ∈ definitions, definition.Grammatical) taken) :
    ∃ more document, Document.read (taken ++ more) = .ok document := by
  have hread {definitions : List (Definition Unit)} {ts : List Token} (hne : ts ≠ [])
      (hfine : ∀ definition ∈ definitions, definition.Grammatical)
      (hts : ts ∈ each Definition.spelling definitions) :
      ∃ document, Document.read ts = .ok document := by
    obtain ⟨read, hread, -⟩ := Parser.reads_definitions hfine hts 0
    rw [List.append_nil] at hread
    cases ts with
    | nil => exact absurd rfl hne
    | cons token ts => exact ⟨⟨read⟩, by simp only [Document.read, hread]⟩
  obtain ⟨more, definitions, hfine, hmore⟩ := h
  by_cases hnil : taken ++ more = []
  · obtain ⟨ts, definition, hdefinition, hts⟩ := Parser.follows_definition.nonempty
    have hne : ts ≠ [] := fun hnil => nil_not_mem_definition definition (hnil ▸ hts)
    obtain ⟨rfl, -⟩ := List.append_eq_nil_iff.mp hnil
    have hone : ts ∈ each Definition.spelling [definition] :=
      mem_each_cons.mpr ⟨ts, hts, [], mem_each_nil.mpr rfl, List.append_nil ts⟩
    have hall : ∀ other ∈ [definition], other.Grammatical := by
      intro other ho
      rwa [List.mem_singleton.mp ho]
    exact ⟨ts, hread hne hall hone⟩
  · exact ⟨more, hread hnil hfine hmore⟩

/-- A refusal stands behind a start of a document, and before any tokens that start with the same
one. -/
theorem Document.read_eq_error {tokens : List Token} {refusal : Refusal} (hne : tokens ≠ [])
    (h : Document.read tokens = .error refusal) :
    ∃ taken after, tokens = taken ++ after ∧ refusal.index = taken.length ∧
      refusal.obstacle.Fits after ∧
      (∃ more document, Document.read (taken ++ more) = .ok document) ∧
      ∀ after', after'.head? = after.head? →
        Document.read (taken ++ after') = .error refusal := by
  have haccepts {ts : List Token} {answer : List (Definition Extent) × Cursor} (hts : ts ≠ [])
      (hcollect : Parser.collect Parser.definition? ⟨0, ts⟩ = .ok answer) :
      Document.read ts = .ok ⟨answer.1⟩ := by
    cases ts with
    | nil => exact absurd rfl hts
    | cons token ts => simp only [Document.read, hcollect]
  have hrefuses {ts : List Token} {refusal : Refusal} (hts : ts ≠ [])
      (hcollect : Parser.collect Parser.definition? ⟨0, ts⟩ = .error refusal) :
      Document.read ts = .error refusal := by
    cases ts with
    | nil => exact absurd rfl hts
    | cons token ts => simp only [Document.read, hcollect]
  cases Parser.follows_definitions.predicts 0 tokens with
  | @ends result taken after hends hsame =>
    rw [haccepts hne (hsame after rfl)] at h
    cases h
  | @refuses refusal' taken after hviable hindex hfits hsame =>
    rw [hrefuses hne (hsame after rfl)] at h
    cases h
    refine ⟨taken, after, rfl, by rw [hindex, Nat.zero_add], hfits,
      exists_read_append hviable, fun after' hafter => ?_⟩
    have hne' : taken ++ after' ≠ [] := by
      rw [ne_eq, ← List.head?_eq_none_iff] at hne ⊢
      rwa [Parser.PredictsAt.head?_append hafter]
    exact hrefuses hne' (hsame after' hafter)

namespace Refusal

variable {refusal : Refusal} {tokens tokens' : List Token}

/-- A diagnostic that points at a token does not depend on the tokens behind it. -/
theorem diagnostic_congr (hsome : tokens[refusal.index]?.isSome = true)
    (h : tokens'[refusal.index]? = tokens[refusal.index]?) :
    refusal.diagnostic tokens' = refusal.diagnostic tokens := by
  obtain ⟨token, htoken⟩ := Option.isSome_iff_exists.mp hsome
  rw [htoken] at h
  simp only [diagnostic, htoken, h]

/-- The context of a refusal is a range of tokens up to the one refused. -/
theorem context?_eq_some {extent : Extent} (h : refusal.context? = some extent) :
    extent.first < refusal.index ∧ extent.stop = refusal.index := by
  unfold context? at h
  split at h
  next start _ =>
    split at h
    next hlt =>
      cases h
      exact ⟨hlt, rfl⟩
    next => cases h
  next => cases h

/-- A refused token is pointed at, and what was being read may be pointed at as its context. -/
theorem diagnostic_of_getElem? {token : Token} (htoken : tokens[refusal.index]? = some token)
    (hfits : refusal.obstacle ≠ .noDefinitions) :
    ((refusal.diagnostic tokens).code = some .unexpectedToken ∨
      (refusal.diagnostic tokens).code = some .executableDefinition) ∧
    ∃ remark context, (refusal.diagnostic tokens).labels =
        .primary (tokenExtent refusal.index) remark :: context ∧
      ∀ label ∈ context, label.isPrimary = false ∧ label.message = "while parsing this" ∧
        label.place.first < refusal.index ∧ label.place.stop = refusal.index := by
  unfold diagnostic
  split
  next => exact ⟨.inr rfl, _, [], rfl, List.forall_mem_nil _⟩
  next => exact ⟨.inl rfl, _, [], rfl, List.forall_mem_nil _⟩
  next hnone => exact absurd hnone hfits
  next =>
    rw [htoken]
    refine ⟨.inl rfl, _, _, rfl, fun label hl => ?_⟩
    obtain ⟨extent, hextent, rfl⟩ := Option.map_eq_some_iff.mp (Option.mem_toList.mp hl)
    exact ⟨rfl, rfl, context?_eq_some hextent⟩

end Refusal

namespace SignificantTokens

/-- The tokens stand in the text one behind the other. -/
def Increasing (source : SignificantTokens) : Prop :=
  source.tokens.Pairwise fun earlier later => earlier.place.stop ≤ later.place.start

/-- Wherever further tokens with these values stand, the tokens before them and they form a
document. -/
def CompletedBy (before : List (Located Span Token)) (more : List Token) : Prop :=
  ∀ later : List (Located Span Token), later.map (·.value) = more →
    ∃ document, (SignificantTokens.mk (before ++ later)).document = .ok document

/-- A diagnostic tells that a token is the first that cannot stand where it does. -/
structure FirstOffence (source : SignificantTokens) (problem : Diagnostic Span) (index : Nat)
    (token : Located Span Token) : Prop where
  /-- The token is one of the text. -/
  getElem?_eq : source.tokens[index]? = some token
  /-- It is unexpected, or an operation or a fragment starts with it. -/
  code : problem.code = some .unexpectedToken ∨ problem.code = some .executableDefinition
  /-- It is what the diagnostic points at. -/
  primary : ∃ remark, problem.labels.filter (·.isPrimary) = [.primary token.place remark]
  /-- No tokens that agree with these up to this one form a document, and they all get the same
  diagnostic. -/
  settled : ∀ other : SignificantTokens,
    other.tokens.take (index + 1) = source.tokens.take (index + 1) →
      other.document = .error [problem]
  /-- The tokens before it can be continued to a document. -/
  completable : ∃ more, CompletedBy (source.tokens.take index) more
  /-- Other labels cover some of the tokens before it and stand before it. -/
  context : ∀ label ∈ problem.labels, label.isPrimary = false →
    label.message = "while parsing this" ∧ (source.Increasing →
      ∃ first last, first ∈ source.tokens.take index ∧ last ∈ source.tokens.take index ∧
        label.place = first.place.union last.place ∧ label.place.stop ≤ token.place.start)

/-- A diagnostic tells that the tokens end too early. -/
structure CutShort (source : SignificantTokens) (problem : Diagnostic Span) : Prop where
  /-- The input is incomplete. -/
  code : problem.code = some .incompleteInput
  /-- All tokens were taken. -/
  consumed : ∃ refusal, Document.read source.values = .error refusal ∧
    refusal.index = source.tokens.length
  /-- The diagnostic points at the last token. -/
  labels : ∃ last, source.tokens.getLast? = some last ∧
    problem.labels = [.primary last.place "input ends here"]
  /-- The tokens can be continued to a document. -/
  completable : ∃ more, more ≠ [] ∧ CompletedBy source.tokens more

variable {source other : SignificantTokens}

theorem getElem?_spans (source : SignificantTokens) (index : Nat) :
    source.spans[index]? = (source.tokens[index]?).map (·.place) := by
  simp [spans]

theorem getElem?_values (source : SignificantTokens) (index : Nat) :
    source.values[index]? = (source.tokens[index]?).map (·.value) := by
  simp [values]

/-- A range of tokens stands between the start of its first and the end of its last one. -/
theorem locate_eq_between {extent : Extent} {first last : Located Span Token}
    (hfirst : source.tokens[extent.first]? = some first)
    (hlast : source.tokens[extent.stop - 1]? = some last) :
    extent.locate source.spans = .between first.place.start last.place.stop := by
  simp [Extent.locate, getElem?_spans, hfirst, hlast]

/-- Of increasing tokens, a later one neither starts nor ends before an earlier one. -/
theorem Increasing.place_mono (h : source.Increasing) {earlier later : Nat}
    (hle : earlier ≤ later) (hlater : later < source.tokens.length) :
    source.tokens[earlier].place.start ≤ source.tokens[later].place.start ∧
      source.tokens[earlier].place.stop ≤ source.tokens[later].place.stop := by
  rcases Nat.lt_or_ge earlier later with hlt | hge
  · have hapart := List.pairwise_iff_getElem.mp h _ _ (by omega) hlater hlt
    have hearlier := source.tokens[earlier].place.start_le_stop
    have hproper := source.tokens[later].place.start_le_stop
    omega
  · have heq : earlier = later := by omega
    simp only [heq, Nat.le_refl, and_self]

/-- Of increasing tokens, an earlier one does not start behind the end of a later one. -/
theorem Increasing.start_le_stop (h : source.Increasing) {i j : Nat} (hij : i ≤ j)
    (hj : j < source.tokens.length) :
    (source.tokens[i]).place.start ≤ (source.tokens[j]).place.stop :=
  (h.place_mono hij hj).1.trans source.tokens[j].place.start_le_stop

/-- A range of increasing tokens reaches from the start of its first to the end of its last. -/
theorem Increasing.locate_eq (h : source.Increasing) {extent : Extent}
    (hfirst : extent.first < extent.stop) (hstop : extent.stop ≤ source.tokens.length) :
    (extent.locate source.spans).start = (source.tokens[extent.first]).place.start ∧
      (extent.locate source.spans).stop = (source.tokens[extent.stop - 1]).place.stop := by
  have hlt : extent.first < source.tokens.length := by omega
  have hlast : extent.stop - 1 < source.tokens.length := by omega
  rw [locate_eq_between (List.getElem?_eq_getElem hlt) (List.getElem?_eq_getElem hlast),
    Span.between_of_le (h.start_le_stop (by omega) hlast)]
  exact ⟨rfl, rfl⟩

/-- The place of a single token. -/
theorem locate_tokenExtent {index : Nat} {token : Located Span Token}
    (h : source.tokens[index]? = some token) :
    (Refusal.tokenExtent index).locate source.spans = token.place := by
  rw [locate_eq_between h h, Span.between_of_le token.place.start_le_stop]

/-- The place of a range of tokens depends on these tokens only. -/
theorem locate_congr {index : Nat}
    (h : other.tokens.take (index + 1) = source.tokens.take (index + 1)) {extent : Extent}
    (hfirst : extent.first ≤ index) (hstop : extent.stop ≤ index + 1) :
    extent.locate other.spans = extent.locate source.spans := by
  have hget {i : Nat} (hi : i ≤ index) : other.tokens[i]? = source.tokens[i]? := by
    have htake := congrArg (fun tokens => tokens[i]?) h
    simp only [List.getElem?_take, Nat.lt_succ_of_le hi, if_true] at htake
    exact htake
  have hlast : extent.stop - 1 ≤ index := by omega
  simp only [Extent.locate, getElem?_spans, hget hfirst, hget hlast]

theorem locate_diagnostic_congr {index : Nat}
    (h : other.tokens.take (index + 1) = source.tokens.take (index + 1))
    {problem : Diagnostic Extent} (hlabels : ∀ label ∈ problem.labels,
      label.place.first ≤ index ∧ label.place.stop ≤ index + 1) :
    other.locate problem = source.locate problem := by
  have hmap : problem.labels.map (Label.mapPlace (Extent.locate other.spans)) =
      problem.labels.map (Label.mapPlace (Extent.locate source.spans)) := by
    refine List.map_congr_left fun label hl => ?_
    obtain ⟨hfirst, hstop⟩ := hlabels label hl
    rw [Label.mapPlace, locate_congr h hfirst hstop, Label.mapPlace]
  simp only [locate, Diagnostic.mapPlace, hmap]

/-- In increasing tokens, a range reaches from its first to its last one and ends before the next
one. -/
theorem Increasing.locate_range (h : source.Increasing) {extent : Extent} {index : Nat}
    {token : Located Span Token} (hfirst : extent.first < index) (hstop : extent.stop = index)
    (htoken : source.tokens[index]? = some token) :
    ∃ first last, first ∈ source.tokens.take index ∧ last ∈ source.tokens.take index ∧
      extent.locate source.spans = first.place.union last.place ∧
      (extent.locate source.spans).stop ≤ token.place.start := by
  obtain ⟨hindex, rfl⟩ := List.getElem?_eq_some_iff.mp htoken
  have hlast : index - 1 < source.tokens.length := by omega
  have hfirst' : extent.first < source.tokens.length := by omega
  have hplace : extent.locate source.spans = .between source.tokens[extent.first].place.start
      source.tokens[index - 1].place.stop :=
    locate_eq_between (List.getElem?_eq_getElem hfirst')
      (by rw [hstop]; exact List.getElem?_eq_getElem hlast)
  have hbefore := List.pairwise_iff_getElem.mp h
  have hle := hbefore _ _ hlast hindex (by omega)
  have hproper := source.tokens[index - 1].place.start_le_stop
  have hcovers := h.place_mono (show extent.first ≤ index - 1 by omega) hlast
  refine ⟨source.tokens[extent.first], source.tokens[index - 1],
    List.mem_take_iff_getElem.mpr ⟨extent.first, by omega, rfl⟩,
    List.mem_take_iff_getElem.mpr ⟨index - 1, by omega, rfl⟩, ?_⟩
  rw [hplace]
  simp only [Span.between, Span.union, Span.mk.injEq]
  omega

/-- What is read from a list of values is read from tokens with these values. -/
theorem completedBy_of_read {before : List (Located Span Token)} {more : List Token}
    {document : Document Extent}
    (h : Document.read (before.map (·.value) ++ more) = .ok document) :
    CompletedBy before more := by
  intro later hlater
  refine ⟨document, ?_⟩
  have hvalues : (SignificantTokens.mk (before ++ later)).values =
      before.map (·.value) ++ more := by
    rw [values, List.map_append, hlater]
  simp only [SignificantTokens.document, hvalues, h]

/-- Token lists that agree up to the token of a refusal get the same diagnostic from it. -/
theorem document_congr {refusal : Refusal} {token : Located Span Token}
    (htoken : source.tokens[refusal.index]? = some token)
    (hranges : ∀ label ∈ (refusal.diagnostic source.values).labels,
      label.place.first ≤ refusal.index ∧ label.place.stop ≤ refusal.index + 1)
    (hsame : ∀ rest, Document.read ((source.tokens.take refusal.index).map (·.value) ++
      token.value :: rest) = .error refusal)
    (hother : other.tokens.take (refusal.index + 1) = source.tokens.take (refusal.index + 1)) :
    other.document = .error [source.locate (refusal.diagnostic source.values)] := by
  have htake : other.values.take (refusal.index + 1) =
      (source.tokens.take refusal.index).map (·.value) ++ [token.value] := by
    rw [values, ← List.map_take, hother, List.take_add_one, htoken, List.map_append]
    rfl
  have hvalues : other.values = (source.tokens.take refusal.index).map (·.value) ++
      token.value :: other.values.drop (refusal.index + 1) := by
    rw [← List.singleton_append, ← List.append_assoc, ← htake, List.take_append_drop]
  have hread : Document.read other.values = .error refusal := by
    rw [hvalues]
    exact hsame _
  have hvalue : source.values[refusal.index]? = some token.value := by
    rw [getElem?_values, htoken]
    rfl
  have hvalue' : other.values[refusal.index]? = source.values[refusal.index]? := by
    have hget := congrArg (fun tokens => tokens[refusal.index]?) hother
    simp only [List.getElem?_take, Nat.lt_succ_self, if_true] at hget
    rw [getElem?_values, getElem?_values, hget]
  have hdiagnostic := Refusal.diagnostic_congr (hvalue ▸ rfl) hvalue'
  simp only [SignificantTokens.document, hread, hdiagnostic,
    locate_diagnostic_congr hother hranges]

/-- A refusal at a token that does not depend on later ones makes it the first offence. -/
theorem firstOffence_of_refusal {refusal : Refusal} {token : Located Span Token}
    (htoken : source.tokens[refusal.index]? = some token)
    (hobstacle : refusal.obstacle ≠ .noDefinitions)
    (hmore : ∃ more document,
      Document.read ((source.tokens.take refusal.index).map (·.value) ++ more) = .ok document)
    (hsame : ∀ rest, Document.read ((source.tokens.take refusal.index).map (·.value) ++
      token.value :: rest) = .error refusal) :
    source.FirstOffence (source.locate (refusal.diagnostic source.values)) refusal.index token := by
  have hvalue : source.values[refusal.index]? = some token.value := by
    rw [getElem?_values, htoken]
    rfl
  obtain ⟨hcode, remark, context, hlabels, hcontext⟩ :=
    Refusal.diagnostic_of_getElem? hvalue hobstacle
  have hlocated : (source.locate (refusal.diagnostic source.values)).labels =
      .primary token.place remark :: context.map (Label.mapPlace (Extent.locate source.spans)) := by
    rw [← locate_tokenExtent htoken]
    exact congrArg (List.map (Label.mapPlace (Extent.locate source.spans))) hlabels
  have hranges : ∀ label ∈ (refusal.diagnostic source.values).labels,
      label.place.first ≤ refusal.index ∧ label.place.stop ≤ refusal.index + 1 := by
    rw [hlabels]
    refine List.forall_mem_cons.mpr ⟨⟨Nat.le_refl _, Nat.le_refl _⟩, fun label hl => ?_⟩
    obtain ⟨-, -, hfirst, hstop⟩ := hcontext label hl
    omega
  obtain ⟨more, document, hread⟩ := hmore
  refine ⟨htoken, hcode, ⟨remark, ?_⟩, fun other => document_congr htoken hranges hsame,
    ⟨more, completedBy_of_read hread⟩, fun label hl hprimary => ?_⟩
  · have hsecondary : ∀ label ∈ context.map (Label.mapPlace (Extent.locate source.spans)),
        ¬label.isPrimary = true := by
      intro label hl
      obtain ⟨written, hw, rfl⟩ := List.mem_map.mp hl
      exact Bool.eq_false_iff.mp (hcontext written hw).1
    rw [hlocated, List.filter_cons_of_pos rfl, List.filter_eq_nil_iff.mpr hsecondary]
  · rw [hlocated] at hl
    rcases List.mem_cons.mp hl with rfl | hl
    · cases hprimary
    · obtain ⟨written, hw, rfl⟩ := List.mem_map.mp hl
      obtain ⟨-, hmessage, hfirst, hstop⟩ := hcontext written hw
      exact ⟨hmessage, fun hincreasing => hincreasing.locate_range hfirst hstop htoken⟩

/-- A refusal behind the last token tells that the tokens end too early. -/
theorem cutShort_of_refusal {refusal : Refusal} (hne : source.tokens ≠ [])
    (hread : Document.read source.values = .error refusal)
    (hindex : refusal.index = source.tokens.length)
    (hobstacle : refusal.obstacle.Fits [])
    (hmore : ∃ more document,
      Document.read (source.tokens.map (·.value) ++ more) = .ok document) :
    source.CutShort (source.locate (refusal.diagnostic source.values)) := by
  have hnone : source.values[refusal.index]? = none := by
    rw [getElem?_values, hindex, List.getElem?_eq_none (Nat.le_refl _)]
    rfl
  obtain ⟨expectation, hexpected⟩ : ∃ expectation, refusal.obstacle = .expected expectation := by
    generalize refusal.obstacle = obstacle at hobstacle
    cases obstacle with
    | expected expectation => exact ⟨expectation, rfl⟩
    | executable => exact absurd rfl hobstacle
    | tooDeep => exact absurd rfl hobstacle
    | noDefinitions => exact hobstacle.elim
  have hdiagnostic : refusal.diagnostic source.values = ⟨some .incompleteInput,
      "unexpected end of input: expected " ++ expectation.text,
      [.primary (Refusal.tokenExtent (source.values.length - 1)) "input ends here"],
      some "check for a missing closing `\x7d`, `)` or `]`"⟩ := by
    simp only [Refusal.diagnostic, hexpected, hnone]
  obtain ⟨more, document, hmore⟩ := hmore
  refine ⟨by rw [hdiagnostic]; rfl, ⟨refusal, hread, hindex⟩, ?_, more, ?_,
    completedBy_of_read hmore⟩
  · have hlast : source.tokens[source.values.length - 1]? = some (source.tokens.getLast hne) := by
      rw [values, List.length_map, ← List.getLast?_eq_getElem?, List.getLast?_eq_some_getLast hne]
    refine ⟨source.tokens.getLast hne, List.getLast?_eq_some_getLast hne, ?_⟩
    rw [hdiagnostic, ← locate_tokenExtent hlast]
    rfl
  · rintro rfl
    rw [List.append_nil, ← values, hread] at hmore
    cases hmore

/-- Tokens that do not form a document get one diagnostic. It points at the first token that cannot
stand where it does, if there is one, and at the last token otherwise. -/
theorem document_eq_error {problems : List (Diagnostic Span)} (hne : source.tokens ≠ [])
    (h : source.document = .error problems) : ∃ problem, problems = [problem] ∧
      ((∃ index token, source.FirstOffence problem index token) ∨ source.CutShort problem) := by
  have hvalues : source.values ≠ [] := by simpa [values] using hne
  obtain ⟨refusal, hread, rfl⟩ : ∃ refusal, Document.read source.values = .error refusal ∧
      problems = [source.locate (refusal.diagnostic source.values)] := by
    unfold document at h
    split at h
    next => cases h
    next refusal hread =>
      cases h
      exact ⟨refusal, hread, rfl⟩
  refine ⟨_, rfl, ?_⟩
  obtain ⟨taken, after, htokens, hindex, hfits, hmore, hsame⟩ :=
    Document.read_eq_error hvalues hread
  have htaken : taken = (source.tokens.take refusal.index).map (·.value) := by
    rw [List.map_take, ← values, htokens, hindex, List.take_left]
  subst htaken
  cases after with
  | nil =>
    have hall : source.tokens.map (·.value) = (source.tokens.take refusal.index).map (·.value) := by
      rwa [List.append_nil] at htokens
    have hlength : refusal.index = source.tokens.length := by
      have hle := congrArg List.length htokens
      rw [values, List.append_nil, List.length_map, ← hindex] at hle
      exact hle.symm
    exact .inr (cutShort_of_refusal hne hread hlength hfits (hall ▸ hmore))
  | cons value rest =>
    have hvalue : source.values[refusal.index]? = some value := by
      rw [htokens, List.getElem?_append_right (Nat.le_of_eq hindex.symm), ← hindex, Nat.sub_self]
      rfl
    rw [getElem?_values] at hvalue
    obtain ⟨token, htoken, rfl⟩ := Option.map_eq_some_iff.mp hvalue
    have hobstacle : refusal.obstacle ≠ .noDefinitions := by
      intro hnone
      rw [hnone] at hfits
      exact hfits
    exact .inl ⟨refusal.index, token, firstOffence_of_refusal htoken hobstacle hmore fun later =>
      hsame _ rfl⟩

/-- A field without a colon before its type is refused at the type. -/
theorem document_eq_error_missing_colon :
    let source : SignificantTokens := ⟨[⟨.name "type", .between 0 4⟩, ⟨.name "A", .between 5 6⟩,
      ⟨.punctuator .leftBrace, .between 7 8⟩, ⟨.name "b", .between 9 10⟩,
      ⟨.name "C", .between 11 12⟩, ⟨.punctuator .rightBrace, .between 13 14⟩]⟩
    source.tokens ≠ [] ∧ source.Increasing ∧ ∃ problems, source.document = .error problems ∧
      ∃ problem, problems = [problem] ∧
        ((∃ index token, source.FirstOffence problem index token) ∨ source.CutShort problem) := by
  intro source
  have hne : source.tokens ≠ [] := List.cons_ne_nil _ _
  have hincreasing : source.Increasing := by
    unfold Increasing
    decide
  have hok : source.document.isOk = false := by decide +kernel
  cases h : source.document with
  | ok document =>
    rw [h] at hok
    cases hok
  | error problems => exact ⟨hne, hincreasing, problems, rfl, document_eq_error hne h⟩

end SignificantTokens

end SdlGraph
