import SdlGraph.Proofs.Document.BoundedDepth
import SdlGraph.Proofs.Document.Entrances
import SdlGraph.Proofs.Document.FirstOffence

/-!
# The nesting limit

Types and constants nest up to the limit and no further. A type or a constant is entered with as
many levels left as there are brackets of it open less than the limit. A list or an input object
that begins while fewer are open can be completed to a document, and one that begins while as many
are open as the limit allows is refused at its opening mark, which is the only reason for the
diagnostic that tells of it.
-/

namespace SdlGraph

namespace Parser.Stops

variable {refusal : Refusal} {part : NestedPart} {deeper : Nat} {taken after : List Token}

/-- The brackets that are open where a document is refused at a part are those that its reader has
gone into. -/
theorem openBrackets_eq (h : (collect definition?).Stops nestingLimit 0 none 0 refusal part deeper
    taken after) : openBrackets taken = deeper := by
  rw [openBrackets, h.track, Option.getD_some, Nat.zero_add]

/-- Nothing is awaited before anything is read. -/
theorem ne_nil (h : (collect definition?).Stops nestingLimit 0 none 0 refusal part deeper taken
    after) : taken ≠ [] := by
  rintro rfl
  have hnone : (none : Option Nat) = some (0 + deeper) := h.track
  cases hnone

end Parser.Stops

namespace Document

variable {tokens taken rest : List Token} {part : NestedPart} {token : Token} {refusal : Refusal}

/-- Behind some tokens a type or a constant has to begin: it is what is missing there. -/
def Awaits (part : NestedPart) (tokens : List Token) : Prop :=
  ∃ since, Document.read tokens = .error ⟨.expected part.expectation, tokens.length, since⟩

/-- Behind some tokens the reader of a type or a constant is entered with some levels left: what it
refuses is refused, unless the next token closes what is around the part. -/
def Enters (part : NestedPart) (levels : Nat) (taken : List Token) : Prop :=
  ∀ rest, HeadOutside closingMarks rest → ∀ refusal,
    part.reader levels ⟨taken.length, rest⟩ = .error refusal →
      ∃ since, Document.read (taken ++ rest) = .error { refusal with since := since }

/-- Tokens are refused if their definitions are. -/
theorem read_eq_error_iff (hne : tokens ≠ []) : Document.read tokens = .error refusal ↔
    Parser.collect Parser.definition? ⟨0, tokens⟩ = .error refusal := by
  cases tokens with
  | nil => exact absurd rfl hne
  | cons token tokens =>
    simp only [Document.read]
    cases Parser.collect Parser.definition? ⟨0, token :: tokens⟩ with
    | ok answer => exact iff_of_false (by rintro ⟨⟩) (by rintro ⟨⟩)
    | error refusal' => simp only [Except.error.injEq]

/-- The definitions lead to types and constants, and a refusal at one of them is one of its
reader. -/
theorem exists_stops (h : Document.read tokens = .error refusal) (hat : refusal.obstacle.AtPart) :
    ∃ part deeper taken after, tokens = taken ++ after ∧
      (Parser.collect Parser.definition?).Stops nestingLimit 0 none 0 refusal part deeper taken
        after := by
  have hne : tokens ≠ [] := by
    rintro rfl
    cases h
    exact hat
  exact (Parser.wraps_definitions 0 tokens).stops
    (fun part => NestedPart.reader_stops nestingLimit part 0) ((read_eq_error_iff hne).mp h) hat

/-- Where a document is refused at a part, its reader was entered. -/
theorem enters_of_stops {deeper : Nat} {after : List Token}
    (h : (Parser.collect Parser.definition?).Stops nestingLimit 0 none 0 refusal part deeper taken
      after) : Enters part (nestingLimit - deeper) taken := by
  intro rest hrest inner hr
  rw [← Nat.zero_add taken.length] at hr
  obtain ⟨since, hread⟩ := h.reaches rest (.inr hrest) inner hr
  have hne : taken ++ rest ≠ [] := List.append_ne_nil_of_left_ne_nil h.ne_nil rest
  exact ⟨since, (read_eq_error_iff hne).mpr hread⟩

/-- A part whose reader is entered is awaited. -/
theorem Enters.awaits {levels : Nat} (h : Enters part levels taken) : Awaits part taken := by
  obtain ⟨since, hread⟩ := h [] HeadOutside.nil _ (part.reader_nil levels taken.length)
  rw [List.append_nil] at hread
  exact ⟨since, hread⟩

/-- Where a part is awaited, the definitions lead to it. -/
theorem Awaits.exists_stops (h : Awaits part taken) : ∃ refusal,
    (Parser.collect Parser.definition?).Stops nestingLimit 0 none 0 refusal part
      (openBrackets taken) taken [] := by
  obtain ⟨since, hread⟩ := h
  have hat : (Obstacle.expected part.expectation).AtPart := by cases part <;> exact trivial
  obtain ⟨part', deeper, us, after, rfl, hstops⟩ := Document.exists_stops hread hat
  have hall : after = [] := by
    have hindex := hstops.index
    simp only [List.length_append] at hindex
    exact List.length_eq_zero_iff.mp (by omega)
  have hpart : part' = part := by
    rcases hstops.obstacle with hexpected | ⟨-, hdeep, -⟩
    · cases part <;> cases part' <;> first | rfl | cases hexpected
    · cases hdeep
  subst hall hpart
  rw [List.append_nil, hstops.openBrackets_eq]
  exact ⟨_, hstops⟩

/-- Where a part is awaited, its reader is entered with as many levels left as the brackets that
are open leave of the limit. -/
theorem Awaits.enters (h : Awaits part taken) : openBrackets taken ≤ nestingLimit ∧
    Enters part (nestingLimit - openBrackets taken) taken := by
  obtain ⟨refusal, hstops⟩ := h.exists_stops
  exact ⟨hstops.le, enters_of_stops hstops⟩

/-- The opening mark of a part that is awaited is one more open bracket. -/
theorem Awaits.openBrackets_append (h : Awaits part taken) (hopens : part.Opens token) :
    openBrackets (taken ++ [token]) = openBrackets taken + 1 := by
  obtain ⟨refusal, hstops⟩ := h.exists_stops
  have htrack := hstops.track
  rw [Nat.zero_add] at htrack
  have hnext : Nesting.track (some (openBrackets taken)) [token] =
      some (openBrackets taken + 1) := by
    cases hopens <;> rfl
  rw [openBrackets, Nesting.track_append, htrack, hnext]
  rfl

/-- An opening mark closes nothing. -/
theorem headOutside_of_opens (h : part.Opens token) (rest : List Token) :
    HeadOutside closingMarks (token :: rest) := by
  cases h with
  | list part => exact HeadOutside.mark (by decide)
  | object => exact HeadOutside.mark (by decide)

/-- A part that nests is refused at its opening mark if as many brackets are open as the limit
allows. -/
theorem Awaits.read_eq_tooDeep (h : Awaits part taken) (hopens : part.Opens token)
    (hlimit : openBrackets taken = nestingLimit) (rest : List Token) :
    ∃ since, Document.read (taken ++ token :: rest) = .error ⟨.tooDeep, taken.length, since⟩ := by
  have henters := h.enters.2
  rw [hlimit, Nat.sub_self] at henters
  exact henters _ (headOutside_of_opens hopens rest) _ (NestedPart.reader_zero_opens hopens _ rest)

/-- A nesting that is too deep is refused at an opening mark before which as many brackets are open
as the limit allows. -/
theorem exists_awaits_of_tooDeep (h : Document.read tokens = .error refusal)
    (hdeep : refusal.obstacle = .tooDeep) : ∃ part token, tokens[refusal.index]? = some token ∧
      part.Opens token ∧ Awaits part (tokens.take refusal.index) ∧
        openBrackets (tokens.take refusal.index) = nestingLimit := by
  have hat : refusal.obstacle.AtPart := by
    rw [hdeep]
    exact trivial
  obtain ⟨part, deeper, taken, after, rfl, hstops⟩ := exists_stops h hat
  have hindex : refusal.index = taken.length := by rw [hstops.index, Nat.zero_add]
  rw [hindex, List.take_left]
  rcases hstops.obstacle with hexpected | ⟨hdeeper, -, token, ht, hopens⟩
  · rw [hdeep] at hexpected
    cases hexpected
  · obtain ⟨rest, rfl⟩ := List.head?_eq_some_iff.mp ht
    refine ⟨part, token, ?_, hopens, (enters_of_stops hstops).awaits, ?_⟩
    · rw [List.getElem?_append_right (Nat.le_refl _), Nat.sub_self]
      rfl
    · rw [hstops.openBrackets_eq, hdeeper]

/-- While fewer brackets are open, a list that begins has its items awaited. -/
theorem Awaits.list (h : Awaits part taken) (hless : openBrackets taken < nestingLimit) :
    Awaits part (taken ++ [.punctuator .leftBracket]) := by
  have henters := h.enters.2
  obtain ⟨levels, hlevels⟩ := Nat.exists_eq_succ_of_ne_zero (Nat.sub_ne_zero_of_lt hless)
  rw [hlevels] at henters
  obtain ⟨since, hread⟩ := henters _ (headOutside_of_opens (.list part) []) _
    (part.reader_list levels taken.length)
  exact ⟨since, by rw [List.length_append]; exact hread⟩

/-- While fewer brackets are open, a list or an input object that begins can be completed. -/
theorem Awaits.exists_read (h : Awaits part taken) (hopens : part.Opens token)
    (hless : openBrackets taken < nestingLimit) :
    ∃ more document, Document.read (taken ++ token :: more) = .ok document := by
  have henters := h.enters.2
  obtain ⟨levels, hlevels⟩ := Nat.exists_eq_succ_of_ne_zero (Nat.sub_ne_zero_of_lt hless)
  rw [hlevels] at henters
  obtain ⟨inner, hinner, hindex⟩ : ∃ inner,
      part.reader (levels + 1) ⟨taken.length, [token]⟩ = .error inner ∧
        inner.index = taken.length + 1 := by
    cases hopens with
    | list part => exact ⟨_, part.reader_list levels taken.length, rfl⟩
    | object => exact ⟨_, NestedPart.reader_object levels taken.length, rfl⟩
  obtain ⟨since, hread⟩ := henters _ (headOutside_of_opens hopens []) inner hinner
  obtain ⟨us, after, htokens, hus, -, ⟨more, document, hmore⟩, -⟩ :=
    Document.read_eq_error (List.append_ne_nil_of_right_ne_nil _ (List.cons_ne_nil _ _)) hread
  have hlength : us.length = (taken ++ [token]).length := by
    rw [← hus, List.length_append]
    exact hindex
  obtain ⟨rfl, -⟩ := List.append_inj (htokens.symm.trans (List.append_nil _).symm) hlength
  exact ⟨more, document, by rwa [List.append_assoc] at hmore⟩

/-- A type is awaited behind the colon of a field, and a constant behind that of an argument. No
bracket is open there. -/
theorem exists_awaits_zero (part : NestedPart) :
    ∃ taken, Awaits part taken ∧ openBrackets taken = 0 := by
  have hawaits {taken : List Token} (since : Option Nat)
      (h : (Document.read taken).map (fun _ => ()) =
        .error ⟨.expected part.expectation, taken.length, since⟩) : Awaits part taken := by
    cases hread : Document.read taken with
    | ok document =>
      rw [hread] at h
      cases h
    | error refusal =>
      rw [hread] at h
      cases h
      exact ⟨since, hread⟩
  cases part with
  | type =>
    exact ⟨[.name "type", .name "A", .punctuator .leftBrace, .name "b", .punctuator .colon],
      hawaits (some 4) (by decide +kernel), by decide⟩
  | value =>
    exact ⟨[.name "type", .name "A", .punctuator .atSign, .name "b", .punctuator .leftParen,
      .name "c", .punctuator .colon], hawaits (some 5) (by decide +kernel), by decide⟩

/-- Up to the limit, any number of brackets may be open where a part is awaited. -/
theorem exists_awaits (part : NestedPart) {depth : Nat} (h : depth ≤ nestingLimit) :
    ∃ taken, Awaits part taken ∧ openBrackets taken = depth := by
  induction depth with
  | zero => exact exists_awaits_zero part
  | succ depth ih =>
    obtain ⟨taken, hawaits, hdepth⟩ := ih (Nat.le_of_succ_le h)
    refine ⟨taken ++ [.punctuator .leftBracket], hawaits.list (by omega), ?_⟩
    rw [hawaits.openBrackets_append (.list part), hdepth]

end Document

/-- The diagnostic of a nesting that is too deep, at the place of a bracket. -/
def nestingDiagnostic (place : Span) : Diagnostic Span where
  code := Code.ofText? "E100"
  message := "nesting too deep: lists and input objects may be nested at most 128 levels"
  labels := [.primary place "nesting limit exceeded here"]
  help := some "flatten the type or default value"

/-- Only a nesting that is too deep is helped by flattening. -/
theorem Refusal.obstacle_eq_tooDeep {refusal : Refusal} {tokens : List Token}
    (h : (refusal.diagnostic tokens).help = some "flatten the type or default value") :
    refusal.obstacle = .tooDeep := by
  unfold diagnostic at h
  split at h
  next => simp at h
  next hdeep => exact hdeep
  next => simp at h
  next => split at h <;> simp at h

namespace SignificantTokens

/-- Nesting is bounded in the tokens of a document, and by exactly the limit. -/
structure NestingBounded (source : SignificantTokens) : Prop where
  /-- Each repetition of the grammar goes round for as long as there are items, and takes a token
  each time. -/
  loops : ∀ {α : Type} {step : Parser (Option α)}, Parser.ListLoop step →
    ∀ cursor, step.Repeats cursor (Parser.collect step cursor)
  /-- Wherever a type or a constant is awaited, no more of its brackets are open than the limit
  allows, and its reader is entered with the levels that they leave. -/
  entered : ∀ part taken, Document.Awaits part taken →
    openBrackets taken ≤ nestingLimit ∧
      Document.Enters part (nestingLimit - openBrackets taken) taken
  /-- Any number of open brackets up to the limit occurs. -/
  attained : ∀ part depth, depth ≤ nestingLimit →
    ∃ taken, Document.Awaits part taken ∧ openBrackets taken = depth
  /-- What nests while fewer are open can be completed to a document. -/
  admitted : ∀ part taken token, Document.Awaits part taken → part.Opens token →
    openBrackets taken < nestingLimit →
      ∃ more document, Document.read (taken ++ token :: more) = .ok document
  /-- What nests while as many are open as the limit allows is rejected at its opening mark. -/
  rejected : ∀ part index token, source.tokens[index]? = some token → part.Opens token.value →
    Document.Awaits part (source.values.take index) →
    openBrackets (source.values.take index) = nestingLimit →
      source.document = .error [nestingDiagnostic token.place]
  /-- Nothing else is rejected in this way. -/
  justified : ∀ problems place, source.document = .error problems →
    nestingDiagnostic place ∈ problems →
      ∃ part index token, source.tokens[index]? = some token ∧ token.place = place ∧
        part.Opens token.value ∧ Document.Awaits part (source.values.take index) ∧
          openBrackets (source.values.take index) = nestingLimit
  /-- The types of an accepted document are lists no deeper than the limit, so that what goes down
  into them nests a bounded number of calls. -/
  types : ∀ document, source.document = .ok document → ∀ written ∈ document.annotations,
    written.type.listDepth ≤ nestingLimit ∧
      written.type.baseNameWithin (2 * nestingLimit + 2) = some written.type.baseName ∧
      written.type.renderWithin (2 * nestingLimit + 2) = some written.type.render
  /-- So are its constants. -/
  constants : ∀ document, source.document = .ok document → ∀ constant ∈ document.constants,
    constant.value.depth ≤ nestingLimit ∧
      constant.value.renderWithin (nestingLimit + 1) = some constant.value.render

/-- The diagnostic of a nesting that is too deep points at the opening mark. -/
theorem locate_tooDeep {source : SignificantTokens} {index : Nat} {token : Located Span Token}
    (htoken : source.tokens[index]? = some token) (since : Option Nat) :
    source.locate (Refusal.diagnostic source.values ⟨.tooDeep, index, since⟩) =
      nestingDiagnostic token.place := by
  have hplace := locate_tokenExtent htoken
  have hcode : some Code.unexpectedToken = Code.ofText? "E100" := by decide
  have hmessage : "nesting too deep: lists and input objects may be nested at most " ++
      toString nestingLimit ++ " levels" =
        "nesting too deep: lists and input objects may be nested at most 128 levels" := by
    decide +kernel
  simp only [Refusal.diagnostic, locate, Diagnostic.mapPlace, List.map_cons, List.map_nil,
    Label.mapPlace, Label.primary, hplace, nestingDiagnostic, hcode, hmessage]

/-- A refused document gets the diagnostic of its refusal. -/
theorem exists_refusal {source : SignificantTokens} {problems : List (Diagnostic Span)}
    (h : source.document = .error problems) : ∃ refusal,
      Document.read source.values = .error refusal ∧
        problems = [source.locate (refusal.diagnostic source.values)] := by
  unfold document at h
  split at h
  next => cases h
  next refusal hread =>
    cases h
    exact ⟨refusal, hread, rfl⟩

/-- Where as many brackets are open as the limit allows, an opening mark is what is told of. -/
theorem document_of_limit {source : SignificantTokens} {part : NestedPart} {index : Nat}
    {token : Located Span Token} (htoken : source.tokens[index]? = some token)
    (hopens : part.Opens token.value) (hawaits : Document.Awaits part (source.values.take index))
    (hlimit : openBrackets (source.values.take index) = nestingLimit) :
    source.document = .error [nestingDiagnostic token.place] := by
  have hvalue : source.values[index]? = some token.value := by
    rw [getElem?_values, htoken]
    rfl
  obtain ⟨hindex, hget⟩ := List.getElem?_eq_some_iff.mp hvalue
  have hvalues : source.values = source.values.take index ++
      token.value :: source.values.drop (index + 1) := by
    rw [← hget, ← List.drop_eq_getElem_cons hindex, List.take_append_drop]
  have hlength : (source.values.take index).length = index :=
    List.length_take_of_le (Nat.le_of_lt hindex)
  obtain ⟨since, hread⟩ := hawaits.read_eq_tooDeep hopens hlimit (source.values.drop (index + 1))
  rw [← hvalues, hlength] at hread
  rw [document, hread]
  simp only [locate_tooDeep htoken]

/-- The diagnostic of a nesting that is too deep stands at an opening mark before which as many
brackets are open as the limit allows. -/
theorem exists_limit_of_mem {source : SignificantTokens} {problems : List (Diagnostic Span)}
    {place : Span} (h : source.document = .error problems)
    (hmem : nestingDiagnostic place ∈ problems) :
    ∃ part index token, source.tokens[index]? = some token ∧ token.place = place ∧
      part.Opens token.value ∧ Document.Awaits part (source.values.take index) ∧
        openBrackets (source.values.take index) = nestingLimit := by
  obtain ⟨refusal, hread, rfl⟩ := exists_refusal h
  have hsame := List.mem_singleton.mp hmem
  have hdeep : refusal.obstacle = .tooDeep :=
    Refusal.obstacle_eq_tooDeep (congrArg Diagnostic.help hsame).symm
  obtain ⟨part, value, hvalue, hopens, hawaits, hlimit⟩ :=
    Document.exists_awaits_of_tooDeep hread hdeep
  rw [getElem?_values] at hvalue
  obtain ⟨token, htoken, rfl⟩ := Option.map_eq_some_iff.mp hvalue
  refine ⟨part, refusal.index, token, htoken, ?_, hopens, hawaits, hlimit⟩
  obtain ⟨obstacle, index, since⟩ := refusal
  obtain rfl : obstacle = .tooDeep := hdeep
  rw [locate_tooDeep htoken] at hsame
  exact (Option.some.inj (congrArg Diagnostic.primaryPlace? hsame)).symm

/-- Whatever the tokens, nesting is bounded in them. -/
theorem nestingBounded (source : SignificantTokens) : source.NestingBounded where
  loops h := h.advances.repeats
  entered part taken h := h.enters
  attained part depth h := Document.exists_awaits part h
  admitted part taken token h hopens hless := h.exists_read hopens hless
  rejected part index token htoken hopens hawaits hlimit :=
    document_of_limit htoken hopens hawaits hlimit
  justified problems place h hmem := exists_limit_of_mem h hmem
  types document h written hw := by
    have hread := Document.mem_spelling_of_read (document_eq_ok_iff.mp h)
    obtain ⟨hapart, hdepth⟩ := hread.2.annotations written hw
    have hwrappers : written.type.wrappers < 2 * nestingLimit + 2 := by
      have hle := TypeRef.wrappers_le hapart
      split at hle <;> omega
    exact ⟨hdepth, TypeRef.baseNameWithin_eq hwrappers, TypeRef.renderWithin_eq hwrappers⟩
  constants document h constant hc := by
    have hread := Document.mem_spelling_of_read (document_eq_ok_iff.mp h)
    have hdepth := (hread.2.constants constant hc).2
    exact ⟨hdepth, Value.renderWithin_eq (Nat.lt_succ_of_le hdepth)⟩

end SignificantTokens

end SdlGraph
