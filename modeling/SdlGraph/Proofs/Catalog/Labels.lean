import SdlGraph.Proofs.Catalog.Phases
import SdlGraph.Proofs.Document.Ranges
import SdlGraph.Proofs.Token.Essentials
import SdlGraph.Proofs.Token.Faults
import SdlGraph.Proofs.Validation.Pointing

/-!
# Where diagnostics point

Whichever phase a diagnostic comes from, it points at pieces of the text that can be shown: not
empty, inside the text, from one boundary between characters to another. Later phases point at
ranges of significant tokens, so such a piece starts with a token and ends with one. An unexpected
character is pointed at by its first byte alone, also where it takes more.
-/

namespace SdlGraph

/-- A byte range of a text holds whole characters, and one at least. -/
structure Span.Shown (source : String) (span : Span) : Prop where
  /-- It is not empty. -/
  nonempty : span.start < span.stop
  /-- It ends in the text. -/
  inside : span.stop ≤ source.utf8ByteSize
  /-- It starts between characters. -/
  start_isValid : (String.Pos.Raw.mk span.start).IsValid source
  /-- It ends between characters. -/
  stop_isValid : (String.Pos.Raw.mk span.stop).IsValid source

/-- A byte range of a text is the first byte of a character at which no lexeme starts. -/
def Span.Rejected (source : String) (span : Span) : Prop :=
  ∃ before c after, source.toList = before ++ c :: after ∧ span.start = utf8Length before ∧
    span.stop = utf8Length before + 1 ∧
    ∀ token piece rest, Lexeme token piece rest → piece ++ rest ≠ c :: after

/-- A diagnostic is about a character at which no token starts. -/
def Diagnostic.IsRejection {σ : Type} (problem : Diagnostic σ) : Prop :=
  problem.code = some .unexpectedCharacter ∧ problem.message = "unexpected character"

variable {source : String}

/-- The byte range of a piece that is not empty can be shown. -/
theorem Span.shown_between {front piece back : List Char}
    (h : source.toList = front ++ (piece ++ back)) (hne : piece ≠ []) :
    (Span.between (utf8Length front) (utf8Length (front ++ piece))).Shown source := by
  obtain ⟨hstart, hstop⟩ := Span.isValid_of_holds (Span.holds_between h)
  refine ⟨?_, hstop.le_utf8ByteSize, hstart, hstop⟩
  rw [utf8Length_append, Span.stop_between]
  exact Nat.lt_add_of_pos_right (utf8Length_pos hne)

/-- What a lexical fault points at. -/
theorem LexicalFault.span_of_locate {region : Located Span Region} {fault : LexicalFault}
    (hregion : region ∈ Region.locate 0 (Region.cut source.toList))
    (hfault : region.value.outcome = .error fault) :
    (fault = .unexpectedCharacter → (fault.span region.place.start).Rejected source) ∧
      (fault ≠ .unexpectedCharacter → (fault.span region.place.start).Shown source) := by
  obtain ⟨before, c, after, hsource, hregionPlace, hvalue⟩ :=
    Region.exists_of_mem_locate [] hregion
  rw [List.nil_append] at hsource
  have hplace : region.place.start = utf8Length before := hregionPlace ▸ rfl
  have hread : (Reading.ofText c after).outcome = .error fault := by
    rw [← hfault, hvalue]
    rfl
  constructor
  · rintro rfl
    refine ⟨before, c, after, hsource, ?_, ?_, fun token piece rest hlexeme he => ?_⟩
    · rw [hplace]
      rfl
    · rw [hplace]
      exact Span.stop_between _ _
    · obtain ⟨first, more, rfl, htoken⟩ := Reading.ofText_of_lexeme hlexeme
      rw [List.cons_append] at he
      obtain ⟨rfl, rfl⟩ := List.cons.inj he
      rw [htoken] at hread
      cases hread
  · intro hne
    obtain ⟨front, piece, back, htext, hpiece, hspan⟩ :=
      (Reading.marks_of_ofText hread).resolve_left hne
    have hall : source.toList = (before ++ front) ++ (piece ++ back) := by
      rw [hsource, htext, List.append_assoc]
    rw [hspan, hplace, ← utf8Length_append, ← utf8Length_append, ← List.append_assoc]
    exact Span.shown_between hall hpiece

/-- Only an unexpected character is told as one. -/
theorem LexicalFault.isRejection_iff {start : Nat} {fault : LexicalFault} :
    (fault.diagnostic start).IsRejection ↔ fault = .unexpectedCharacter := by
  cases fault <;> simp [Diagnostic.IsRejection, diagnostic, code, message]

namespace SignificantTokens

variable {tokens : SignificantTokens}

/-- The significant tokens of a text can be shown, and each ends before the next one starts. -/
theorem shown_of_ofSource (h : ofSource source = .ok tokens) :
    tokens.Increasing ∧ ∀ token ∈ tokens.tokens, token.place.Shown source := by
  obtain ⟨all, hscan, hfilter⟩ := ofSource_eq_ok_iff.mp h
  obtain ⟨split, hsplit, rfl⟩ := Lexeme.scan_eq_ok_iff.mp hscan
  have hcover := hsplit.cover
  refine ⟨?_, fun token ht => ?_⟩
  · rw [Increasing, ← hfilter]
    exact (List.pairwise_map.mp hsplit.tiling.pairwise).filter _
  · rw [← hfilter] at ht
    have hmem := List.mem_of_mem_filter ht
    obtain ⟨hstart, hstop⟩ := hcover.boundaries token hmem
    exact ⟨hcover.nonempty token hmem, hstop.le_utf8ByteSize, hstart, hstop⟩

/-- A range of tokens is shown from the start of one token to the end of one. -/
theorem shown_locate {extent : Extent} (hincreasing : tokens.Increasing)
    (hshown : ∀ token ∈ tokens.tokens, token.place.Shown source)
    (hinside : extent.Inside 0 tokens.tokens.length) :
    (extent.locate tokens.spans).Shown source ∧
      ∃ first ∈ tokens.tokens, ∃ last ∈ tokens.tokens,
        (extent.locate tokens.spans).start = first.place.start ∧
        (extent.locate tokens.spans).stop = last.place.stop := by
  obtain ⟨-, hlt, hstop⟩ := hinside
  obtain ⟨hstart, hend⟩ := hincreasing.locate_eq hlt hstop
  have hfirst := List.getElem_mem (show extent.first < tokens.tokens.length by omega)
  have hlast := List.getElem_mem (show extent.stop - 1 < tokens.tokens.length by omega)
  -- The last token is the first one, or stands behind it.
  have hnonempty : (extent.locate tokens.spans).start < (extent.locate tokens.spans).stop := by
    rw [hstart, hend]
    rcases Nat.lt_or_ge extent.first (extent.stop - 1) with hless | hge
    · have hapart := List.pairwise_iff_getElem.mp hincreasing _ _ (by omega) (by omega) hless
      exact (hshown _ hfirst).nonempty.trans_le (hapart.trans (hshown _ hlast).nonempty.le)
    · have heq : extent.first = extent.stop - 1 := by omega
      simpa only [heq] using (hshown _ hlast).nonempty
  refine ⟨⟨hnonempty, ?_, ?_, ?_⟩, _, hfirst, _, hlast, hstart, hend⟩
  · exact hend ▸ (hshown _ hlast).inside
  · exact hstart ▸ (hshown _ hfirst).start_isValid
  · exact hend ▸ (hshown _ hlast).stop_isValid

end SignificantTokens

/-- The diagnostic of a refusal points at ranges of the tokens that are refused. -/
theorem Refusal.inside_diagnostic {tokens : List Token} {refusal : Refusal}
    (h : Document.read tokens = .error refusal) :
    ∀ label ∈ (refusal.diagnostic tokens).labels, label.place.Inside 0 tokens.length := by
  by_cases hne : tokens = []
  · subst hne
    cases h
    exact List.forall_mem_nil _
  obtain ⟨taken, after, htokens, hindex, hfits, -⟩ := Document.read_eq_error hne h
  have hat (hlt : refusal.index < tokens.length) :
      (tokenExtent refusal.index).Inside 0 tokens.length :=
    ⟨Nat.zero_le _, Nat.lt_succ_self _, hlt⟩
  have hlt (hafter : after ≠ []) : refusal.index < tokens.length := by
    have hpos := List.length_pos_iff.mpr hafter
    rw [htokens, hindex, List.length_append]
    omega
  unfold diagnostic
  split
  next hobstacle =>
    rw [hobstacle] at hfits
    exact List.forall_mem_singleton.mpr (hat (hlt hfits))
  next hobstacle =>
    rw [hobstacle] at hfits
    exact List.forall_mem_singleton.mpr (hat (hlt hfits))
  next => exact List.forall_mem_nil _
  next =>
    split
    next token htoken =>
      have hless := (List.getElem?_eq_some_iff.mp htoken).1
      refine List.forall_mem_cons.mpr ⟨hat hless, fun label hl => ?_⟩
      obtain ⟨extent, hextent, rfl⟩ := Option.map_eq_some_iff.mp (Option.mem_toList.mp hl)
      obtain ⟨hfirst, hstop⟩ := context?_eq_some hextent
      exact ⟨Nat.zero_le _, hstop.symm ▸ hfirst, hstop.symm ▸ hless.le⟩
    next =>
      have hpos := List.length_pos_iff.mpr hne
      refine List.forall_mem_singleton.mpr ⟨Nat.zero_le _, Nat.lt_succ_self _, ?_⟩
      show tokens.length - 1 + 1 ≤ tokens.length
      omega

/-- No refusal is told as an unexpected character. -/
theorem Refusal.code_diagnostic_ne {tokens : List Token} {refusal : Refusal} :
    (refusal.diagnostic tokens).code ≠ some .unexpectedCharacter := by
  unfold diagnostic
  split
  next => simp
  next => simp
  next => simp
  next => split <;> simp

namespace Catalog

variable {problems : List (Diagnostic Span)} {tokens : SignificantTokens}

/-- A label stands at the first byte of an unexpected character if its diagnostic is about one, and
can be shown otherwise; if the text has no lexical faults, it covers significant tokens. -/
def PointsProperly (source : String) (problem : Diagnostic Span) (label : Label Span) : Prop :=
  (problem.IsRejection → label.place.Rejected source) ∧
    (¬problem.IsRejection → label.place.Shown source) ∧
    ∀ tokens, SignificantTokens.ofSource source = .ok tokens →
      ∃ first ∈ tokens.tokens, ∃ last ∈ tokens.tokens,
        label.place.start = first.place.start ∧ label.place.stop = last.place.stop

/-- The diagnostics of lexical faults point properly. -/
theorem pointsProperly_of_scan (hscan : Token.scan source = .error problems) :
    ∀ problem ∈ problems, ∀ label ∈ problem.labels, PointsProperly source problem label := by
  intro problem hp label hl
  obtain ⟨region, hregion, fault, hfault, rfl⟩ := Token.exists_fault_of_scan hscan hp
  obtain ⟨hrejected, hshown⟩ := LexicalFault.span_of_locate hregion hfault
  rw [PointsProperly, LexicalFault.isRejection_iff, List.mem_singleton.mp hl]
  refine ⟨hrejected, hshown, fun tokens htokens => ?_⟩
  obtain ⟨all, hall, -⟩ := SignificantTokens.ofSource_eq_ok_iff.mp htokens
  rw [hscan] at hall
  cases hall

/-- A diagnostic of a later phase points properly if it points at ranges of tokens. -/
theorem pointsProperly_of_inside {problem : Diagnostic Extent}
    (htokens : SignificantTokens.ofSource source = .ok tokens)
    (hcode : problem.code ≠ some .unexpectedCharacter)
    (hinside : ∀ label ∈ problem.labels, label.place.Inside 0 tokens.tokens.length) :
    ∀ label ∈ (tokens.locate problem).labels,
      PointsProperly source (tokens.locate problem) label := by
  intro label hl
  obtain ⟨written, hw, rfl⟩ := List.mem_map.mp hl
  obtain ⟨hincreasing, hall⟩ := SignificantTokens.shown_of_ofSource htokens
  obtain ⟨hshown, hcovers⟩ :=
    SignificantTokens.shown_locate hincreasing hall (hinside written hw)
  refine ⟨fun hrejection => absurd hrejection.1 hcode, fun _ => hshown, fun others hothers => ?_⟩
  obtain rfl : tokens = others := Except.ok.inj (htokens.symm.trans hothers)
  exact hcovers

/-- Every label of every diagnostic of a text can be shown, but for that of an unexpected character,
which is the first byte of the character. Where the text has no lexical faults, it starts with a
significant token and ends with one. -/
theorem labels_of_ofSource (h : ofSource source = .error problems) :
    ∀ problem ∈ problems, ∀ label ∈ problem.labels, PointsProperly source problem label := by
  cases fails_of_ofSource h with
  | lexical hscan => exact pointsProperly_of_scan hscan
  | @syntactic tokens refusal htokens hread hproblems =>
    rw [hproblems]
    refine List.forall_mem_singleton.mpr (pointsProperly_of_inside htokens ?_ ?_)
    · exact Refusal.code_diagnostic_ne
    · have hinside := Refusal.inside_diagnostic hread
      rwa [SignificantTokens.values, List.length_map] at hinside
  | @structural tokens document htokens hread hfindings hproblems =>
    intro problem hp
    rw [hproblems] at hp
    obtain ⟨finding, hf, rfl⟩ := List.mem_map.mp hp
    have hinside := Document.inside_of_read hread
    rw [SignificantTokens.values, List.length_map] at hinside
    refine pointsProperly_of_inside htokens ?_ fun label hl => ?_
    · cases finding <;> simp [Finding.diagnostic, Finding.code]
    · exact hinside _ (document.pointInto_findings finding hf label hl)

/-- An umlaut that starts no token is pointed at by its first byte; an unknown type and a field
defined twice are pointed at as a whole, also behind a comment with an umlaut. -/
theorem labels_of_ofSource_umlaut :
    let rejected := "type ü"
    let invalid := "# ü\ntype Query \x7b a: Nope a: Int \x7d"
    (∃ problems, ofSource rejected = .error problems ∧
      problems.map (·.labels.map (·.place)) = [[.between 5 6]] ∧
      ∀ problem ∈ problems, ∀ label ∈ problem.labels, PointsProperly rejected problem label) ∧
    ∃ problems, ofSource invalid = .error problems ∧
      problems.map (·.labels.map (·.place)) = [[.between 26 27, .between 18 19], [.between 21 25]] ∧
      ∀ problem ∈ problems, ∀ label ∈ problem.labels, PointsProperly invalid problem label := by
  intro rejected invalid
  have hrejected : (match ofSource rejected with
      | .ok _ => []
      | .error problems => problems.map (·.labels.map (·.place))) = [[.between 5 6]] := by
    decide +kernel
  have hinvalid : (match ofSource invalid with
      | .ok _ => []
      | .error problems => problems.map (·.labels.map (·.place))) =
      [[.between 26 27, .between 18 19], [.between 21 25]] := by
    decide +kernel
  constructor
  · cases h : ofSource rejected with
    | ok catalog => simp [h] at hrejected
    | error problems =>
      rw [h] at hrejected
      exact ⟨problems, rfl, hrejected, labels_of_ofSource h⟩
  · cases h : ofSource invalid with
    | ok catalog => simp [h] at hinvalid
    | error problems =>
      rw [h] at hinvalid
      exact ⟨problems, rfl, hinvalid, labels_of_ofSource h⟩

end Catalog

end SdlGraph
