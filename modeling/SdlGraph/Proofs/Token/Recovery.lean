import SdlGraph.Proofs.Token.Skipping

/-!
# Resuming after a fault

Each reading takes at least one character, so the regions that a text is read in tile it, and there
are no more of them than characters. A region with a fault is told once, by a diagnostic that points
into the region, so diagnostics come in the order of the text. A quoted string with a fault is
skipped up to its end, which lies where reading would have ended had the string been sound.
-/

namespace SdlGraph

/-- A diagnostic points at one place, and this place starts within a byte range. -/
def Diagnostic.StartsIn (problem : Diagnostic Span) (span : Span) : Prop :=
  ∃ label, problem.labels = [label] ∧ span.start ≤ label.place.start ∧
    label.place.start < span.stop

/-- Whatever a diagnostic points at starts before what another one points at. -/
def Diagnostic.StartsBefore (problem next : Diagnostic Span) : Prop :=
  ∀ label ∈ problem.labels, ∀ other ∈ next.labels, label.place.start < other.place.start

/-- A diagnostic that points into a range starts before one that points behind it. -/
theorem Diagnostic.StartsIn.startsBefore {problem next : Diagnostic Span} {span other : Span}
    (hproblem : problem.StartsIn span) (hnext : next.StartsIn other) (h : span.stop ≤ other.start) :
    problem.StartsBefore next := by
  obtain ⟨label, hlabel, -, hlt⟩ := hproblem
  obtain ⟨label', hlabel', hle, -⟩ := hnext
  simp only [StartsBefore, hlabel, hlabel', List.forall_mem_singleton]
  exact hlt.trans_le (h.trans hle)

namespace LexicalFault

/-- How many bytes after its start a faulty piece of text is pointed at. -/
def offset : LexicalFault → Nat
  | invalidEscape offset => offset
  | invalidUnicodeEscape offset _ => offset
  | _ => 0

theorem start_span (start : Nat) (fault : LexicalFault) :
    (fault.span start).start = start + fault.offset := by
  cases fault <;> rfl

/-- The diagnostic of a fault points into a range that starts with the faulty piece and reaches
beyond the fault. -/
theorem startsIn_diagnostic {fault : LexicalFault} {span : Span}
    (h : span.start + fault.offset < span.stop) :
    (fault.diagnostic span.start).StartsIn span := by
  refine ⟨_, rfl, ?_, ?_⟩
  · exact (Nat.le_add_right _ _).trans_eq (start_span _ fault).symm
  · exact (start_span _ fault).trans_lt h

end LexicalFault

namespace Reading

open BlockString (quotes)

variable {c : Char} {text : List Char} {fault : LexicalFault}

/-- The fault of a number is pointed at from the start of the number. -/
theorem offset_of_ofNumber (h : (ofNumber text).outcome = .error fault) : fault.offset = 0 := by
  unfold ofNumber at h
  split at h
  next => exact Except.error.inj h ▸ rfl
  next =>
    simp only at h
    split at h
    next =>
      split at h
      next => exact Except.error.inj h ▸ rfl
      next => cases h
    next => cases h

/-- The fault of a quoted string is found by reading it. -/
theorem read_eq_error_of_ofString (hquotes : ¬quotes <+: '"' :: text)
    (h : (ofString text).outcome = .error fault) : QuotedString.read 1 text = .error fault := by
  rw [ofString_of_not_quotes hquotes] at h
  cases hread : QuotedString.read 1 text with
  | ok answer =>
    rw [hread] at h
    cases h
  | error other =>
    rw [hread] at h
    exact congrArg Except.error (Except.error.inj h)

/-- The fault of a block string is pointed at from the quotes that open it. -/
theorem offset_of_blockString (hquotes : quotes <+: '"' :: text)
    (h : (ofString text).outcome = .error fault) : fault.offset = 0 := by
  obtain ⟨raw, hraw⟩ := hquotes
  obtain rfl : '"' :: '"' :: raw = text := (List.cons.inj hraw).2
  simp only [ofString] at h
  split at h
  next => cases h
  next => exact Except.error.inj h ▸ rfl

/-- A fault is pointed at from the start of its piece, unless it is one of a quoted string. -/
theorem offset_of_ofText (h : (ofText c text).outcome = .error fault) :
    fault.offset = 0 ∨
      c = '"' ∧ ¬quotes <+: '"' :: text ∧ QuotedString.read 1 text = .error fault := by
  unfold ofText at h
  split at h
  next => cases h
  split at h
  next hc =>
    by_cases hquotes : quotes <+: '"' :: text
    · exact .inl (offset_of_blockString hquotes h)
    · exact .inr ⟨hc, hquotes, read_eq_error_of_ofString hquotes h⟩
  split at h
  next => exact .inl (offset_of_ofNumber h)
  split at h
  next => cases h
  split at h
  next => cases h
  split at h
  next => cases h
  next => cases h
  next => cases h
  next => cases h
  next =>
    split at h
    next => cases h
    next => exact .inl (Except.error.inj h ▸ rfl)

end Reading

namespace Region

open BlockString (quotes)

variable {c : Char} {text : List Char} {fault : LexicalFault} {source : String}
  {regions left right : List Region} {region : Located Span Region} {start : Nat}

/-- A quoted string with a fault takes its quote and what is skipped. -/
theorem exists_skipped_of_error (hquotes : ¬quotes <+: '"' :: text)
    (hread : QuotedString.read 1 text = .error fault) :
    ∃ piece, (ofReading '"' text (Reading.ofText '"' text)).text = '"' :: piece ∧
      QuotedString.Skipped text piece := by
  obtain ⟨piece, hpiece, htext⟩ := ofReading_text_append '"' text
  refine ⟨piece, hpiece, ?_⟩
  obtain ⟨other, hother, hskipped⟩ := QuotedString.exists_skipped text
  rw [Reading.ofText_quote, Reading.ofString_of_not_quotes hquotes, hread] at htext
  exact List.append_cancel_right (htext.symm.trans hother) ▸ hskipped

/-- A fault is pointed at within its region. -/
theorem offset_lt (h : (Reading.ofText c text).outcome = .error fault) :
    fault.offset < utf8Length (ofReading c text (Reading.ofText c text)).text := by
  rcases Reading.offset_of_ofText h with hzero | ⟨rfl, hquotes, hread⟩
  · obtain ⟨piece, hpiece, -⟩ := ofReading_text_append c text
    rw [hzero, hpiece]
    exact utf8Length_pos (List.cons_ne_nil c piece)
  · obtain ⟨piece, hpiece, hskipped⟩ := exists_skipped_of_error hquotes hread
    rw [hpiece]
    obtain ⟨body, value, bad, rfl, hbody, hbreaks⟩ := QuotedString.exists_breaks_of_read hread
    have hquote : ('"' : Char).utf8Size = 1 := rfl
    have hbackslash : ('\\' : Char).utf8Size = 1 := rfl
    cases hbreaks with
    | text => exact utf8Length_pos (List.cons_ne_nil _ _)
    | line => exact utf8Length_pos (List.cons_ne_nil _ _)
    | unknown | malformed =>
      obtain ⟨more, rfl⟩ := hskipped.exists_more hbody
      simp only [LexicalFault.offset, utf8Length, utf8Length_append, hquote, hbackslash]
      omega

/-- Every region of a text takes a character at least. -/
theorem ne_nil_of_mem_cut : ∀ piece ∈ (cut text).map (·.text), piece ≠ [] := by
  fun_induction cut text with
  | case1 => simp
  | case2 c text ih =>
    obtain ⟨piece, hpiece, -⟩ := ofReading_text_append c text
    rw [List.map_cons, List.forall_mem_cons, hpiece]
    exact ⟨List.cons_ne_nil c piece, ih⟩

/-- There are no more regions than characters. -/
theorem length_cut_le (text : List Char) : (cut text).length ≤ text.length := by
  fun_induction cut text with
  | case1 => exact Nat.le_refl 0
  | case2 c text ih =>
    exact Nat.succ_le_succ (ih.trans (Reading.ofText_suffix c text).length_le)

theorem map_place_locate :
    (locate start regions).map (·.place) = Span.tile start (regions.map (·.text)) := by
  induction regions generalizing start with
  | nil => rfl
  | cons region rest ih => rw [locate, List.map_cons, ih, List.map_cons, Span.tile]

theorem map_value_locate : (locate start regions).map (·.value) = regions := by
  induction regions generalizing start with
  | nil => rfl
  | cons region rest ih => rw [locate, List.map_cons, ih]

/-- The regions of a text tile it. -/
theorem tiling_locate_cut (source : String) :
    Span.Tiling source ((locate 0 (cut source.toList)).map (·.place)) := by
  rw [map_place_locate]
  refine Span.tiling_tile ne_nil_of_mem_cut ?_
  rw [← List.flatMap_def, cut_tiles]

/-- A step of reading a text takes a region: the region starts where the text is taken up, has the
outcome of reading there, and ends where reading is taken up again. -/
def Step (source : String) (region : Located Span Region) : Prop :=
  ∃ before c after, source.toList = before ++ c :: after ∧
    region.place.start = utf8Length before ∧
    region.place.stop = utf8Length (before ++ region.value.text) ∧
    region.value.outcome = (Reading.ofText c after).outcome ∧
    c :: after = region.value.text ++ (Reading.ofText c after).rest

theorem step_of_mem_locate (h : region ∈ locate 0 (cut source.toList)) : Step source region := by
  obtain ⟨before, c, after, hsource, hplace, hvalue⟩ := exists_of_mem_locate [] h
  obtain ⟨piece, hpiece, hafter⟩ := ofReading_text_append c after
  refine ⟨before, c, after, hsource, hplace ▸ rfl, ?_, hvalue ▸ rfl, ?_⟩
  · rw [hplace, utf8Length_append]
    exact Span.stop_between _ _
  · rw [hvalue, hpiece, List.cons_append, ← hafter]

/-- What is told of a region with a fault: the diagnostic points into the region. A quoted string
is skipped up to its end, and no further. -/
structure Recovers (source : String) (region : Located Span Region) (problem : Diagnostic Span) :
    Prop where
  /-- The region holds a fault. -/
  fault : ∃ fault, region.value.outcome = .error fault
  /-- What is pointed at starts in the region. -/
  startsIn : problem.StartsIn region.place
  /-- Where a quote starts the region, and no block string, the region ends with the string. -/
  skipped : ∀ before after, source.toList = before ++ '"' :: after →
    utf8Length before = region.place.start → ¬quotes <+: '"' :: after →
    ∃ piece, region.value.text = '"' :: piece ∧ QuotedString.Skipped after piece

/-- A region with a fault is told as it should be. -/
theorem recovers_of_mem_locate (h : region ∈ locate 0 (cut source.toList))
    {problem : Diagnostic Span} (hproblem : diagnostic? region = some problem) :
    Recovers source region problem := by
  obtain ⟨fault, hfault, rfl⟩ := diagnostic?_eq_some_iff.mp hproblem
  obtain ⟨before, c, after, hsource, hplace, hvalue⟩ := exists_of_mem_locate [] h
  rw [List.nil_append] at hsource
  have hread : (Reading.ofText c after).outcome = .error fault := by
    rw [← hfault, hvalue]
    rfl
  have hlt : fault.offset < utf8Length region.value.text := hvalue ▸ offset_lt hread
  refine ⟨⟨fault, hfault⟩, LexicalFault.startsIn_diagnostic ?_, fun front back hother hstart => ?_⟩
  · rw [hplace, utf8Length_append, Span.stop_between]
    exact Nat.add_lt_add_left hlt _
  · intro hquotes
    have hbytes : utf8Length before = utf8Length front := by rw [hstart, hplace]; rfl
    obtain ⟨rfl, hrest⟩ := append_inj_of_utf8Length (hsource.symm.trans hother) hbytes
    obtain ⟨rfl, rfl⟩ := List.cons.inj hrest
    rw [hvalue]
    exact exists_skipped_of_error hquotes (Reading.read_eq_error_of_ofString hquotes hread)

theorem locate_append : locate start (left ++ right) =
    locate start left ++ locate (start + utf8Length (left.flatMap (·.text))) right := by
  induction left generalizing start with
  | nil => rfl
  | cons first left ih =>
    rw [List.cons_append, locate, locate, ih, List.flatMap_cons, utf8Length_append,
      List.cons_append, Nat.add_assoc]

/-- Reading a text is taken up behind its first characters: these are a number of regions. -/
def Reached (source : String) (before : List Char) : Prop :=
  ∃ left right, cut source.toList = left ++ right ∧ left.flatMap (·.text) = before

/-- Where reading is taken up, a region starts, unless the text ends there. -/
theorem Reached.exists_mem_locate {before after : List Char} (h : Reached source before)
    (hsource : source.toList = before ++ c :: after) :
    ∃ region ∈ locate 0 (cut source.toList), region.place.start = utf8Length before := by
  obtain ⟨left, right, hcut, rfl⟩ := h
  have htext := cut_tiles source.toList
  rw [hcut, List.flatMap_append, hsource, List.append_cancel_left_eq] at htext
  cases right with
  | nil => cases htext
  | cons first right =>
    rw [hcut, locate_append]
    exact ⟨_, List.mem_append_right _ List.mem_cons_self, Nat.zero_add _⟩

/-- Lexemes are the tokens of the regions that they take, in the same places. -/
theorem forall₂_locate (start : Nat) (split : List (Token × List Char)) :
    List.Forall₂
      (fun region token => region.value.outcome = .ok token.value ∧ region.place = token.place)
      (locate start (split.map Lexeme.region)) (Lexeme.locate start split) := by
  induction split generalizing start with
  | nil => exact .nil
  | cons lexeme rest ih => exact .cons ⟨rfl, rfl⟩ (ih _)

end Region

/-- What a function finds, and the items for which it finds something. -/
theorem forall₂_filterMap {α β : Type} {find? : α → Option β} {p : α → Bool}
    (hp : ∀ item, p item = (find? item).isSome) (items : List α) :
    List.Forall₂ (fun item found => find? item = some found) (items.filter p)
      (items.filterMap find?) := by
  induction items with
  | nil => exact .nil
  | cons item rest ih =>
    cases hfind : find? item with
    | none => rwa [List.filterMap_cons_none hfind, List.filter_cons_of_neg (by simp [hp, hfind])]
    | some found =>
      rw [List.filterMap_cons_some hfind, List.filter_cons_of_pos (by simp [hp, hfind])]
      exact .cons hfind ih

/-- The regions of a text with faults are told one by one, in the order of the text. -/
theorem Token.told_of_scan {source : String} {problems : List (Diagnostic Span)}
    (h : scan source = .error problems) :
    problems ≠ [] ∧ List.Forall₂ (Region.Recovers source)
        ((Region.locate 0 (Region.cut source.toList)).filter (!·.value.outcome.isOk)) problems ∧
      problems.Pairwise Diagnostic.StartsBefore := by
  obtain ⟨hne, rfl⟩ := scan_eq_error_iff.mp h
  have hfaulty (region : Located Span Region) :
      (!region.value.outcome.isOk) = (Region.diagnostic? region).isSome := by
    unfold Region.diagnostic?
    split
    next token htoken => rw [htoken]; rfl
    next fault hfault => rw [hfault]; rfl
  refine ⟨hne, ?_, ?_⟩
  · have htold := forall₂_filterMap hfaulty (Region.locate 0 (Region.cut source.toList))
    have hmem := (List.forall₂_and_left (p := fun region =>
      region ∈ Region.locate 0 (Region.cut source.toList)) _ _).mpr
        ⟨fun region hregion => List.mem_of_mem_filter hregion, htold⟩
    exact hmem.imp fun region problem hregion => Region.recovers_of_mem_locate hregion.1 hregion.2
  · have htiling := (Region.tiling_locate_cut source).pairwise
    rw [List.pairwise_map] at htiling
    rw [List.pairwise_filterMap]
    refine htiling.imp_of_mem fun hregion hnext hle problem hproblem other hother => ?_
    have hfirst := Region.recovers_of_mem_locate hregion hproblem
    have hsecond := Region.recovers_of_mem_locate hnext hother
    exact hfirst.startsIn.startsBefore hsecond.startsIn hle

/-- Of some diagnostics one alone points into a byte range. -/
def Diagnostic.OnlyIn (problem : Diagnostic Span) (problems : List (Diagnostic Span))
    (span : Span) : Prop :=
  problem.StartsIn span ∧ ∃ earlier later, problems = earlier ++ problem :: later ∧
    ∀ other ∈ earlier ++ later, ∀ label ∈ other.labels,
      label.place.start < span.start ∨ span.stop ≤ label.place.start

/-- Only the diagnostic of a region points into it. -/
theorem Token.exists_onlyIn {source : String} {region : Located Span Region}
    {problem : Diagnostic Span} (hregion : region ∈ Region.locate 0 (Region.cut source.toList))
    (hproblem : Region.diagnostic? region = some problem) :
    ∃ problems, scan source = .error problems ∧ problem.OnlyIn problems region.place := by
  obtain ⟨before, after, hregions⟩ := List.append_of_mem hregion
  have hproblems : (Region.locate 0 (Region.cut source.toList)).filterMap Region.diagnostic? =
      before.filterMap Region.diagnostic? ++ problem :: after.filterMap Region.diagnostic? := by
    rw [hregions, List.filterMap_append, List.filterMap_cons_some hproblem]
  have hstarts {other : Located Span Region} {found : Diagnostic Span}
      (hother : other ∈ Region.locate 0 (Region.cut source.toList))
      (hfound : Region.diagnostic? other = some found) : found.StartsIn other.place :=
    (Region.recovers_of_mem_locate hother hfound).startsIn
  have hpairwise := (Region.tiling_locate_cut source).pairwise
  rw [List.pairwise_map, hregions, List.pairwise_append, List.pairwise_cons] at hpairwise
  obtain ⟨-, ⟨hbehind, -⟩, hahead⟩ := hpairwise
  refine ⟨_, scan_eq_error_iff.mpr ⟨by rw [hproblems]; simp, rfl⟩, hstarts hregion hproblem,
    _, _, hproblems, fun found hfound label hlabel => ?_⟩
  rcases List.mem_append.mp hfound with hearlier | hlater
  · obtain ⟨other, hother, hfound⟩ := List.mem_filterMap.mp hearlier
    have hmem := hregions ▸ List.mem_append_left _ hother
    obtain ⟨only, honly, -, hlt⟩ := hstarts hmem hfound
    obtain rfl := List.mem_singleton.mp (honly ▸ hlabel)
    exact .inl (hlt.trans_le (hahead other hother region List.mem_cons_self))
  · obtain ⟨other, hother, hfound⟩ := List.mem_filterMap.mp hlater
    have hmem := hregions ▸ List.mem_append_right _ (List.mem_cons_of_mem _ hother)
    obtain ⟨only, honly, hle, -⟩ := hstarts hmem hfound
    obtain rfl := List.mem_singleton.mp (honly ▸ hlabel)
    exact .inr ((hbehind other hother).trans hle)

/-- A sound quoted string is skipped exactly as far as it is read. The regions that a text is read
in tile it, one for each step of reading, and there are no more of them than characters. A text
without faults gets the tokens of its regions; any other text gets a diagnostic for each region with
a fault, which points into the region, and these come in the order of the text. A quoted string with
a fault is skipped up to its end. -/
theorem Token.scan_recovers (source : String) :
    (∀ body value rest, QuotedString.Body body value →
      QuotedString.read 1 (body ++ '"' :: rest) = .ok (value, rest) ∧
        QuotedString.skip (body ++ '"' :: rest) = rest) ∧
    let regions := Region.locate 0 (Region.cut source.toList)
    (Span.Tiling source (regions.map (·.place)) ∧ regions.length ≤ source.toList.length ∧
      ∀ region ∈ regions, Region.Step source region) ∧
    (∀ tokens, scan source = .ok tokens → List.Forall₂ (fun region token =>
      region.value.outcome = .ok token.value ∧ region.place = token.place) regions tokens) ∧
    ∀ problems, scan source = .error problems → problems ≠ [] ∧
      List.Forall₂ (Region.Recovers source) (regions.filter (!·.value.outcome.isOk)) problems ∧
      problems.Pairwise Diagnostic.StartsBefore := by
  refine ⟨fun body value rest hbody =>
      ⟨QuotedString.read_complete hbody, QuotedString.skip_body hbody rest⟩,
    ⟨Region.tiling_locate_cut source, ?_, fun region => Region.step_of_mem_locate⟩,
    fun tokens htokens => ?_, fun problems => told_of_scan⟩
  · have hvalues : (Region.locate 0 (Region.cut source.toList)).map (·.value) =
        Region.cut source.toList := Region.map_value_locate
    have hlength := congrArg List.length hvalues
    rw [List.length_map] at hlength
    exact hlength.trans_le (Region.length_cut_le source.toList)
  · obtain ⟨split, hsplit, rfl⟩ := Lexeme.scan_eq_ok_iff.mp htokens
    rw [hsplit.cut_eq]
    exact Region.forall₂_locate 0 split

/-- A bad escape, a string without its closing quote and a number that runs into a name are told one
after the other. -/
theorem Token.scan_recovers_thrice :
    ∃ problems, scan "\"\\q\" \"b\n1x" = .error problems ∧ problems.length = 3 ∧
      problems.Pairwise Diagnostic.StartsBefore := by
  have hlength : ((Region.locate 0 (Region.cut "\"\\q\" \"b\n1x".toList)).filterMap
      Region.diagnostic?).length = 3 := by decide +kernel
  have hscan := scan_eq_error_iff.mpr ⟨List.ne_nil_of_length_pos (by rw [hlength]; decide), rfl⟩
  exact ⟨_, hscan, hlength, ((scan_recovers _).2.2.2 _ hscan).2.2⟩

end SdlGraph
