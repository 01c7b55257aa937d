import Mathlib.Data.List.Forall2
import SdlGraph.Proofs.Catalog.Labels

/-!
# Definitions partition the significant tokens

The significant tokens of a text that form a document fall into consecutive groups, one for each
definition. The byte range of a definition reaches from the first token of its group to the last,
and so does the byte range of every part inside it for a run of tokens of the group. Ranges of parts
of which none lies inside another do not overlap, so the places of definitions tell them apart, and
so do the places of their names.
-/

namespace SdlGraph

variable {σ : Type}

/-- A byte range reaches from the start of the first token of a run to the end of its last. -/
def Span.Covers (span : Span) (run : List (Located Span Token)) : Prop :=
  run.head?.map (·.place.start) = some span.start ∧
    run.getLast?.map (·.place.stop) = some span.stop

/-- Parts written one after the other among the tokens of a text. Each is a run of the tokens in one
of its spellings; its place, if it has one, covers the run, and the parts inside it are written in
the run. -/
inductive Written (locate : σ → Span) : List (Located Span Token) → List (Outline σ) → Prop
  /-- Tokens behind the last part. -/
  | nil (tokens : List (Located Span Token)) : Written locate tokens []
  /-- A part behind some tokens, and what is written behind it. -/
  | cons {gap run later : List (Located Span Token)} {place? : Option σ}
      {spelling : Language Token} {within rest : List (Outline σ)} (hrun : run ≠ [])
      (hspelling : run.map (·.value) ∈ spelling)
      (hplace : ∀ place ∈ place?, (locate place).Covers run)
      (hwithin : Written locate run within) (hrest : Written locate later rest) :
      Written locate (gap ++ (run ++ later)) (.part place? spelling within :: rest)

/-- A definition written as a group of tokens: all that belongs to it, from its description or the
keyword `extend` on. -/
structure Definition.WrittenAs (locate : σ → Span) (definition : Definition σ)
    (group : List (Located Span Token)) : Prop where
  /-- There is a token at least. -/
  nonempty : group ≠ []
  /-- The group is a spelling of the definition. -/
  spelling : group.map (·.value) ∈ definition.spelling
  /-- The place of the definition covers the group. -/
  covers : (locate definition.place).Covers group
  /-- The parts of the definition are written in the group. -/
  written : Written locate group definition.parts

/-- How the definitions of a document share out the tokens of the text. -/
structure Document.Partitions (tokens : SignificantTokens) (document : Document Extent) : Prop where
  /-- Each definition is written as a group of tokens, and the groups one after the other are all
  the tokens. -/
  groups : ∃ groups, groups.flatten = tokens.tokens ∧
    List.Forall₂ (Definition.WrittenAs (Extent.locate tokens.spans)) document.definitions groups
  /-- Each definition ends before the next one starts. -/
  increasing : document.definitions.Pairwise fun earlier later =>
    (earlier.place.locate tokens.spans).stop ≤ (later.place.locate tokens.spans).start
  /-- Each token lies in a definition. -/
  covering : ∀ token ∈ tokens.tokens, ∃ definition ∈ document.definitions,
    (definition.place.locate tokens.spans).start ≤ token.place.start ∧
      token.place.stop ≤ (definition.place.locate tokens.spans).stop
  /-- Every place that the document keeps is that of a part. -/
  complete : ∀ place ∈ document.places, place ∈ Outline.placesOf document.outline
  /-- Where ranges of tokens are put together, so are their byte ranges. -/
  joined : ∀ left right : Extent, left.Inside 0 tokens.tokens.length →
    right.Inside 0 tokens.tokens.length → (left.union right).locate tokens.spans =
      (left.locate tokens.spans).union (right.locate tokens.spans)
  /-- No place is empty. -/
  nonempty : ∀ place ∈ document.places,
    (place.locate tokens.spans).start < (place.locate tokens.spans).stop
  /-- Of parts of which none lies inside another, such as the parts of one list, each ends before
  the next one starts. -/
  apart : ∀ places, Outline.Chosen document.outline places → places.Pairwise fun earlier later =>
    (earlier.locate tokens.spans).stop ≤ (later.locate tokens.spans).start
  /-- No two definitions have their names at one place. -/
  names : ((document.definitions.filterMap Definition.name?).map
    fun name => name.place.locate tokens.spans).Nodup

/-- A range of bytes that covers a run contains the tokens of the run. -/
theorem Span.Covers.contains {span : Span} {run : List (Located Span Token)}
    (h : span.Covers run)
    (hrun : run.Pairwise fun earlier later => earlier.place.stop ≤ later.place.start)
    {token : Located Span Token} (ht : token ∈ run) :
    span.start ≤ token.place.start ∧ token.place.stop ≤ span.stop := by
  obtain ⟨hfirst, hlast⟩ := h
  constructor
  · obtain ⟨first, hhead, hstart⟩ := Option.map_eq_some_iff.mp hfirst
    obtain ⟨rest, rfl⟩ := List.head?_eq_some_iff.mp hhead
    rw [← hstart]
    rcases List.mem_cons.mp ht with rfl | ht
    · exact Nat.le_refl _
    · exact first.place.start_le_stop.trans ((List.pairwise_cons.mp hrun).1 token ht)
  · obtain ⟨last, hend, hstop⟩ := Option.map_eq_some_iff.mp hlast
    obtain ⟨rest, rfl⟩ := List.getLast?_eq_some_iff.mp hend
    rw [← hstop]
    rcases List.mem_append.mp ht with ht | ht
    · have hapart := (List.pairwise_append.mp hrun).2.2 token ht last (List.mem_singleton_self _)
      exact hapart.trans last.place.start_le_stop
    · rw [List.mem_singleton.mp ht]

namespace SignificantTokens

variable {tokens : SignificantTokens} {start : Nat} {taken : List Token}
  {front run back : List (Located Span Token)}

/-- The range of a run of tokens covers the run. -/
theorem Increasing.covers (h : tokens.Increasing) (htokens : tokens.tokens = front ++ (run ++ back))
    (hne : run ≠ []) :
    ((⟨front.length, front.length + run.length⟩ : Extent).locate tokens.spans).Covers run := by
  have hpos := List.length_pos_iff.mpr hne
  have hlength : tokens.tokens.length = front.length + (run.length + back.length) := by
    rw [htokens, List.length_append, List.length_append]
  have hget (index : Nat) (hindex : index < run.length) :
      tokens.tokens[front.length + index]? = run[index]? := by
    rw [htokens, List.getElem?_append_right (Nat.le_add_right ..), Nat.add_sub_cancel_left,
      List.getElem?_append_left hindex]
  have hlt : (Extent.mk front.length (front.length + run.length)).first <
      (Extent.mk front.length (front.length + run.length)).stop := Nat.lt_add_of_pos_right hpos
  obtain ⟨hstart, hend⟩ := h.locate_eq hlt (by dsimp only; omega)
  constructor
  · rw [hstart, List.head?_eq_getElem?, ← hget 0 hpos, Nat.add_zero,
      List.getElem?_eq_getElem (by omega)]
    rfl
  · rw [hend, List.getLast?_eq_getElem?, ← hget (run.length - 1) (by omega),
      ← Nat.add_sub_assoc hpos, List.getElem?_eq_getElem (by omega)]
    rfl

/-- Ranges of tokens one behind the other have byte ranges one behind the other. -/
theorem Increasing.locate_le (h : tokens.Increasing) {earlier later : Extent}
    (hearlier : earlier.Inside 0 tokens.tokens.length)
    (hlater : later.Inside 0 tokens.tokens.length) (hle : earlier.stop ≤ later.first) :
    (earlier.locate tokens.spans).stop ≤ (later.locate tokens.spans).start := by
  obtain ⟨-, hlt, hstop⟩ := hearlier
  obtain ⟨-, hlt', hstop'⟩ := hlater
  rw [(h.locate_eq hlt hstop).2, (h.locate_eq hlt' hstop').1]
  exact List.pairwise_iff_getElem.mp h _ _ (by omega) (by omega) (by omega)

/-- To put ranges of tokens together is to put their byte ranges together. -/
theorem Increasing.locate_union (h : tokens.Increasing) {left right : Extent}
    (hleft : left.Inside 0 tokens.tokens.length) (hright : right.Inside 0 tokens.tokens.length) :
    (left.union right).locate tokens.spans =
      (left.locate tokens.spans).union (right.locate tokens.spans) := by
  obtain ⟨-, hlt, hstop⟩ := hleft
  obtain ⟨-, hlt', hstop'⟩ := hright
  have hunion : (left.union right).first < (left.union right).stop ∧
      (left.union right).stop ≤ tokens.tokens.length := by
    dsimp only [Extent.union]
    omega
  obtain ⟨hstart, hend⟩ := h.locate_eq hunion.1 hunion.2
  refine Span.ext ?_ ?_
  · dsimp only [Span.union]
    rw [hstart, (h.locate_eq hlt hstop).1, (h.locate_eq hlt' hstop').1]
    rcases Nat.le_total left.first right.first with hle | hle
    · have hmono := (h.place_mono hle (by omega)).1
      simp only [Extent.union, Nat.min_eq_left hle, Nat.min_eq_left hmono]
    · have hmono := (h.place_mono hle (by omega)).1
      simp only [Extent.union, Nat.min_eq_right hle, Nat.min_eq_right hmono]
  · dsimp only [Span.union]
    rw [hend, (h.locate_eq hlt hstop).2, (h.locate_eq hlt' hstop').2]
    rcases Nat.le_total left.stop right.stop with hle | hle
    · have hmono := (h.place_mono (Nat.sub_le_sub_right hle 1) (by omega)).2
      simp only [Extent.union, Nat.max_eq_right hle, Nat.max_eq_right hmono]
    · have hmono := (h.place_mono (Nat.sub_le_sub_right hle 1) (by omega)).2
      simp only [Extent.union, Nat.max_eq_left hle, Nat.max_eq_left hmono]

/-- Parts that lie in a run of tokens are written in it. -/
theorem Increasing.written (h : tokens.Increasing) {parts : List (Outline Extent)}
    (houtlined : Outlined start taken parts) (hvalues : run.map (·.value) = taken)
    (hstart : front.length = start) (htokens : tokens.tokens = front ++ (run ++ back)) :
    Written (Extent.locate tokens.spans) run parts := by
  induction houtlined generalizing front run back with
  | nil => exact .nil run
  | @cons start first stop gap piece later place? spelling within rest hfirst hstop hpiece
      hspelling hplace hwithin hrest ihwithin ihrest =>
    obtain ⟨before, behind, rfl, hbefore, hbehind⟩ := List.map_eq_append_iff.mp hvalues
    obtain ⟨inner, after, rfl, hinner, hafter⟩ := List.map_eq_append_iff.mp hbehind
    have hlength : gap.length = before.length := by rw [← hbefore, List.length_map]
    have hlength' : piece.length = inner.length := by rw [← hinner, List.length_map]
    have hne : inner ≠ [] := by
      rintro rfl
      exact hpiece hinner.symm
    have hall : tokens.tokens = (front ++ before) ++ (inner ++ (after ++ back)) := by
      rw [htokens]
      simp only [List.append_assoc]
    have hall' : tokens.tokens = (front ++ before ++ inner) ++ (after ++ back) := by
      rw [hall, List.append_assoc (front ++ before)]
    have hfront : (front ++ before).length = first := by
      rw [List.length_append, hstart, ← hlength, hfirst]
    refine .cons hne (hinner ▸ hspelling) (fun place hp => ?_)
      (ihwithin hinner hfront hall) (ihrest hafter ?_ hall')
    · rw [hplace place hp, hstop, hlength', ← hfront]
      exact h.covers hall hne
    · rw [List.length_append, hfront, hstop, hlength']

/-- Each token of groups that definitions are written as lies in one of the definitions. -/
theorem Increasing.covering (h : tokens.Increasing) {definitions : List (Definition Extent)}
    {groups : List (List (Located Span Token))} (hflatten : groups.flatten = tokens.tokens)
    (hgroups : List.Forall₂ (Definition.WrittenAs (Extent.locate tokens.spans)) definitions groups)
    {token : Located Span Token} (ht : token ∈ tokens.tokens) :
    ∃ definition ∈ definitions,
      (definition.place.locate tokens.spans).start ≤ token.place.start ∧
        token.place.stop ≤ (definition.place.locate tokens.spans).stop := by
  rw [← hflatten] at ht
  obtain ⟨group, hgroup, htoken⟩ := List.mem_flatten.mp ht
  obtain ⟨index, hindex, rfl⟩ := List.getElem_of_mem hgroup
  have hwritten := hgroups.get (hgroups.length_eq ▸ hindex) hindex
  refine ⟨_, List.getElem_mem _, hwritten.covers.contains ?_ htoken⟩
  rw [Increasing, ← hflatten] at h
  exact (List.pairwise_flatten.mp h).1 _ hgroup

/-- Definitions that lie in consecutive runs of tokens are written as consecutive groups. -/
theorem Increasing.groups (h : tokens.Increasing) {definitions : List (Definition Extent)}
    (hlies : Consecutive (fun start taken definition => definition.Lies start taken) start taken
      definitions) (hvalues : run.map (·.value) = taken) (hstart : front.length = start)
    (htokens : tokens.tokens = front ++ (run ++ back)) :
    ∃ groups, groups.flatten = run ∧
      List.Forall₂ (Definition.WrittenAs (Extent.locate tokens.spans)) definitions groups := by
  induction hlies generalizing front run with
  | nil => exact ⟨[], by rw [List.map_eq_nil_iff.mp hvalues, List.flatten_nil], .nil⟩
  | @cons start us vs definition definitions hdefinition _ ih =>
    obtain ⟨group, behind, rfl, hgroup, hbehind⟩ := List.map_eq_append_iff.mp hvalues
    have hall : tokens.tokens = front ++ (group ++ (behind ++ back)) := by
      rw [htokens, List.append_assoc]
    have hlength : us.length = group.length := by rw [← hgroup, List.length_map]
    have hne : group ≠ [] := by
      rintro rfl
      exact hdefinition.nonempty hgroup.symm
    have hfront : (front ++ group).length = start + us.length := by
      rw [List.length_append, hstart, hlength]
    obtain ⟨groups, hflatten, hgroups⟩ := ih hbehind hfront (by rw [hall, List.append_assoc])
    refine ⟨group :: groups, by rw [List.flatten_cons, hflatten], .cons ?_ hgroups⟩
    refine ⟨hne, hgroup ▸ hdefinition.spelling, ?_, ?_⟩
    · rw [hdefinition.place_eq, hlength, ← hstart]
      exact h.covers hall hne
    · exact h.written hdefinition.outlined hgroup hstart hall

/-- A range of tokens of a text is a range of bytes with something in it. -/
theorem locate_lt_of_ofSource {source : String} (hsource : ofSource source = .ok tokens)
    {place : Extent} (h : place.Inside 0 tokens.tokens.length) :
    (place.locate tokens.spans).start < (place.locate tokens.spans).stop := by
  obtain ⟨hincreasing, hshown⟩ := shown_of_ofSource hsource
  exact (shown_locate hincreasing hshown h).1.nonempty

section Read

variable {source : String} {document : Document Extent} (hsource : ofSource source = .ok tokens)
  (hdocument : tokens.document = .ok document)

include hsource hdocument

/-- Places chosen in a document that is read from a text are ranges of tokens, and their byte ranges
lie one behind the other. -/
theorem apart_of_document {places : List Extent} (h : Outline.Chosen document.outline places) :
    (∀ place ∈ places, place.Inside 0 tokens.tokens.length) ∧
      places.Pairwise fun earlier later =>
        (earlier.locate tokens.spans).stop ≤ (later.locate tokens.spans).start := by
  obtain ⟨hplaces, hforward⟩ := document.apart_of_read (document_eq_ok_iff.mp hdocument) h
  have hlength : tokens.values.length = tokens.tokens.length := List.length_map ..
  rw [hlength] at hplaces
  have hincreasing := (shown_of_ofSource hsource).1
  exact ⟨hplaces, hforward.imp_of_mem fun hearlier hlater hle =>
    hincreasing.locate_le (hplaces _ hearlier) (hplaces _ hlater) hle⟩

/-- The names of the definitions in a document that is read from a text stand in different
places. -/
theorem nodup_names_of_document : ((document.definitions.filterMap Definition.name?).map
    fun name => name.place.locate tokens.spans).Nodup := by
  obtain ⟨hplaces, hforward⟩ := apart_of_document hsource hdocument document.chosen_names
  have hdistinct : ((document.definitions.filterMap Definition.name?).map (·.place)).Pairwise
      fun earlier later => earlier.locate tokens.spans ≠ later.locate tokens.spans := by
    refine hforward.imp_of_mem fun hearlier _ hle heq => ?_
    rw [← heq] at hle
    exact Nat.not_le_of_lt (locate_lt_of_ofSource hsource (hplaces _ hearlier)) hle
  have hnames := List.pairwise_map.mp hdistinct
  exact List.pairwise_map.mpr hnames

/-- So they stand at different tokens. -/
theorem nodup_nameExtents_of_document :
    ((document.definitions.filterMap Definition.name?).map (·.place)).Nodup := by
  have hplaces := nodup_names_of_document hsource hdocument
  exact .of_map (Extent.locate tokens.spans) (by rwa [List.map_map])

/-- The definitions of a document that is read from a text partition the significant tokens. -/
theorem partitions_of_document : document.Partitions tokens := by
  have hincreasing := (shown_of_ofSource hsource).1
  have hread := document_eq_ok_iff.mp hdocument
  have hlength : tokens.values.length = tokens.tokens.length := List.length_map ..
  have hinside := document.inside_of_read hread
  rw [hlength] at hinside
  obtain ⟨groups, hflatten, hgroups⟩ := hincreasing.groups (document.consecutive_of_read hread)
    rfl List.length_nil (List.append_nil _).symm
  have hdefinitions := apart_of_document hsource hdocument document.chosen_definitions
  exact
    { groups := ⟨groups, hflatten, hgroups⟩
      increasing := List.pairwise_map.mp hdefinitions.2
      covering := fun token ht => hincreasing.covering hflatten hgroups ht
      complete := fun place hp => Document.mem_placesOf_outline.mpr hp
      joined := fun _ _ hleft hright => hincreasing.locate_union hleft hright
      nonempty := fun place hp => locate_lt_of_ofSource hsource (hinside place hp)
      apart := fun places hchosen => (apart_of_document hsource hdocument hchosen).2
      names := nodup_names_of_document hsource hdocument }

end Read

/-- A described type with a directive and an argument, and an extension of a union behind it: the
first definition starts at its description, the second at its keyword and ends with its last
member. -/
theorem partitions_of_document_extension :
    let text := "# c\n\"d\" type Query @x(a: [1]) \x7b f(b: In! = 2): [Int!] \x7d " ++
      "extend union U = | A | B"
    ∃ tokens document, ofSource text = .ok tokens ∧ tokens.document = .ok document ∧
      document.definitions.map (fun definition => definition.place.locate tokens.spans) =
        [.between 4 55, .between 56 80] ∧ document.Partitions tokens := by
  intro text
  have hplaces : ((ofSource text).toOption.bind fun tokens =>
      tokens.document.toOption.map fun document =>
        document.definitions.map fun definition => definition.place.locate tokens.spans) =
      some [.between 4 55, .between 56 80] := by
    decide +kernel
  obtain ⟨tokens, document, htokens, hdocument, hplaces⟩ := exists_document_of_found hplaces
  exact ⟨tokens, document, htokens, hdocument, hplaces, partitions_of_document htokens hdocument⟩

end SignificantTokens

end SdlGraph
