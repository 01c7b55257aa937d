import SdlGraph.Proofs.Document.Completion
import SdlGraph.Proofs.Document.OpenBrackets
import SdlGraph.Proofs.Document.Parts
import SdlGraph.Proofs.Document.Progress

/-!
# How parsers come to nested parts

`Parser.Nests` follows a parser to the types and constants inside it. A refusal at such a part is
one of the part's own reader, which the parser has reached behind tokens that leave a known number
of brackets open, and it would have reached it in the same way before other tokens. Each primitive
and each way to combine parsers has a rule for it.
-/

namespace SdlGraph

open Spelling Nesting

/-- What lists nest in: types, and constants, where input objects nest as well. -/
inductive NestedPart where
  /-- A type. -/
  | type
  /-- A constant. -/
  | value
  deriving DecidableEq

namespace NestedPart

/-- What is expected where a part is to begin. -/
def expectation : NestedPart → Expectation
  | type => .type
  | value => .value

/-- A list starts with a token in a part, or an input object in a constant. -/
inductive Opens : NestedPart → Token → Prop where
  /-- The opening mark of a list. -/
  | list (part : NestedPart) : Opens part (.punctuator .leftBracket)
  /-- The opening mark of an input object. -/
  | object : Opens value (.punctuator .leftBrace)

/-- The reader of a part with some levels left, for its refusals only. -/
def reader : NestedPart → Nat → Parser Unit
  | type, levels => (fun _ => ()) <$> Parser.typeRef levels
  | value, levels => (fun _ => ()) <$> Parser.value levels

end NestedPart

/-- The obstacles that are met where a part is to begin. -/
def Obstacle.AtPart : Obstacle → Prop
  | .expected .type => True
  | .expected .value => True
  | .tooDeep => True
  | _ => False

/-- The marks that end a list or an input object. -/
def closingMarks : List Punctuator := [.rightBracket, .rightBrace]

namespace Parser

variable {α β γ δ : Type}

/-- Behind some tokens a parser gives way to an inner one before tokens that start like some given
ones, or with no closing mark: it refuses if the inner one does, at the same token and for the same
reason. -/
def Reaches (parser : Parser α) (index : Nat) (taken after : List Token) (inner : Parser γ) :
    Prop :=
  ∀ rest, rest.head? = after.head? ∨ HeadOutside closingMarks rest →
    ∀ refusal, inner ⟨index + taken.length, rest⟩ = .error refusal →
      ∃ since, parser ⟨index, taken ++ rest⟩ = .error { refusal with since := since }

/-- What is reached from where a parser has got to is reached by the parser. -/
theorem Reaches.trans {parser : Parser α} {inner : Parser γ} {innermost : Parser δ} {index : Nat}
    {us vs after : List Token} (h : parser.Reaches index us (vs ++ after) inner)
    (h' : inner.Reaches (index + us.length) vs after innermost) :
    parser.Reaches index (us ++ vs) after innermost := by
  intro rest hrest refusal hr
  rw [List.length_append, ← Nat.add_assoc] at hr
  obtain ⟨since, hinner⟩ := h' rest hrest refusal hr
  have hhead : (vs ++ rest).head? = (vs ++ after).head? ∨
      HeadOutside closingMarks (vs ++ rest) := by
    cases vs with
    | nil => exact hrest
    | cons token vs => exact .inl rfl
  obtain ⟨since', hparser⟩ := h (vs ++ rest) hhead _ hinner
  exact ⟨since', by rw [List.append_assoc, hparser]⟩

/-- What a parser has reached is reached by one that refuses where it does. -/
theorem Reaches.of_refuses {parser : Parser α} {outer : Parser β} {inner : Parser γ} {index : Nat}
    {taken after : List Token} (h : parser.Reaches index taken after inner)
    (hrefuses : ∀ rest refusal, parser ⟨index, rest⟩ = .error refusal →
      ∃ since, outer ⟨index, rest⟩ = .error { refusal with since := since }) :
    outer.Reaches index taken after inner := by
  intro rest hrest refusal hr
  obtain ⟨since, hparser⟩ := h rest hrest refusal hr
  obtain ⟨since', houter⟩ := hrefuses _ _ hparser
  exact ⟨since', houter⟩

/-- At an index before some tokens, a parser either ends with a result, in the same way before all
tokens that start with the same one, or refuses elsewhere than at a part, or refuses as the reader
of a part does that it has reached. That reader has some levels left and some brackets open before
it. -/
inductive NestsAt (levels depth : Nat) (before : Option Nat) (early : Bool) (parser : Parser α)
    (behind : α → Option Nat) (index : Nat) : List Token → Prop where
  /-- The parser ends with a result. -/
  | ends {result : α} {taken after : List Token} (htrack : track before taken = behind result)
      (hsame : ∀ after', after'.head? = after.head? → parser ⟨index, taken ++ after'⟩ =
        .ok (result, ⟨index + taken.length, after'⟩)) :
      NestsAt levels depth before early parser behind index (taken ++ after)
  /-- The parser refuses elsewhere. -/
  | refuses {refusal : Refusal} {rest : List Token}
      (hrefuses : parser ⟨index, rest⟩ = .error refusal) (helsewhere : ¬refusal.obstacle.AtPart) :
      NestsAt levels depth before early parser behind index rest
  /-- The parser has reached a part. Only if that may happen early nothing is taken before it. -/
  | enters {part : NestedPart} {refusal : Refusal} {taken after : List Token}
      (htrack : track before taken = some depth) (hearly : taken = [] → early = true)
      (hreaches : parser.Reaches index taken after (part.reader levels))
      (hrefuses : part.reader levels ⟨index + taken.length, after⟩ = .error refusal)
      (hat : refusal.obstacle.AtPart) :
      NestsAt levels depth before early parser behind index (taken ++ after)

/-- Whatever the index and the tokens, a parser leads to parts in this way. -/
def Nests (parser : Parser α) (levels depth : Nat) (before : Option Nat) (early : Bool)
    (behind : α → Option Nat) : Prop :=
  ∀ index rest, NestsAt levels depth before early parser behind index rest

/-- What a parser gives a result for is not nothing, and it gives the same whatever comes behind
it. -/
def Firm (parser : Parser α) (result : α) : Prop :=
  ∀ index taken after,
    parser ⟨index, taken ++ after⟩ = .ok (result, ⟨index + taken.length, after⟩) →
      taken ≠ [] ∧ ∀ after', parser ⟨index, taken ++ after'⟩ =
        .ok (result, ⟨index + taken.length, after'⟩)

theorem map_eq_ok_iff {change : α → β} {parser : Parser α} {cursor later : Cursor} {result : β} :
    (change <$> parser) cursor = .ok (result, later) ↔
      ∃ value, parser cursor = .ok (value, later) ∧ change value = result := by
  simp only [Functor.map]
  cases parser cursor with
  | ok answer =>
    obtain ⟨value, later'⟩ := answer
    constructor
    · rintro ⟨⟩
      exact ⟨value, rfl, rfl⟩
    · rintro ⟨value', ⟨⟩, rfl⟩
      rfl
  | error refusal => exact iff_of_false (by rintro ⟨⟩) (by rintro ⟨_, ⟨⟩, _⟩)

theorem map_eq_error_iff {change : α → β} {parser : Parser α} {cursor : Cursor}
    {refusal : Refusal} :
    (change <$> parser) cursor = .error refusal ↔ parser cursor = .error refusal := by
  simp only [Functor.map]
  cases parser cursor with
  | ok answer => exact iff_of_false (by rintro ⟨⟩) (by rintro ⟨⟩)
  | error refusal' => simp only [Except.error.injEq]

theorem take_eq_ok {expectation : Expectation} {value? : Token → Option α} {value : α}
    {index : Nat} {token : Token} (h : value? token = some value) (rest : List Token) :
    take expectation value? ⟨index, token :: rest⟩ =
      .ok (⟨value, ⟨index, index + 1⟩⟩, ⟨index + 1, rest⟩) := by
  simp only [take, take?, Bind.bind, h]
  rfl

/-- Only the token asked for is taken. -/
theorem token_eq {token wanted : Token} {value : Unit}
    (h : (if token = wanted then some () else none) = some value) : token = wanted := by
  split at h
  next he => exact he
  next => cases h

theorem take?_ne_error {value? : Token → Option α} {cursor : Cursor} {refusal : Refusal} :
    take? value? cursor ≠ .error refusal := by
  intro h
  unfold take? at h
  split at h
  next => cases h
  next => split at h <;> cases h

/-- What is asked for is what a single token is refused for. -/
theorem take_eq_error {expectation : Expectation} {value? : Token → Option α} {cursor : Cursor}
    {refusal : Refusal} (h : take expectation value? cursor = .error refusal) :
    refusal = ⟨.expected expectation, cursor.index, none⟩ := by
  have hnone {later : Cursor} (hindex : later.index = cursor.index)
      (hr : (refuse (.expected expectation) : Parser (Located Extent α)) later = .error refusal) :
      refusal = ⟨.expected expectation, cursor.index, none⟩ := by
    cases hr
    rw [hindex]
  simp only [take, take?, Bind.bind] at h
  split at h
  next hr =>
    split at hr
    next =>
      cases hr
      exact hnone rfl h
    next =>
      split at hr
      next =>
        cases hr
        cases h
      next =>
        cases hr
        exact hnone rfl h
  next hr =>
    split at hr
    next => cases hr
    next => split at hr <;> cases hr

/-- A mark that is next is taken. -/
theorem eat_of_cons (written : Punctuator) (index : Nat) (rest : List Token) :
    eat written ⟨index, .punctuator written :: rest⟩ =
      .ok (some ⟨index, index + 1⟩, ⟨index + 1, rest⟩) := by
  simp only [eat, take?, Functor.map, if_true]
  rfl

/-- A mark that is not next is left. -/
theorem eat_of_head {written : Punctuator} {index : Nat} {rest : List Token}
    (h : rest.head? ≠ some (.punctuator written)) :
    eat written ⟨index, rest⟩ = .ok (none, ⟨index, rest⟩) := by
  obtain ⟨place?, hr, rfl⟩ := Reads.eat_none h index
  exact hr

/-- The way behind a mark that is next. -/
theorem ifNext_of_cons {written : Punctuator} {yes : Extent → Parser α} {no : Parser α}
    (index : Nat) (rest : List Token) :
    ifNext written yes no ⟨index, .punctuator written :: rest⟩ =
      yes ⟨index, index + 1⟩ ⟨index + 1, rest⟩ := by
  simp only [ifNext, Bind.bind, eat_of_cons]

/-- The way to go if a mark is not next. -/
theorem ifNext_of_head {written : Punctuator} {yes : Extent → Parser α} {no : Parser α}
    {index : Nat} {rest : List Token} (h : rest.head? ≠ some (.punctuator written)) :
    ifNext written yes no ⟨index, rest⟩ = no ⟨index, rest⟩ := by
  simp only [ifNext, Bind.bind, eat_of_head h]

/-- An item is read if the closing mark is not next. -/
theorem unlessNext_of_head {close : Punctuator} {item : Parser α} {index : Nat} {rest : List Token}
    (h : rest.head? ≠ some (.punctuator close)) :
    unlessNext close item ⟨index, rest⟩ = (some <$> item) ⟨index, rest⟩ := by
  simp only [unlessNext, peek?, Bind.bind, if_neg h]

/-- There are no more items before a closing mark. -/
theorem unlessNext_of_close {close : Punctuator} {item : Parser α} {index : Nat} {rest : List Token}
    (h : rest.head? = some (.punctuator close)) :
    unlessNext close item ⟨index, rest⟩ = .ok (none, ⟨index, rest⟩) := by
  simp only [unlessNext, peek?, Bind.bind, if_pos h]
  rfl

namespace Firm

/-- A token that must have a value is taken whatever follows it. -/
theorem take (expectation : Expectation) (value? : Token → Option α)
    (result : Located Extent α) : (Parser.take expectation value?).Firm result := by
  intro index taken after hr
  obtain ⟨us, ⟨token, hvalue, rfl⟩, hrest, -⟩ := Takes.take value? _ _ _ hr
  obtain rfl : taken = [token] := List.append_cancel_right hrest
  refine ⟨List.cons_ne_nil _ _, fun after' => ?_⟩
  rw [List.singleton_append, take_eq_ok hvalue] at hr ⊢
  rw [(Prod.mk.inj (Except.ok.inj hr)).1]
  rfl

theorem map {change : α → β} {parser : Parser α} (h : ∀ value, parser.Firm value) (result : β) :
    (change <$> parser).Firm result := by
  intro index taken after hr
  obtain ⟨value, hvalue, rfl⟩ := map_eq_ok_iff.mp hr
  obtain ⟨hne, hsame⟩ := h value index taken after hvalue
  exact ⟨hne, fun after' => map_eq_ok_iff.mpr ⟨value, hsame after', rfl⟩⟩

theorem expect (written : Punctuator) (place : Extent) : (Parser.expect written).Firm place :=
  map (take _ _) place

/-- A constant is taken whatever follows it. -/
theorem value (levels : Nat) (result : Value) :
    (Located.value <$> Parser.value levels).Firm result := by
  intro index taken after hr
  obtain ⟨read, hread, rfl⟩ := map_eq_ok_iff.mp hr
  obtain ⟨us, ⟨hu, hfine⟩, hrest, -⟩ := takes_value levels _ _ _ hread
  obtain rfl : taken = us := List.append_cancel_right hrest
  refine ⟨fun hnil => nil_not_mem_value read.value (hnil ▸ hu), fun after' => ?_⟩
  obtain ⟨again, hagain, hsame⟩ :=
    recovers_value levels read.value hfine taken hu after' HeadOutside.noMarks index
  exact map_eq_ok_iff.mpr ⟨again, hagain, hsame⟩

/-- An item is taken whatever follows if it is on its own. -/
theorem unlessNext {item : Parser α} {result : α} (h : item.Firm result) (close : Punctuator) :
    (Parser.unlessNext close item).Firm (some result) := by
  intro index taken after hr
  by_cases hhead : (taken ++ after).head? = some (.punctuator close)
  · rw [unlessNext_of_close hhead] at hr
    cases hr
  · rw [unlessNext_of_head hhead] at hr
    obtain ⟨value, hvalue, ⟨⟩⟩ := map_eq_ok_iff.mp hr
    obtain ⟨hne, hsame⟩ := h index taken after hvalue
    refine ⟨hne, fun after' => ?_⟩
    have hhead' : (taken ++ after').head? ≠ some (.punctuator close) := by
      rw [List.head?_append_of_ne_nil _ hne] at hhead ⊢
      exact hhead
    rw [unlessNext_of_head hhead']
    exact map_eq_ok_iff.mpr ⟨result, hsame after', rfl⟩

end Firm

section

variable {levels depth : Nat} {before middle : Option Nat} {early later : Bool}
  {parser : Parser α} {behind : α → Option Nat} {index : Nat} {rest : List Token}

/-- A parser that has taken some tokens and goes on like another one. -/
theorem NestsAt.ahead {next : Parser α} {us after : List Token} (htrack : track before us = middle)
    (hearly : us = [] → later = true → early = true)
    (hthen : ∀ after', after'.head? = after.head? ∨
        later = true ∧ HeadOutside closingMarks after' →
      parser ⟨index, us ++ after'⟩ = next ⟨index + us.length, after'⟩)
    (h : NestsAt levels depth middle later next behind (index + us.length) after) :
    NestsAt levels depth before early parser behind index (us ++ after) := by
  subst htrack
  generalize hmiddle : index + us.length = middle at hthen h
  cases h with
  | @ends result vs after htrack hsame =>
    have htrack' : track before (us ++ vs) = behind result := by rw [track_append, htrack]
    have hsame' : ∀ after', after'.head? = after.head? → parser ⟨index, us ++ vs ++ after'⟩ =
        .ok (result, ⟨index + (us ++ vs).length, after'⟩) := by
      intro after' hafter
      rw [List.append_assoc, hthen _ (.inl (PredictsAt.head?_append hafter)), hsame after' hafter,
        List.length_append, ← Nat.add_assoc, hmiddle]
    rw [← List.append_assoc]
    exact .ends htrack' hsame'
  | refuses hrefuses helsewhere =>
    exact .refuses ((hthen after (.inl rfl)).trans hrefuses) helsewhere
  | @enters part refusal vs after htrack hlater hreaches hrefuses hat =>
    have htrack' : track before (us ++ vs) = some depth := by rw [track_append, htrack]
    have hnil : us ++ vs = [] → early = true := by
      intro hnil
      obtain ⟨hus, hvs⟩ := List.append_eq_nil_iff.mp hnil
      exact hearly hus (hlater hvs)
    have hindex : index + (us ++ vs).length = middle + vs.length := by
      rw [List.length_append, ← Nat.add_assoc, hmiddle]
    have hreaches' : parser.Reaches index (us ++ vs) after (part.reader levels) := by
      intro rest hrest refusal hr
      rw [hindex] at hr
      obtain ⟨since, hnext⟩ := hreaches rest hrest refusal hr
      have hhead : (vs ++ rest).head? = (vs ++ after).head? ∨
          later = true ∧ HeadOutside closingMarks (vs ++ rest) := by
        cases vs with
        | nil => exact hrest.imp id fun hout => ⟨hlater rfl, hout⟩
        | cons token vs => exact .inl rfl
      exact ⟨since, by rw [List.append_assoc, hthen _ hhead, hnext]⟩
    rw [← List.append_assoc]
    rw [← hindex] at hrefuses
    exact .enters htrack' hnil hreaches' hrefuses hat

theorem NestsAt.map {change : α → β} {behind : β → Option Nat}
    (h : NestsAt levels depth before early parser (fun result => behind (change result)) index
      rest) : NestsAt levels depth before early (change <$> parser) behind index rest := by
  cases h with
  | @ends result taken after htrack hsame =>
    have hsame' : ∀ after', after'.head? = after.head? →
        (change <$> parser) ⟨index, taken ++ after'⟩ =
          .ok (change result, ⟨index + taken.length, after'⟩) :=
      fun after' hafter => map_eq_ok_iff.mpr ⟨result, hsame after' hafter, rfl⟩
    exact .ends htrack hsame'
  | refuses hrefuses helsewhere => exact .refuses (map_eq_error_iff.mpr hrefuses) helsewhere
  | enters htrack hearly hreaches hrefuses hat =>
    refine .enters htrack hearly (hreaches.of_refuses fun rest refusal hr => ?_) hrefuses hat
    exact ⟨refusal.since, map_eq_error_iff.mpr hr⟩

end

namespace Nests

variable {levels depth : Nat} {before middle : Option Nat} {early later : Bool}
  {parser : Parser α} {behind : α → Option Nat}

theorem map {change : α → β} {behind : β → Option Nat}
    (h : parser.Nests levels depth before early fun result => behind (change result)) :
    (change <$> parser).Nests levels depth before early behind :=
  fun index rest => (h index rest).map

theorem pure {result : α} (h : before = behind result) :
    (Pure.pure result : Parser α).Nests levels depth before early behind := by
  intro index rest
  have hsame : ∀ after', after'.head? = rest.head? →
      (Pure.pure result : Parser α) ⟨index, [] ++ after'⟩ =
        .ok (result, ⟨index + ([] : List Token).length, after'⟩) := fun _ _ => rfl
  have htrack : track before [] = behind result := h
  exact .ends htrack hsame

theorem refuse {obstacle : Obstacle} (h : ¬obstacle.AtPart) :
    (Parser.refuse obstacle : Parser α).Nests levels depth before early behind := by
  intro index rest
  have hrefuses : (Parser.refuse obstacle : Parser α) ⟨index, rest⟩ =
      .error ⟨obstacle, index, none⟩ := rfl
  exact .refuses hrefuses h

/-- The reader of a part leads to the part it reads. -/
theorem of_part {part : NestedPart} {relation : α → List Token → Prop}
    {viable : List Token → Prop} (hpart : part.reader levels = (fun _ => ()) <$> parser)
    (h : Predicts parser relation viable)
    (htrack : ∀ result taken, relation result taken → track (some depth) taken = behind result) :
    parser.Nests levels depth (some depth) true behind := by
  intro index rest
  have hreader {cursor : Cursor} {refusal : Refusal} :
      part.reader levels cursor = .error refusal ↔ parser cursor = .error refusal := by
    rw [hpart, map_eq_error_iff]
  cases h index rest with
  | ends hrelation hsame => exact .ends (htrack _ _ hrelation) hsame
  | @refuses refusal taken after _ _ _ hsame =>
    have hrefuses := hsame after rfl
    by_cases hat : refusal.obstacle.AtPart
    · have hreaches : parser.Reaches index [] (taken ++ after) (part.reader levels) :=
        fun rest _ refusal hr => ⟨refusal.since, hreader.mp hr⟩
      have henters : NestsAt levels depth (some depth) true parser behind index
          ([] ++ (taken ++ after)) :=
        .enters rfl (fun _ => rfl) hreaches (hreader.mpr hrefuses) hat
      exact henters
    · exact .refuses hrefuses hat

/-- A token is taken if it has the value asked for. -/
theorem take? {value? : Token → Option α} {behind : Option (Located Extent α) → Option Nat}
    (hnone : before = behind none)
    (hsome : ∀ token read, value? token = some read.value →
      next before token = behind (some read)) :
    (Parser.take? value?).Nests levels depth before early behind := by
  intro index rest
  have hpredicts : Predicts (Parser.take? value?) _ fun _ => True := Predicts.take? value?
  cases hpredicts index rest with
  | @ends result taken after htaken hsame =>
    refine .ends ?_ hsame
    cases result with
    | none =>
      obtain rfl : taken = [] := htaken
      exact hnone
    | some read =>
      obtain ⟨token, hvalue, rfl⟩ := htaken
      exact hsome token read hvalue
  | @refuses refusal taken after _ _ _ hsame => exact absurd (hsame after rfl) take?_ne_error

/-- What one parser leads to and then the next. If a part may come right behind the first one, that
has to be firm. -/
theorem bind {next : α → Parser β} {mid : α → Option Nat} {behind : β → Option Nat}
    (h : parser.Nests levels depth before early mid)
    (hnext : ∀ result, (next result).Nests levels depth (mid result) later behind)
    (hfirm : later = true → ∀ result, parser.Firm result) :
    (parser >>= next).Nests levels depth before early behind := by
  intro index rest
  cases h index rest with
  | @ends result us after htrack hsame =>
    refine .ahead htrack (fun hnil hlater => ?_) (fun after' hafter => ?_)
      (hnext result (index + us.length) after)
    · exact absurd hnil (hfirm hlater _ _ _ _ (hsame after rfl)).1
    · have hparser : parser ⟨index, us ++ after'⟩ = .ok (result, ⟨index + us.length, after'⟩) := by
        rcases hafter with hhead | ⟨hlater, -⟩
        · exact hsame after' hhead
        · exact (hfirm hlater _ _ _ _ (hsame after rfl)).2 after'
      simp only [Bind.bind, hparser]
  | refuses hrefuses helsewhere =>
    refine .refuses ?_ helsewhere
    simp only [Bind.bind, hrefuses]
  | enters htrack hearly hreaches hrefuses hat =>
    refine .enters htrack hearly (hreaches.of_refuses fun rest refusal hr => ?_) hrefuses hat
    exact ⟨refusal.since, by simp only [Bind.bind, hr]⟩

/-- What one parser leads to and then one that begins with no part. -/
theorem bind_late {next : α → Parser β} {mid : α → Option Nat} {behind : β → Option Nat}
    (h : parser.Nests levels depth before early mid)
    (hnext : ∀ result, (next result).Nests levels depth (mid result) false behind) :
    (parser >>= next).Nests levels depth before early behind := bind h hnext nofun

theorem take {expectation : Expectation} {value? : Token → Option α} {behind : Option Nat}
    (helsewhere : ¬(Obstacle.expected expectation).AtPart)
    (htrack : ∀ token value, value? token = some value → next before token = behind) :
    (Parser.take expectation value?).Nests levels depth before early fun _ => behind := by
  have htaken : (Parser.take? value?).Nests levels depth before early
      fun result => result.elim before fun _ => behind :=
    take? rfl fun token read => htrack token read.value
  refine bind_late htaken fun result => ?_
  cases result with
  | none => exact refuse helsewhere
  | some read => exact pure rfl

theorem eat (written : Punctuator) : (Parser.eat written).Nests levels depth before early
    fun place? => place?.elim before fun _ => next before (.punctuator written) :=
  map (take? rfl fun token read ht => by rw [token_eq ht]; rfl)

theorem expect (written : Punctuator) : (Parser.expect written).Nests levels depth before early
    fun _ => next before (.punctuator written) :=
  map (take id fun token value ht => by rw [token_eq ht])

/-- Looking at the next place leads to nothing. -/
theorem nextPlace : Parser.nextPlace.Nests levels depth before early fun _ => before := by
  intro index rest
  have hsame : ∀ after', after'.head? = rest.head? → Parser.nextPlace ⟨index, [] ++ after'⟩ =
      .ok (⟨index, index + 1⟩, ⟨index + ([] : List Token).length, after'⟩) := fun _ _ => rfl
  have htrack : track before [] = before := rfl
  exact .ends htrack hsame

/-- What is done on sight of the next token. -/
theorem bind_peek? {next : Option Token → Parser α}
    (h : ∀ token, (next token).Nests levels depth before false behind) :
    (Parser.peek? >>= next).Nests levels depth before early behind := by
  intro index rest
  have hthen : ∀ after' : List Token, after'.head? = rest.head? ∨
      false = true ∧ HeadOutside closingMarks after' →
      (Parser.peek? >>= next) ⟨index, [] ++ after'⟩ =
        next rest.head? ⟨index + ([] : List Token).length, after'⟩ := by
    intro after' hafter
    rw [← hafter.resolve_right fun hnever => Bool.noConfusion hnever.1]
    rfl
  exact NestsAt.ahead rfl (fun _ hnever => Bool.noConfusion hnever) hthen (h rest.head? index rest)

theorem committed (h : parser.Nests levels depth before early behind) :
    (Parser.committed parser).Nests levels depth before early behind := by
  intro index rest
  cases h index rest with
  | ends htrack hsame =>
    refine .ends htrack fun after' hafter => ?_
    rw [Parser.committed, hsame after' hafter]
  | @refuses refusal rest hrefuses helsewhere =>
    have hwithin : Parser.committed parser ⟨index, rest⟩ = .error (refusal.within index) := by
      rw [Parser.committed, hrefuses]
    exact .refuses hwithin helsewhere
  | enters htrack hearly hreaches hrefuses hat =>
    refine .enters htrack hearly (hreaches.of_refuses fun rest refusal hr => ?_) hrefuses hat
    exact ⟨some (refusal.since.getD index), by rw [Parser.committed, hr]; rfl⟩

/-- The way behind a mark and the other one. -/
theorem ifNext {written : Punctuator} {yes : Extent → Parser α} {no : Parser α}
    (hyes : ∀ place,
      (yes place).Nests levels depth (next before (.punctuator written)) later behind)
    (hno : no.Nests levels depth before false behind) :
    (Parser.ifNext written yes no).Nests levels depth before false behind := by
  intro index rest
  by_cases hhead : rest.head? = some (.punctuator written)
  · obtain ⟨after, rfl⟩ := List.head?_eq_some_iff.mp hhead
    have hthen : ∀ after' : List Token, after'.head? = after.head? ∨
        later = true ∧ HeadOutside closingMarks after' →
        Parser.ifNext written yes no ⟨index, [.punctuator written] ++ after'⟩ =
          yes ⟨index, index + 1⟩ ⟨index + [Token.punctuator written].length, after'⟩ :=
      fun after' _ => ifNext_of_cons index after'
    have htrack : track before [.punctuator written] = next before (.punctuator written) := rfl
    exact NestsAt.ahead htrack (fun hnil => absurd hnil (List.cons_ne_nil _ _)) hthen
      (hyes _ (index + 1) after)
  · have hthen : ∀ after' : List Token, after'.head? = rest.head? ∨
        false = true ∧ HeadOutside closingMarks after' →
        Parser.ifNext written yes no ⟨index, [] ++ after'⟩ =
          no ⟨index + ([] : List Token).length, after'⟩ := by
      intro after' hafter
      have hhead' : after'.head? ≠ some (.punctuator written) := by
        rwa [hafter.resolve_right fun hnever => Bool.noConfusion hnever.1]
      exact ifNext_of_head hhead'
    exact NestsAt.ahead rfl (fun _ hearly => hearly) hthen (hno index rest)

/-- An item unless a closing mark is next. The item may begin with a part if the mark closes what is
around it. -/
theorem unlessNext {close : Punctuator}
    (h : parser.Nests levels depth before early fun _ => before)
    (hclosing : early = true → close ∈ closingMarks) :
    (Parser.unlessNext close parser).Nests levels depth before early fun _ => before := by
  intro index rest
  by_cases hhead : rest.head? = some (.punctuator close)
  · have hsame : ∀ after', after'.head? = rest.head? →
        Parser.unlessNext close parser ⟨index, [] ++ after'⟩ =
          .ok (none, ⟨index + ([] : List Token).length, after'⟩) :=
      fun after' hafter => unlessNext_of_close (hafter.trans hhead)
    have htrack : track before [] = before := rfl
    exact .ends htrack hsame
  · have hthen : ∀ after' : List Token, after'.head? = rest.head? ∨
        early = true ∧ HeadOutside closingMarks after' →
        Parser.unlessNext close parser ⟨index, [] ++ after'⟩ =
          (some <$> parser) ⟨index + ([] : List Token).length, after'⟩ := by
      intro after' hafter
      have hhead' : after'.head? ≠ some (.punctuator close) := by
        rcases hafter with hsame | ⟨hearly, hout⟩
        · rwa [hsame]
        · exact hout close (hclosing hearly)
      exact unlessNext_of_head hhead'
    have hitem : (some <$> parser).Nests levels depth before early fun _ => before := map h
    exact NestsAt.ahead rfl (fun _ hearly => hearly) hthen (hitem index rest)

/-- A repetition, each round of which takes a token. If an item may begin with a part, the items
before it have to be firm. -/
theorem collect {step : Parser (Option α)}
    (h : step.Nests levels depth before early fun _ => before) (hadvances : step.Advances)
    (hfirm : early = true → ∀ item, step.Firm (some item)) :
    (Parser.collect step).Nests levels depth before early fun _ => before := by
  -- By induction on the number of tokens, since each item leaves fewer of them.
  have hall : ∀ length index (rest : List Token), rest.length = length →
      NestsAt levels depth before early (Parser.collect step) (fun _ => before) index rest := by
    intro length
    induction length using Nat.strongRecOn with
    | ind length ih =>
      intro index rest hlength
      cases h index rest with
      | @ends result us after htrack hsame =>
        cases result with
        | none =>
          have hstop : ∀ after', after'.head? = after.head? →
              Parser.collect step ⟨index, us ++ after'⟩ =
                .ok ([], ⟨index + us.length, after'⟩) := by
            intro after' hafter
            rw [Parser.collect, hsame after' hafter]
          exact .ends htrack hstop
        | some item =>
          have hitem := hsame after rfl
          have hless : after.length < (us ++ after).length := hadvances _ _ _ hitem
          have hne : us ≠ [] := by
            rintro rfl
            exact Nat.lt_irrefl _ hless
          have hthen : ∀ after', after'.head? = after.head? ∨
              early = true ∧ HeadOutside closingMarks after' →
              Parser.collect step ⟨index, us ++ after'⟩ =
                ((item :: ·) <$> Parser.collect step) ⟨index + us.length, after'⟩ := by
            intro after' hafter
            have hitem' : step ⟨index, us ++ after'⟩ =
                .ok (some item, ⟨index + us.length, after'⟩) := by
              rcases hafter with hhead | ⟨hearly, -⟩
              · exact hsame after' hhead
              · exact (hfirm hearly item _ _ _ hitem).2 after'
            have hless' : after'.length < (us ++ after').length := hadvances _ _ _ hitem'
            rw [Parser.collect, hitem']
            simp only [hless', if_true, Functor.map]
            cases Parser.collect step ⟨index + us.length, after'⟩ <;> rfl
          have hrest := ih after.length (hlength ▸ hless) (index + us.length) after rfl
          exact .ahead htrack (fun hnil => absurd hnil hne) hthen hrest.map
      | refuses hrefuses helsewhere =>
        refine .refuses ?_ helsewhere
        rw [Parser.collect, hrefuses]
      | enters htrack hearly hreaches hrefuses hat =>
        refine .enters htrack hearly (hreaches.of_refuses fun rest refusal hr => ?_) hrefuses hat
        exact ⟨refusal.since, by rw [Parser.collect, hr]⟩
  exact fun index rest => hall _ index rest rfl

/-- Items up to a closing mark. If they may begin with parts, the mark closes what is around
them. -/
theorem upTo {close : Punctuator} (h : parser.Nests levels depth before early fun _ => before)
    (hadvances : (Parser.unlessNext close parser).Advances)
    (hclosing : early = true → close ∈ closingMarks ∧ ∀ item, parser.Firm item) :
    (Parser.upTo close parser).Nests levels depth before early
      fun _ => next before (.punctuator close) := by
  have hitems : (Parser.collect (Parser.unlessNext close parser)).Nests levels depth before early
      fun _ => before :=
    collect (unlessNext h fun hearly => (hclosing hearly).1) hadvances
      fun hearly item => Firm.unlessNext ((hclosing hearly).2 item) close
  exact bind_late hitems fun items => bind_late (expect close) fun place => pure rfl

end Nests

/-- A construct that begins and ends outside of parts, each of which is entered with all levels
left. -/
abbrev Wraps (parser : Parser α) : Prop := parser.Nests nestingLimit 0 none false fun _ => none

namespace Wraps

variable {parser : Parser α}

/-- What stands behind a colon may be a part. -/
theorem colon (h : parser.Nests nestingLimit 0 (some 0) true fun _ => none) :
    (expect .colon >>= fun _ => parser).Wraps :=
  Nests.bind (Nests.expect .colon) (fun _ => h) fun _ => Firm.expect .colon

/-- What may follow a mark. -/
theorem following {written : Punctuator} {item : Extent → Parser α} {early : Bool}
    (h : ∀ place, (item place).Nests nestingLimit 0 (next none (.punctuator written)) early
      fun _ => none) : (Parser.following written item).Wraps :=
  Nests.ifNext (fun place => Nests.map (h place)) (Nests.pure rfl)

/-- A repetition, each round of which takes a token. -/
theorem collect {step : Parser (Option α)} (h : step.Wraps) (hadvances : step.Advances) :
    (Parser.collect step).Wraps := Nests.collect h hadvances nofun

/-- Items between marks. -/
theorem delimited {opening close : Punctuator} (h : parser.Wraps)
    (hopening : next none (.punctuator opening) = none)
    (hclose : next none (.punctuator close) = none)
    (hadvances : (Parser.unlessNext close parser).Advances) :
    (Parser.delimited opening close parser).Wraps := by
  have hmore : (Parser.upTo close parser).Wraps := by
    have hitems := Nests.upTo h hadvances nofun
    rwa [hclose] at hitems
  have hfirst : parser.Nests nestingLimit 0 (next none (.punctuator opening)) false
      fun _ => none := by
    rw [hopening]
    exact h
  exact Nests.ifNext (fun start => Nests.committed (Nests.bind_late hfirst fun first =>
    Nests.bind_late hmore fun _ => Nests.pure rfl)) (Nests.pure rfl)

/-- Items with a mark between them. The first one may stand where a part could begin. -/
theorem separated {written : Punctuator} {before : Option Nat}
    (h : parser.Nests nestingLimit 0 before false fun _ => none)
    (hitem : parser.Nests nestingLimit 0 (next none (.punctuator written)) false fun _ => none)
    (hadvances : (Parser.following written fun _ => parser).Advances) :
    (Parser.separated written parser).Nests nestingLimit 0 before false fun _ => none :=
  Nests.bind_late h fun _ => Nests.bind_late (collect (following fun _ => hitem) hadvances)
    fun _ => Nests.pure rfl

end Wraps

end Parser

end SdlGraph
