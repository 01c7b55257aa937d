import SdlGraph.Proofs.Document.Nesting

/-!
# Where types and constants are entered

The readers of types and constants count the levels that are left. A refusal at a part is followed
down to the reader that meets it: the levels this one has left and the brackets that are open before
it make up the levels there were. The rest of the grammar only leads to the parts of a document,
each of which is entered with all levels left and no bracket open.
-/

namespace SdlGraph

open Spelling Nesting

namespace Parser

variable {α β : Type}

theorem committed_eq_error_iff {parser : Parser α} {cursor : Cursor} {refusal : Refusal} :
    committed parser cursor = .error refusal ↔
      ∃ inner, parser cursor = .error inner ∧ inner.within cursor.index = refusal := by
  unfold committed
  cases parser cursor with
  | ok answer => exact iff_of_false (by rintro ⟨⟩) (by rintro ⟨_, ⟨⟩, _⟩)
  | error inner => simp only [Except.error.injEq, exists_eq_left']

/-- Before the end of the tokens, an item is missing. -/
theorem upTo_nil {close : Punctuator} {item : Parser α} {index : Nat} {refusal : Refusal}
    (h : item ⟨index, []⟩ = .error refusal) : upTo close item ⟨index, []⟩ = .error refusal := by
  have hhead : ([] : List Token).head? ≠ some (.punctuator close) := nofun
  have hstep : unlessNext close item ⟨index, []⟩ = .error refusal := by
    rw [unlessNext_of_head hhead]
    exact map_eq_error_iff.mpr h
  have hitems : collect (unlessNext close item) ⟨index, []⟩ = .error refusal := by
    rw [collect, hstep]
  simp only [upTo, Bind.bind, hitems]

/-- An exclamation mark may be left out, so it is never missed. -/
theorem nullable_eq_error_iff {inner : Parser (TypeUse Extent)} {cursor : Cursor}
    {refusal : Refusal} :
    typeRef.nullable inner cursor = .error refusal ↔ inner cursor = .error refusal := by
  simp only [typeRef.nullable, Bind.bind]
  cases inner cursor with
  | error refusal' => exact Iff.rfl
  | ok answer =>
    refine iff_of_false (fun h => ?_) (by rintro ⟨⟩)
    obtain ⟨use, ⟨index, rest⟩⟩ := answer
    by_cases hhead : rest.head? = some (.punctuator .bang)
    · obtain ⟨later, rfl⟩ := List.head?_eq_some_iff.mp hhead
      simp only [ifNext_of_cons] at h
      cases h
    · simp only [ifNext_of_head hhead] at h
      cases h

theorem namedType_eq_error {cursor : Cursor} {refusal : Refusal}
    (h : typeRef.namedType cursor = .error refusal) :
    refusal = ⟨.expected .type, cursor.index, none⟩ := by
  simp only [typeRef.namedType, Bind.bind] at h
  split at h
  next => cases h
  next ht =>
    cases h
    exact take_eq_error ht

namespace Nests

variable {levels depth : Nat} {before : Option Nat} {early : Bool}

theorem typeRef (levels depth : Nat) : (Parser.typeRef levels).Nests levels depth (some depth) true
    fun _ => stillOpen depth := by
  have hpart : NestedPart.reader .type levels = (fun _ => ()) <$> Parser.typeRef levels := rfl
  exact of_part hpart ((follows_typeRef levels).predicts.of_takes (takes_typeRef levels))
    fun _ _ h => TypeRef.track_spelling h.2.1 depth

theorem value (levels depth : Nat) : (Parser.value levels).Nests levels depth (some depth) true
    fun _ => stillOpen depth := by
  have hpart : NestedPart.reader .value levels = (fun _ => ()) <$> Parser.value levels := rfl
  exact of_part hpart ((follows_value levels).predicts.of_takes (takes_value levels))
    fun _ _ h => Value.track_spelling _ _ h.2.1 depth

/-- A word that is no part. -/
theorem word {expectation : Expectation} {behind : Option Nat}
    (helsewhere : ¬(Obstacle.expected expectation).AtPart)
    (htrack : ∀ text, next before (.name text) = behind) :
    (Parser.take expectation Token.name?).Nests levels depth before early fun _ => behind := by
  refine take helsewhere fun token text ht => ?_
  cases token <;> cases ht
  exact htrack text

/-- The element of a list type and the closing mark. -/
theorem listType (levels depth : Nat) (start : Extent) :
    (Parser.typeRef.listType (Parser.typeRef levels) start).Nests levels (depth + 1)
      (some (depth + 1)) true fun _ => stillOpen depth :=
  bind_late (typeRef levels (depth + 1)) fun _ => bind_late (expect .rightBracket) fun _ => pure rfl

/-- The items of a list and the closing mark. An item may follow right behind another one. -/
theorem listValue (levels depth : Nat) (start : Extent) :
    (Parser.listValue (Parser.value levels) start).Nests levels (depth + 1) (some (depth + 1)) true
      fun _ => stillOpen depth := by
  have hitems := upTo (map (value levels (depth + 1))) (ListLoop.items levels).advances
    fun _ => ⟨by decide, Firm.value levels⟩
  exact bind_late hitems fun _ => pure rfl

/-- An entry of an input object leaves the brackets around it open. -/
theorem objectEntry (levels depth : Nat) :
    (Parser.objectEntry (Parser.value levels)).Nests levels (depth + 1) (some (depth + 1)) false
      fun _ => some (depth + 1) :=
  bind_late (word id fun _ => rfl) fun _ => bind (expect .colon)
    (fun _ => bind_late (value levels (depth + 1)) fun _ => pure rfl) fun _ => Firm.expect .colon

/-- The entries of an input object and the closing mark. -/
theorem objectValue (levels depth : Nat) (start : Extent) :
    (Parser.objectValue (Parser.value levels) start).Nests levels (depth + 1) (some (depth + 1))
      false fun _ => stillOpen depth :=
  bind_late (upTo (objectEntry levels depth) (ListLoop.entries levels).advances nofun)
    fun _ => pure rfl

end Nests

end Parser

namespace NestedPart

variable {part : NestedPart} {levels index : Nat} {token : Token} {rest : List Token}
  {refusal : Refusal}

/-- At the end of the tokens a part is missing. -/
theorem reader_nil (part : NestedPart) (levels index : Nat) :
    part.reader levels ⟨index, []⟩ = .error ⟨.expected part.expectation, index, none⟩ := by
  cases part <;> cases levels <;> rfl

/-- A list or an input object is refused at its opening mark if no levels are left. -/
theorem reader_zero_opens (h : part.Opens token) (index : Nat) (rest : List Token) :
    part.reader 0 ⟨index, token :: rest⟩ = .error ⟨.tooDeep, index, none⟩ := by
  cases h with
  | list part => cases part <;> rfl
  | object => rfl

/-- With levels left, an element or an item is missing behind the opening mark of a list. -/
theorem reader_list (part : NestedPart) (levels index : Nat) :
    part.reader (levels + 1) ⟨index, [.punctuator .leftBracket]⟩ =
      .error ⟨.expected part.expectation, index + 1, some (index + 1)⟩ := by
  have hmissing := reader_nil part levels (index + 1)
  cases part with
  | type =>
    rw [reader, Parser.map_eq_error_iff] at hmissing ⊢
    rw [Parser.typeRef, Parser.ifNext_of_cons, Parser.nullable_eq_error_iff,
      Parser.committed_eq_error_iff]
    refine ⟨⟨.expected .type, index + 1, none⟩, ?_, rfl⟩
    simp only [Parser.typeRef.listType, Bind.bind, hmissing]
    rfl
  | value =>
    rw [reader, Parser.map_eq_error_iff] at hmissing ⊢
    rw [Parser.value, Parser.ifNext_of_cons, Parser.committed_eq_error_iff]
    refine ⟨⟨.expected .value, index + 1, none⟩, ?_, rfl⟩
    have hitem : (Located.value <$> Parser.value levels) ⟨index + 1, []⟩ =
        .error ⟨.expected .value, index + 1, none⟩ := Parser.map_eq_error_iff.mpr hmissing
    simp only [Parser.listValue, Bind.bind, Parser.upTo_nil hitem]

/-- With levels left, the name of an entry is missing behind the opening mark of an input object. -/
theorem reader_object (levels index : Nat) :
    value.reader (levels + 1) ⟨index, [.punctuator .leftBrace]⟩ =
      .error ⟨.expected .objectFieldName, index + 1, some (index + 1)⟩ := by
  have hbracket : [Token.punctuator .leftBrace].head? ≠ some (.punctuator .leftBracket) := by simp
  rw [reader, Parser.map_eq_error_iff, Parser.value, Parser.ifNext_of_head hbracket,
    Parser.ifNext_of_cons, Parser.committed_eq_error_iff]
  refine ⟨⟨.expected .objectFieldName, index + 1, none⟩, ?_, rfl⟩
  have hentry : Parser.objectEntry (Parser.value levels) ⟨index + 1, []⟩ =
      .error ⟨.expected .objectFieldName, index + 1, none⟩ := rfl
  simp only [Parser.objectValue, Bind.bind, Parser.upTo_nil hentry]

/-- A part that does not nest is refused at its first token, which cannot start it. -/
theorem reader_eq_error (h : part.reader levels ⟨index, rest⟩ = .error refusal)
    (hhead : ∀ token ∈ rest.head?, ¬part.Opens token) :
    refusal = ⟨.expected part.expectation, index, none⟩ := by
  have hbracket : rest.head? ≠ some (.punctuator .leftBracket) :=
    fun he => hhead _ he (.list part)
  cases part with
  | type =>
    have hnamed : Parser.typeRef.nullable Parser.typeRef.namedType ⟨index, rest⟩ =
        .error refusal := by
      rw [reader, Parser.map_eq_error_iff] at h
      cases levels with
      | zero =>
        simp only [Parser.typeRef, Parser.peek?, Bind.bind] at h
        exact h
      | succ levels => rwa [Parser.typeRef, Parser.ifNext_of_head hbracket] at h
    exact Parser.namedType_eq_error (Parser.nullable_eq_error_iff.mp hnamed)
  | value =>
    have hbrace : rest.head? ≠ some (.punctuator .leftBrace) := fun he => hhead _ he .object
    have hscalar : Parser.scalarValue ⟨index, rest⟩ = .error refusal := by
      rw [reader, Parser.map_eq_error_iff] at h
      cases levels with
      | zero =>
        simp only [Parser.value, Parser.peek?, Bind.bind] at h
        exact h
      | succ levels =>
        rwa [Parser.value, Parser.ifNext_of_head hbracket, Parser.ifNext_of_head hbrace] at h
    exact Parser.take_eq_error hscalar

/-- With levels left, what is between the brackets is read with one level less and one more bracket
open, and is refused together with the part around it. -/
theorem exists_inside (h : part.Opens token) (levels depth index : Nat) :
    ∃ (α : Type) (inside : Parser α) (early : Bool) (behind : α → Option Nat),
      inside.Nests levels (depth + 1) (some (depth + 1)) early behind ∧
        ∀ rest refusal, part.reader (levels + 1) ⟨index, token :: rest⟩ = .error refusal ↔
          ∃ inner, inside ⟨index + 1, rest⟩ = .error inner ∧
            inner.within (index + 1) = refusal := by
  cases h with
  | list part =>
    cases part with
    | type =>
      refine ⟨_, _, _, _, Parser.Nests.listType levels depth ⟨index, index + 1⟩,
        fun rest refusal => ?_⟩
      rw [reader, Parser.map_eq_error_iff, Parser.typeRef, Parser.ifNext_of_cons]
      exact Parser.nullable_eq_error_iff.trans Parser.committed_eq_error_iff
    | value =>
      refine ⟨_, _, _, _, Parser.Nests.listValue levels depth ⟨index, index + 1⟩,
        fun rest refusal => ?_⟩
      rw [reader, Parser.map_eq_error_iff, Parser.value, Parser.ifNext_of_cons,
        Parser.committed_eq_error_iff]
  | object =>
    refine ⟨_, _, _, _, Parser.Nests.objectValue levels depth ⟨index, index + 1⟩,
      fun rest refusal => ?_⟩
    have hbracket : (Token.punctuator .leftBrace :: rest).head? ≠
        some (.punctuator .leftBracket) := by simp
    rw [reader, Parser.map_eq_error_iff, Parser.value, Parser.ifNext_of_head hbracket,
      Parser.ifNext_of_cons, Parser.committed_eq_error_iff]

end NestedPart

namespace Parser

variable {α : Type} {parser : Parser α} {levels depth : Nat} {before : Option Nat} {early : Bool}
  {behind : α → Option Nat} {index : Nat} {rest : List Token} {refusal : Refusal}

/-- The part at which a parser refuses: behind the tokens taken its reader has as many levels less
as there are brackets open more, and it refuses the next token. -/
structure Stops (parser : Parser α) (levels depth : Nat) (before : Option Nat) (index : Nat)
    (refusal : Refusal) (part : NestedPart) (deeper : Nat) (taken after : List Token) : Prop where
  /-- There were enough levels. -/
  le : deeper ≤ levels
  /-- The brackets that are open. -/
  track : track before taken = some (depth + deeper)
  /-- The reader of the part with the levels left. -/
  reaches : parser.Reaches index taken after (part.reader (levels - deeper))
  /-- The token refused. -/
  index : refusal.index = index + taken.length
  /-- The part is missing, or it nests although no levels are left. -/
  obstacle : refusal.obstacle = .expected part.expectation ∨
    deeper = levels ∧ refusal.obstacle = .tooDeep ∧ ∃ token ∈ after.head?, part.Opens token

/-- Where the readers of parts stop, a parser that leads to them stops. -/
theorem NestsAt.stops (h : NestsAt levels depth before early parser behind index rest)
    (hreader : ∀ (part : NestedPart) (index : Nat) (rest : List Token) (refusal : Refusal),
      part.reader levels ⟨index, rest⟩ = .error refusal → refusal.obstacle.AtPart →
        ∃ inner deeper taken after, rest = taken ++ after ∧
          (part.reader levels).Stops levels depth (some depth) index refusal inner deeper taken
            after)
    (herror : parser ⟨index, rest⟩ = .error refusal) (hat : refusal.obstacle.AtPart) :
    ∃ inner deeper taken after, rest = taken ++ after ∧
      parser.Stops levels depth before index refusal inner deeper taken after := by
  cases h with
  | ends htrack hsame =>
    rw [hsame _ rfl] at herror
    cases herror
  | refuses hrefuses helsewhere =>
    rw [hrefuses] at herror
    cases herror
    exact absurd hat helsewhere
  | @enters part inside us after htrack hearly hreaches hrefuses hinside =>
    obtain ⟨since, hparser⟩ := hreaches after (.inl rfl) inside hrefuses
    rw [hparser] at herror
    cases herror
    obtain ⟨inner, deeper, vs, after, rfl, hstops⟩ := hreader _ _ _ _ hrefuses hinside
    refine ⟨inner, deeper, us ++ vs, after, (List.append_assoc _ _ _).symm, hstops.le, ?_,
      hreaches.trans hstops.reaches, ?_, hstops.obstacle⟩
    · rw [track_append, htrack, hstops.track]
    · rw [List.length_append, ← Nat.add_assoc]
      exact hstops.index

end Parser

namespace NestedPart

/-- By induction on the levels: a refusal of a part is one of the part itself, or one of a part
between its brackets, where a level less is left and a bracket more is open. -/
theorem reader_stops (levels : Nat) : ∀ (part : NestedPart) (depth index : Nat) (rest : List Token)
    (refusal : Refusal), part.reader levels ⟨index, rest⟩ = .error refusal →
      refusal.obstacle.AtPart → ∃ inner deeper taken after, rest = taken ++ after ∧
        (part.reader levels).Stops levels depth (some depth) index refusal inner deeper taken
          after := by
  -- The part itself is reached before anything is taken.
  have hhere (part : NestedPart) {levels depth index : Nat} {rest : List Token} {refusal : Refusal}
      (hindex : refusal.index = index) (hobstacle : refusal.obstacle = .expected part.expectation ∨
        0 = levels ∧ refusal.obstacle = .tooDeep ∧ ∃ token ∈ rest.head?, part.Opens token) :
      ∃ inner deeper taken after, rest = taken ++ after ∧
        (part.reader levels).Stops levels depth (some depth) index refusal inner deeper taken
          after :=
    ⟨part, 0, [], rest, rfl, Nat.zero_le _, rfl, fun _ _ refusal hr => ⟨refusal.since, hr⟩, hindex,
      hobstacle⟩
  induction levels with
  | zero =>
    intro part depth index rest refusal h hat
    by_cases hopens : ∃ token ∈ rest.head?, part.Opens token
    · obtain ⟨token, ht, htoken⟩ := hopens
      obtain ⟨later, rfl⟩ := List.head?_eq_some_iff.mp ht
      rw [reader_zero_opens htoken] at h
      cases h
      exact hhere part rfl (.inr ⟨rfl, rfl, token, ht, htoken⟩)
    · obtain rfl := reader_eq_error h fun token ht htoken => hopens ⟨token, ht, htoken⟩
      exact hhere part rfl (.inl rfl)
  | succ levels ih =>
    intro part depth index rest refusal h hat
    by_cases hopens : ∃ token ∈ rest.head?, part.Opens token
    · obtain ⟨token, ht, htoken⟩ := hopens
      obtain ⟨later, rfl⟩ := List.head?_eq_some_iff.mp ht
      obtain ⟨α, inside, early, behind, hnests, hinside⟩ := exists_inside htoken levels depth index
      obtain ⟨refusal, hrefuses, rfl⟩ := (hinside _ _).mp h
      obtain ⟨inner, deeper, taken, after, rfl, hstops⟩ := (hnests (index + 1) later).stops
        (fun part => ih part (depth + 1)) hrefuses hat
      have htrack : track (some depth) [token] = some (depth + 1) := by
        cases htoken <;> rfl
      have hlength : index + (token :: taken).length = index + 1 + taken.length := by
        rw [List.length_cons]
        omega
      refine ⟨inner, deeper + 1, token :: taken, after, rfl, Nat.succ_le_succ hstops.le, ?_,
        fun rest hrest refusal hr => ?_, ?_, ?_⟩
      · rw [← List.singleton_append, track_append, htrack, hstops.track]
        congr 1
        omega
      · rw [hlength, Nat.add_sub_add_right] at hr
        obtain ⟨since, hr⟩ := hstops.reaches rest hrest refusal hr
        exact ⟨_, (hinside _ _).mpr ⟨_, hr, rfl⟩⟩
      · rw [hlength]
        exact hstops.index
      · refine hstops.obstacle.imp_right fun hdeep => ?_
        exact ⟨congrArg Nat.succ hdeep.1, hdeep.2⟩
    · obtain rfl := reader_eq_error h fun token ht htoken => hopens ⟨token, ht, htoken⟩
      exact hhere part rfl (.inl rfl)

end NestedPart

namespace Parser

variable {α : Type}

/-- A name, outside of parts or where a part could begin as well. -/
theorem nests_name {expectation : Expectation} {before : Option Nat}
    (helsewhere : ¬(Obstacle.expected expectation).AtPart)
    (htrack : ∀ text, next before (.name text) = none) :
    (name expectation).Nests nestingLimit 0 before false fun _ => none :=
  Nests.word helsewhere htrack

theorem wraps_name {expectation : Expectation}
    (helsewhere : ¬(Obstacle.expected expectation).AtPart) : (name expectation).Wraps :=
  nests_name helsewhere fun _ => rfl

theorem wraps_expectWord (written : String) : (expectWord written).Wraps :=
  Nests.map (Nests.take id fun token value ht => by rw [token_eq ht]; rfl)

theorem wraps_eatWord (written : String) : (eatWord written).Wraps :=
  Nests.map (Nests.take? rfl fun token value ht => by rw [token_eq ht]; rfl)

theorem wraps_eat {written : Punctuator} (h : next none (.punctuator written) = none) :
    (eat written).Wraps :=
  Nests.map (Nests.take? rfl fun token value ht => by rw [token_eq ht, h])

theorem wraps_description : description.Wraps := by
  refine Nests.take? rfl fun token read ht => ?_
  cases token <;> cases ht <;> rfl

theorem nests_typeUse : typeUse.Nests nestingLimit 0 (some 0) true fun _ => none :=
  Nests.typeRef nestingLimit 0

theorem nests_constant : constant.Nests nestingLimit 0 (some 0) true fun _ => none :=
  Nests.value nestingLimit 0

theorem wraps_argument : argument.Wraps := by
  refine Nests.bind_late (wraps_name id) fun name => Wraps.colon ?_
  exact Nests.bind_late nests_constant fun _ => Nests.pure rfl

theorem wraps_directiveUse (start : Extent) : (directiveUse start).Wraps := by
  refine Nests.bind_late (wraps_name id) fun name => ?_
  exact Nests.bind_late (Wraps.delimited wraps_argument rfl rfl ListLoop.arguments.advances)
    fun arguments => Nests.pure rfl

theorem wraps_directiveUse? : directiveUse?.Wraps :=
  Wraps.following fun start => Nests.committed (wraps_directiveUse start)

theorem wraps_directives : directives.Wraps :=
  Wraps.collect wraps_directiveUse? ListLoop.directives.advances

theorem wraps_inputValue {expectation : Expectation}
    (helsewhere : ¬(Obstacle.expected expectation).AtPart) : (inputValue expectation).Wraps := by
  refine Nests.bind_late wraps_description fun description => ?_
  refine Nests.bind_late (wraps_name helsewhere) fun name => Nests.committed (Wraps.colon ?_)
  refine Nests.bind_late nests_typeUse fun type => ?_
  refine Nests.bind_late (Wraps.following fun _ => nests_constant) fun default => ?_
  exact Nests.bind_late wraps_directives fun directives => Nests.pure rfl

theorem wraps_argumentDefinitions : argumentDefinitions.Wraps :=
  Nests.map (Wraps.delimited (wraps_inputValue id) rfl rfl ListLoop.argumentDefinitions.advances)

theorem wraps_field : field.Wraps := by
  refine Nests.bind_late wraps_description fun description => ?_
  refine Nests.bind_late (wraps_name id) fun name => Nests.committed ?_
  refine Nests.bind_late wraps_argumentDefinitions fun arguments => Wraps.colon ?_
  refine Nests.bind_late nests_typeUse fun type => ?_
  exact Nests.bind_late wraps_directives fun directives => Nests.pure rfl

theorem wraps_fields : fields.Wraps :=
  Wraps.delimited wraps_field rfl rfl ListLoop.fields.advances

theorem wraps_enumValue : enumValue.Wraps := by
  have hname : (take .enumValueName Token.enumValueName?).Wraps := by
    refine Nests.take id fun token text ht => ?_
    cases token with
    | name written => rfl
    | _ => cases ht
  refine Nests.bind_late wraps_description fun description => ?_
  refine Nests.bind_late hname fun name => ?_
  exact Nests.bind_late (Nests.committed wraps_directives) fun directives => Nests.pure rfl

theorem wraps_interfaces : interfaces.Wraps := by
  have hname : (name .interfaceName).Wraps := wraps_name id
  refine Nests.bind_late (wraps_eatWord _) fun eaten => ?_
  split
  · refine Nests.committed (Nests.bind_late (wraps_eat rfl) fun _ => ?_)
    exact Wraps.separated hname hname ListLoop.interfaces.advances
  · exact Nests.pure rfl

/-- The members of a union follow the mark that stands before default values, and no part begins
there. -/
theorem wraps_unionMembers : unionMembers.Wraps := by
  have hname : (name .unionMember).Wraps := wraps_name id
  have hfirst {before : Option Nat} (htrack : ∀ text, next before (.name text) = none) :
      (separated .pipe (name .unionMember)).Nests nestingLimit 0 before false fun _ => none :=
    Wraps.separated (nests_name id htrack) hname ListLoop.unionMembers.advances
  have hmembers : (eat .pipe >>= fun _ => separated .pipe (name .unionMember)).Nests nestingLimit 0
      (some 0) false fun _ => none := by
    refine Nests.bind_late (Nests.eat .pipe) fun eaten => ?_
    cases eaten with
    | some place => exact hfirst fun _ => rfl
    | none => exact hfirst fun _ => rfl
  exact Nests.ifNext (fun _ => hmembers) (Nests.pure rfl)

/-- The parts after the name of a type. -/
theorem wraps_typeBody (kind : TypeKind) : (typeBody kind).Wraps := by
  cases kind with
  | object =>
    refine Nests.bind_late wraps_interfaces fun interfaces => ?_
    refine Nests.bind_late wraps_directives fun directives => ?_
    exact Nests.bind_late wraps_fields fun fields => Nests.pure rfl
  | interface =>
    refine Nests.bind_late wraps_interfaces fun interfaces => ?_
    refine Nests.bind_late wraps_directives fun directives => ?_
    exact Nests.bind_late wraps_fields fun fields => Nests.pure rfl
  | union =>
    refine Nests.bind_late wraps_directives fun directives => ?_
    exact Nests.bind_late wraps_unionMembers fun members => Nests.pure rfl
  | enum =>
    refine Nests.bind_late wraps_directives fun directives => ?_
    exact Nests.bind_late (Wraps.delimited wraps_enumValue rfl rfl ListLoop.enumValues.advances)
      fun values => Nests.pure rfl
  | inputObject =>
    refine Nests.bind_late wraps_directives fun directives => ?_
    exact Nests.bind_late (Wraps.delimited (wraps_inputValue id) rfl rfl
      ListLoop.inputFields.advances) fun fields => Nests.pure rfl
  | scalar => exact Nests.bind_late wraps_directives fun directives => Nests.pure rfl

theorem wraps_typeDeclaration (kind : TypeKind) (isExtension : Bool) (start : Extent) :
    (typeDeclaration kind isExtension start).Wraps := by
  refine Nests.bind_late (wraps_expectWord _) fun _ => Nests.committed ?_
  refine Nests.bind_late (wraps_name id) fun name => ?_
  refine Nests.bind_late (wraps_typeBody kind) fun ⟨directives, body, block⟩ => ?_
  dsimp only
  split
  · exact Nests.refuse id
  · exact Nests.pure rfl

/-- The type of a root operation stands where a part could begin, but is no part. -/
theorem wraps_rootOperation : rootOperation.Wraps := by
  have hoperation : (take .operation Token.operation?).Wraps := by
    refine Nests.take id fun token operation ht => ?_
    cases token with
    | name written => rfl
    | _ => cases ht
  have htype : Wraps (do let _ ← expect .colon; name .typeName) :=
    Nests.bind_late (Nests.expect .colon) fun _ => nests_name id fun _ => rfl
  refine Nests.bind_late hoperation fun operation => ?_
  exact Nests.bind_late (Nests.committed htype) fun type => Nests.pure rfl

theorem wraps_schemaBlock (isExtension : Bool) (start : Extent) :
    (schemaBlock isExtension start).Wraps := by
  refine Nests.bind_late (wraps_expectWord _) fun _ => Nests.committed ?_
  refine Nests.bind_late wraps_directives fun directives => ?_
  refine Nests.bind_late (Wraps.delimited wraps_rootOperation rfl rfl
    ListLoop.rootOperations.advances) fun ⟨operations, block⟩ => ?_
  dsimp only
  split
  · exact Nests.refuse id
  · exact Nests.pure rfl

theorem wraps_directiveLocation : directiveLocation.Wraps := by
  refine Nests.take id fun token location ht => ?_
  cases token with
  | name written => rfl
  | _ => cases ht

theorem wraps_directiveDeclaration (start : Extent) : (directiveDeclaration start).Wraps := by
  have hlocations : (separated .pipe directiveLocation).Wraps :=
    Wraps.separated wraps_directiveLocation wraps_directiveLocation ListLoop.locations.advances
  refine Nests.bind_late (wraps_expectWord _) fun _ => Nests.committed ?_
  refine Nests.bind_late (Nests.expect .atSign) fun _ => ?_
  refine Nests.bind_late (wraps_name id) fun name => ?_
  refine Nests.bind_late wraps_argumentDefinitions fun arguments => ?_
  refine Nests.bind_late (wraps_eatWord _) fun isRepeatable => ?_
  refine Nests.bind_late (wraps_expectWord _) fun _ => ?_
  refine Nests.bind_late (wraps_eat rfl) fun _ => ?_
  exact Nests.bind_late hlocations fun locations => Nests.pure rfl

theorem wraps_extension (start : Extent) : (extension start).Wraps := by
  refine Nests.bind_peek? fun token => ?_
  split
  · exact Nests.map (wraps_schemaBlock true start)
  · split
    · exact Nests.map (wraps_typeDeclaration _ true start)
    · exact Nests.refuse id
  · exact Nests.refuse id

theorem wraps_describedDefinition (start : Extent) (described : Option (Located Extent String)) :
    (describedDefinition start described).Wraps := by
  refine Nests.bind_peek? fun token => ?_
  split
  · exact Nests.refuse id
  · exact Nests.refuse id
  · split_ifs
    · exact Nests.map (wraps_schemaBlock false start)
    · exact Nests.map (wraps_directiveDeclaration start)
    · exact Nests.bind_late (wraps_expectWord _) fun _ => wraps_extension start
    · exact Nests.refuse id
    · split
      · exact Nests.map (wraps_typeDeclaration _ false start)
      · exact Nests.refuse id
  · exact Nests.refuse id

theorem wraps_definition : definition.Wraps := by
  refine Nests.bind_late wraps_description fun described => ?_
  exact Nests.bind_late Nests.nextPlace fun next => wraps_describedDefinition _ described

theorem wraps_definition? : definition?.Wraps := by
  refine Nests.bind_peek? fun token => ?_
  split
  · exact Nests.pure rfl
  · exact Nests.map wraps_definition

theorem wraps_definitions : (collect definition?).Wraps :=
  Wraps.collect wraps_definition? ListLoop.definitions.advances

end Parser

end SdlGraph
