import SdlGraph.Proofs.Document.Choices
import SdlGraph.Proofs.Document.Coverage

/-!
# Parts of a document are ranges of its tokens

One statement for each construct of the grammar, in the order of the grammar: its parts lie in the
tokens it takes. A definition is taken up behind its description or behind `extend`, so what it is
read from is known together with the tokens before that point.
-/

namespace SdlGraph

/-- A definition that is read from a run of tokens: the run is one of its spellings, its place is
the range of the run, and its parts lie in the run. -/
structure Definition.Lies (start : Nat) (taken : List Token) (definition : Definition Extent) :
    Prop where
  /-- There is a token at least. -/
  nonempty : taken ≠ []
  /-- The run is a spelling. -/
  spelling : taken ∈ definition.spelling
  /-- The place reaches from the first token to the last. -/
  place_eq : definition.place = ⟨start, start + taken.length⟩
  /-- The parts lie in the run. -/
  outlined : Outlined start taken definition.parts

theorem Definition.Lies.outlined_self {start : Nat} {taken : List Token}
    {definition : Definition Extent} (h : definition.Lies start taken) :
    Outlined start taken [definition.outline] := by
  refine h.outlined.part h.nonempty h.spelling fun place hplace => ?_
  rw [← Option.mem_some_iff.mp hplace, h.place_eq]

namespace Parser

open Spelling

variable {start : Nat}

/-- What is read with a place is a part with nothing inside. -/
theorem outlines_leaf {α : Type} {parser : Parser (Located Extent α)}
    {spelling : α → Language Token} (hspans : parser.Spans Located.place)
    (h : parser.Takes fun read taken => taken ∈ spelling read.value)
    (hne : ∀ value, [] ∉ spelling value) :
    parser.Outlines fun read => [.leaf read.place (spelling read.value)] := by
  intro start
  refine ((hspans start).and_takes h).mono fun read taken ⟨hplace, htaken⟩ => ?_
  exact .leaf (fun hnil => hne _ (hnil ▸ htaken)) htaken hplace

theorem outlines_name (expectation : Expectation) :
    (name expectation).Outlines fun name => [name.nameOutline] :=
  outlines_leaf (spans_take _ _) (takes_name expectation) fun _ => nil_not_mem_word

theorem outlines_description : description.Outlines describedOutline := by
  intro start
  refine ((TakesFrom.take? Token.text?).and_takes takes_description).mono
    fun result taken ⟨h, hspelling⟩ => ?_
  cases result with
  | none => exact .nil start taken
  | some written =>
    obtain ⟨hplace, hlength⟩ := h
    refine .leaf (fun hnil => ?_) hspelling (by rw [hplace, hlength])
    rw [hnil] at hlength
    cases hlength

theorem outlines_constant : constant.Outlines fun value => [value.constantOutline] :=
  outlines_leaf spans_constant (takes_constant.mono fun _ _ h => h.1) nil_not_mem_value

theorem outlines_argument : argument.Outlines fun argument => [argument.outline] := by
  refine Outlines.part takes_argument nil_not_mem_argument fun start => ?_
  refine .bind (outlines_name _ start) fun name us hu => ?_
  refine .bind (.of_takes (.expect .colon)) fun _ vs _ => ?_
  refine .bind (outlines_constant _) fun value ws hw => .pure ?_
  rw [List.append_nil]
  exact hu.append hw.after

/-- The name and the arguments of an application lie behind its mark. -/
theorem outlines_directiveUse (place : Extent) : (directiveUse place).Outlines fun use =>
    [use.name.nameOutline] ++ use.arguments.map Argument.outline := by
  intro start
  refine .bind (outlines_name _ start) fun name us hu => ?_
  refine .bind (outlines_argument.delimited _) fun ⟨arguments, block⟩ vs hv => .pure ?_
  rw [List.append_nil]
  exact hu.append hv

theorem outlines_directiveUse? :
    directiveUse?.Outlines fun result => result.toList.map DirectiveUse.outline := by
  intro start
  have hparts : directiveUse?.TakesFrom start fun result taken => ∀ use ∈ result,
      Outlined start taken ([use.name.nameOutline] ++ use.arguments.map Argument.outline) := by
    refine .ifNext (.map (.committed ((outlines_directiveUse _ _).mono ?_))) (.pure (by simp))
    intro use taken hparts other hother
    obtain rfl := Option.mem_some_iff.mp hother
    exact hparts.behind
  refine ((hparts.and (spans_directiveUse? start)).and_takes takes_directiveUse?).mono
    fun result taken ⟨⟨hwithin, hplace⟩, hspelling⟩ => ?_
  cases result with
  | none => exact .nil start taken
  | some use =>
    refine (hwithin use rfl).part (fun hnil => nil_not_mem_directiveUse use (hnil ▸ hspelling.1))
      hspelling.1 fun place hp => ?_
    rw [← Option.mem_some_iff.mp hp]
    exact hplace

theorem outlines_directives : directives.Outlines (List.map DirectiveUse.outline) :=
  outlines_directiveUse?.collect

/-- The name in a type is a run of its tokens, whatever marks stand around it. -/
theorem outlines_typeRef (levels : Nat) :
    (typeRef levels).Outlines fun use => [.leaf use.namePlace (word use.type.baseName)] := by
  have hnullable {inner : Parser (TypeUse Extent)}
      (h : inner.Outlines fun use => [.leaf use.namePlace (word use.type.baseName)]) :
      (typeRef.nullable inner).Outlines
        fun use => [.leaf use.namePlace (word use.type.baseName)] :=
    fun start => .bind (h start) fun use us hu => .ifNext (.pure hu.skip) (.pure hu.skip)
  have hnamed : typeRef.namedType.Outlines
      fun use => [.leaf use.namePlace (word use.type.baseName)] :=
    fun start => .bind (outlines_name _ start) fun name us hu => .pure hu.skip
  induction levels with
  | zero =>
    intro start
    refine .bind_peek? fun next => ?_
    split
    next => exact .refuse
    next => exact hnullable hnamed start
  | succ levels ih =>
    have hlist (place : Extent) : (committed (typeRef.listType (typeRef levels) place)).Outlines
        fun use => [.leaf use.namePlace (word use.type.baseName)] := by
      intro start
      refine .committed (.bind (ih start) fun element us hu => ?_)
      exact .bind (.of_takes (.expect .rightBracket)) fun _ vs _ => .pure hu.skip
    intro start
    refine .ifNext ?_ (hnullable hnamed start)
    exact (hnullable (hlist _) _).mono fun _ _ h => h.behind

/-- The name in a type lies in the tokens taken, and the place of the type is their range. -/
theorem takesFrom_typeUse : typeUse.TakesFrom start fun type taken =>
    Outlined start taken [.leaf type.namePlace (word type.type.baseName)] ∧
      type.place = ⟨start, start + taken.length⟩ :=
  (outlines_typeRef nestingLimit start).and (spans_typeUse start)

theorem outlines_typeUse : typeUse.Outlines fun type => [type.outline] := by
  intro start
  refine (takesFrom_typeUse.and_takes takes_typeUse).mono
    fun type taken ⟨⟨hname, hplace⟩, hspelling, _⟩ => ?_
  refine hname.part hname.ne_nil hspelling fun place hp => ?_
  rw [← Option.mem_some_iff.mp hp, hplace]

theorem outlines_inputValue (expectation : Expectation) :
    (inputValue expectation).Outlines fun input => [input.outline] := by
  refine Outlines.part (takes_inputValue expectation) nil_not_mem_inputValue fun start => ?_
  refine .bind (outlines_description start) fun description us hu => ?_
  refine .bind (outlines_name _ _) fun name vs hv => .committed ?_
  refine .bind (.of_takes (.expect .colon)) fun _ ws _ => ?_
  refine .bind (outlines_typeUse _) fun type xs hx => ?_
  refine .bind ((Outlines.following fun _ => outlines_constant) _) fun default ys hy => ?_
  refine .bind (outlines_directives _) fun uses zs hz => .pure ?_
  rw [List.append_nil]
  exact hu.append (hv.append (hx.append (hy.append hz)).after)

theorem outlines_argumentDefinitions :
    argumentDefinitions.Outlines (List.map InputValue.outline) :=
  fun start => .map ((outlines_inputValue _).delimited start)

theorem outlines_field : field.Outlines fun field => [field.outline] := by
  refine Outlines.part takes_field nil_not_mem_field fun start => ?_
  refine .bind (outlines_description start) fun description us hu => ?_
  refine .bind (outlines_name _ _) fun name vs hv => .committed ?_
  refine .bind (outlines_argumentDefinitions _) fun arguments ws hw => ?_
  refine .bind (.of_takes (.expect .colon)) fun _ xs _ => ?_
  refine .bind (outlines_typeUse _) fun type ys hy => ?_
  refine .bind (outlines_directives _) fun uses zs hz => .pure ?_
  rw [List.append_nil]
  exact hu.append (hv.append (hw.append (hy.append hz).after))

theorem outlines_enumValue : enumValue.Outlines fun value => [value.outline] := by
  refine Outlines.part takes_enumValue nil_not_mem_enumValue fun start => ?_
  refine .bind (outlines_description start) fun description us hu => ?_
  refine .bind (outlines_leaf (spans_take _ _) (takes_enumValueName.mono fun _ _ h => h.1)
    (fun _ => nil_not_mem_word) _) fun name vs hv => ?_
  refine .bind (.committed (outlines_directives _)) fun uses ws hw => .pure ?_
  rw [List.append_nil]
  exact hu.append (hv.append hw)

/-- Interfaces lie behind their keyword. -/
theorem outlines_interfaces : interfaces.Outlines (List.map Located.nameOutline) := by
  intro start
  refine .bind (.of_takes (.eatWord _)) fun eaten us _ => ?_
  cases eaten with
  | false => exact .pure (.nil _ _)
  | true =>
    refine .committed (.bind (.of_takes (.eat .amp)) fun _ vs _ => ?_)
    exact ((outlines_name _).separated _).mono fun names ws hw => hw.after.after

/-- Members lie behind the equals sign. -/
theorem outlines_unionMembers : unionMembers.Outlines (List.map Located.nameOutline) := by
  refine fun start => .ifNext (.bind (.of_takes (.eat .pipe)) fun _ us _ => ?_) (.pure (.nil _ _))
  exact ((outlines_name _).separated _).mono fun names vs hv => hv.after.behind

/-- The interfaces, directives and fields of an object or interface type. -/
theorem outlines_composite {make : List (Located Extent String) → List (Field Extent) →
      TypeBody Extent}
    (hmake : ∀ names fields uses, (make names fields).outlines uses =
      names.map Located.nameOutline ++ (uses.map DirectiveUse.outline ++
        fields.map Field.outline)) :
    Outlines (do
      let interfaces ← interfaces
      let directives ← directives
      let (fields, block) ← fields
      pure (directives, make interfaces fields, block)) fun read => read.2.1.outlines read.1 := by
  intro start
  refine .bind (outlines_interfaces start) fun names us hu => ?_
  refine .bind (outlines_directives _) fun uses vs hv => ?_
  refine .bind (outlines_field.delimited _) fun ⟨fields, block⟩ ws hw => .pure ?_
  show Outlined start (us ++ (vs ++ (ws ++ []))) ((make names fields).outlines uses)
  rw [List.append_nil, hmake]
  exact hu.append (hv.append hw)

/-- Directives and what else there is in a type without interfaces. -/
theorem outlines_simple {α : Type} {parser : Parser α} {contents : α → List (Outline Extent)}
    {make : α → TypeBody Extent × Option Extent} (h : parser.Outlines contents)
    (hmake : ∀ value uses,
      (make value).1.outlines uses = uses.map DirectiveUse.outline ++ contents value) :
    Outlines (do
      let directives ← directives
      let value ← parser
      pure (directives, make value)) fun read => read.2.1.outlines read.1 := by
  intro start
  refine .bind (outlines_directives start) fun uses us hu => ?_
  refine .bind (h _) fun value vs hv => .pure ?_
  show Outlined start (us ++ (vs ++ [])) ((make value).1.outlines uses)
  rw [List.append_nil, hmake]
  exact hu.append hv

/-- What is read behind the name of a type. -/
theorem outlines_typeBody (kind : TypeKind) :
    (typeBody kind).Outlines fun read => read.2.1.outlines read.1 := by
  cases kind with
  | object => exact outlines_composite fun _ _ _ => rfl
  | interface => exact outlines_composite fun _ _ _ => rfl
  | union => exact outlines_simple outlines_unionMembers fun _ _ => rfl
  | enum => exact outlines_simple outlines_enumValue.delimited fun _ _ => rfl
  | inputObject => exact outlines_simple (outlines_inputValue _).delimited fun _ _ => rfl
  | scalar =>
    intro start
    exact .bind (outlines_directives start) fun uses us hu => .pure (hu.append (.nil _ []))

theorem outlines_rootOperation : rootOperation.Outlines fun root => [root.outline] := by
  refine Outlines.part takes_rootOperation nil_not_mem_rootOperation fun start => ?_
  refine .bind (outlines_leaf (spans_take _ _) takes_operation (fun _ => nil_not_mem_word) start)
    fun operation us hu => ?_
  have htail : Outlines (do let _ ← expect .colon; name .typeName)
      fun type => [type.nameOutline] := by
    intro start
    refine .bind (.of_takes (.expect .colon)) fun _ us _ => ?_
    exact (outlines_name _ _).mono fun type vs hv => hv.after
  refine .bind (htail _).committed fun type vs hv => .pure ?_
  rw [List.append_nil]
  exact hu.append hv

section

variable {first : Nat} {before : List Token} {described : List (Outline Extent)}
  (hbefore : Outlined first before described) (place : Extent)

include hbefore

/-- A type declaration behind some tokens: its parts lie in these and its own. -/
theorem outlines_typeDeclaration (kind : TypeKind) (isExtension : Bool) :
    (typeDeclaration kind isExtension place).TakesFrom (first + before.length)
      fun declaration taken =>
        Outlined first (before ++ taken) (described ++ declaration.parts) := by
  refine .bind (.of_takes (.expectWord _)) fun _ us _ => .committed ?_
  refine .bind (outlines_name _ _) fun name vs hv => ?_
  refine .bind (outlines_typeBody kind _) fun ⟨uses, body, block⟩ ws hw => ?_
  dsimp only
  split
  next => exact .refuse
  next =>
    refine .pure ?_
    rw [List.append_nil]
    exact hbefore.append (hv.append hw).after

/-- A schema block behind some tokens. -/
theorem outlines_schemaBlock (isExtension : Bool) :
    (schemaBlock isExtension place).TakesFrom (first + before.length)
      fun schema taken => Outlined first (before ++ taken) (described ++ schema.parts) := by
  refine .bind (.of_takes (.expectWord _)) fun _ us _ => .committed ?_
  refine .bind (outlines_directives _) fun uses vs hv => ?_
  refine .bind (outlines_rootOperation.delimited _) fun ⟨operations, block⟩ ws hw => ?_
  dsimp only
  split
  next => exact .refuse
  next =>
    refine .pure ?_
    rw [List.append_nil]
    exact hbefore.append (hv.append hw).after

/-- A directive declaration behind some tokens. -/
theorem outlines_directiveDeclaration :
    (directiveDeclaration place).TakesFrom (first + before.length)
      fun declaration taken =>
        Outlined first (before ++ taken) (described ++ declaration.parts) := by
  have hlocation : directiveLocation.Outlines fun location => [location.locationOutline] :=
    outlines_leaf (spans_take _ _) takes_location fun _ => nil_not_mem_word
  refine .bind (.of_takes (.expectWord _)) fun _ ss _ => .committed ?_
  refine .bind (.of_takes (.expect .atSign)) fun _ ts _ => ?_
  refine .bind (outlines_name _ _) fun name us hu => ?_
  refine .bind (outlines_argumentDefinitions _) fun arguments vs hv => ?_
  refine .bind (.of_takes (.eatWord _)) fun isRepeatable ws _ => ?_
  refine .bind (.of_takes (.expectWord _)) fun _ xs _ => ?_
  refine .bind (.of_takes (.eat .pipe)) fun _ ys _ => ?_
  refine .bind (hlocation.separated _) fun locations zs hz => .pure ?_
  rw [List.append_nil]
  exact hbefore.append (hu.append (hv.append hz.after.after.after)).after.after

end

theorem outlines_extension (first : Nat) (before : List Token) (place : Extent) :
    (extension place).TakesFrom (first + before.length) fun definition taken =>
      Outlined first (before ++ taken) definition.parts := by
  have hbefore : Outlined first before [] := .nil first before
  refine .bind_peek? fun next => ?_
  split
  next => exact .map (outlines_schemaBlock hbefore place true)
  next word _ =>
    split
    next kind _ => exact .map (outlines_typeDeclaration hbefore place kind true)
    next => exact .refuse
  next => exact .refuse

/-- The description of a definition is the first of its parts. -/
theorem outlines_describedDefinition {first : Nat} {before : List Token}
    {described : Option (Located Extent String)}
    (hbefore : Outlined first before (describedOutline described)) (place : Extent) :
    (describedDefinition place described).TakesFrom (first + before.length)
      fun definition taken => Outlined first (before ++ taken) definition.parts := by
  refine .bind_peek? fun next => ?_
  split
  next => exact .refuse
  next => exact .refuse
  next word =>
    split_ifs
    · exact .map (outlines_schemaBlock hbefore place false)
    · exact .map (outlines_directiveDeclaration hbefore place)
    · refine .bind (.of_takes (.expectWord _)) fun _ us _ => ?_
      rw [Nat.add_assoc, ← List.length_append]
      simpa only [List.append_assoc] using outlines_extension _ (before ++ us) place
    · exact .refuse
    · split
      next kind _ => exact .map (outlines_typeDeclaration hbefore place kind false)
      next => exact .refuse
  next => exact .refuse

theorem outlines_definition : definition.Outlines Definition.parts := fun start =>
  .bind (outlines_description start) fun _ _ hu =>
    .bind_nextPlace (outlines_describedDefinition hu _)

theorem lies_definition (start : Nat) : definition.TakesFrom start fun definition taken =>
    definition.Lies start taken := by
  refine (((outlines_definition start).and (spans_definition start)).and_takes
    takes_definition).mono fun definition taken ⟨⟨houtlined, hplace⟩, hspelling, _⟩ => ?_
  exact ⟨fun hnil => nil_not_mem_definition definition (hnil ▸ hspelling), hspelling, hplace,
    houtlined⟩

/-- There is a definition unless the tokens are at their end. -/
theorem lies_definition? (start : Nat) : definition?.TakesFrom start fun result taken =>
    result.elim (taken = []) (Definition.Lies start taken) := by
  refine .bind_peek? fun next => ?_
  split
  next => exact .pure rfl
  next => exact .map (lies_definition start)

/-- Definitions are read until there are no tokens left. -/
theorem rest_eq_nil_of_collect {cursor last : Cursor} {definitions : List (Definition Extent)}
    (h : collect definition? cursor = .ok (definitions, last)) : last.rest = [] := by
  obtain ⟨-, us, -, stop, -, -, hstop⟩ :=
    Takes.collect_eq_ok takes_definition? nil_not_mem_definition h
  obtain ⟨taken, -, hrest, -⟩ := takes_definition? stop none last hstop
  rw [rest_eq_nil_of_definition? hstop] at hrest
  exact (List.append_eq_nil_iff.mp hrest.symm).2

end Parser

/-- The definitions of a document lie in consecutive runs that are all of its tokens. -/
theorem Document.consecutive_of_read {tokens : List Token} {document : Document Extent}
    (h : Document.read tokens = .ok document) :
    Consecutive (fun start taken definition => definition.Lies start taken) 0 tokens
      document.definitions := by
  unfold Document.read at h
  split at h
  next => cases h
  next =>
    split at h
    next definitions last hread =>
      cases h
      have hcollect := (Parser.TakesFrom.collect Parser.lies_definition? fun _ _ hlies =>
        hlies.nonempty rfl : Parser.TakesFrom 0 _ _)
      obtain ⟨taken, ⟨us, vs, hus, rfl, rfl⟩, hrest, -⟩ := hcollect _ _ _ rfl hread
      rw [Parser.rest_eq_nil_of_collect hread, List.append_nil, List.append_nil] at hrest
      rwa [show tokens = us from hrest]
    next => cases h

/-- The parts of a document lie in its tokens. -/
theorem Document.outlined_of_read {tokens : List Token} {document : Document Extent}
    (h : Document.read tokens = .ok document) : Outlined 0 tokens document.outline :=
  ((document.consecutive_of_read h).mono fun _ _ _ hlies => hlies.outlined_self).outlined

/-- All places of a document are ranges of the tokens it is read from. -/
theorem Document.inside_of_read {tokens : List Token} {document : Document Extent}
    (h : Document.read tokens = .ok document) :
    ∀ place ∈ document.places, place.Inside 0 tokens.length := by
  intro place hp
  have hinside := (Document.outlined_of_read h).inside_placesOf place (mem_placesOf_outline.mpr hp)
  rwa [Nat.zero_add] at hinside

/-- Places of a document of which none lies inside another come in the order of its tokens. -/
theorem Document.apart_of_read {tokens : List Token} {document : Document Extent}
    {places : List Extent} (h : Document.read tokens = .ok document)
    (hchosen : Outline.Chosen document.outline places) : Apart 0 tokens.length places := by
  have hapart := (Document.outlined_of_read h).apart hchosen
  rwa [Nat.zero_add] at hapart

end SdlGraph
