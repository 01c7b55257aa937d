import SdlGraph.Proofs.Document.Faithful
import SdlGraph.Proofs.Document.Placement

/-!
# Outlines

The outline of a document says how it is put together: each part with its place, if that is kept,
with its spelling and with the parts inside it, in written order. A part lies in a token list as a
run of the tokens, and parts next to each other lie in runs one after the other. So the place of a
part is the range of a run inside the run of what it belongs to, and parts of which none lies inside
another never overlap.
-/

namespace SdlGraph

open Spelling

/-- A part of a document: its place, if it is kept, how the part may be written, and the parts
inside it in written order. -/
inductive Outline (σ : Type) where
  /-- A part with what is inside it. -/
  | part (place? : Option σ) (spelling : Language Token) (within : List (Outline σ))

variable {σ : Type}

/-- A part with nothing inside. -/
def Outline.leaf (place : σ) (spelling : Language Token) : Outline σ :=
  part (some place) spelling []

/-- The outline of a name. -/
def Located.nameOutline (name : Located σ String) : Outline σ := .leaf name.place (word name.value)

/-- The outline of a description, if there is one. -/
def describedOutline (description : Option (Located σ String)) : List (Outline σ) :=
  description.toList.map fun written => .leaf written.place (text written.value)

/-- The outline of a constant. -/
def Located.constantOutline (constant : Located σ Value) : Outline σ :=
  .leaf constant.place constant.value.spelling

/-- The outline of a type, with its name under the wrappers. -/
def TypeUse.outline (written : TypeUse σ) : Outline σ :=
  .part (some written.place) written.type.spelling
    [.leaf written.namePlace (word written.type.baseName)]

/-- The outline of an argument given to a directive. -/
def Argument.outline (argument : Argument σ) : Outline σ :=
  .part none argument.spelling [argument.name.nameOutline, argument.value.constantOutline]

/-- The outline of a directive application. -/
def DirectiveUse.outline (use : DirectiveUse σ) : Outline σ :=
  .part (some use.place) use.spelling
    (use.name.nameOutline :: use.arguments.map Argument.outline)

/-- The outline of an argument definition or a field of an input object type. -/
def InputValue.outline (input : InputValue σ) : Outline σ :=
  .part none input.spelling
    (describedOutline input.description ++ ([input.name.nameOutline] ++ ([input.type.outline] ++
      (input.default.toList.map Located.constantOutline ++
        input.directives.map DirectiveUse.outline))))

/-- The outline of a field. -/
def Field.outline (field : Field σ) : Outline σ :=
  .part none field.spelling
    (describedOutline field.description ++ ([field.name.nameOutline] ++
      (field.arguments.map InputValue.outline ++ ([field.type.outline] ++
        field.directives.map DirectiveUse.outline))))

/-- The outline of an enum value. -/
def EnumValue.outline (value : EnumValue σ) : Outline σ :=
  .part none value.spelling
    (describedOutline value.description ++ ([value.name.nameOutline] ++
      value.directives.map DirectiveUse.outline))

/-- The parts of a type that follow its directives. -/
def TypeBody.contents : TypeBody σ → List (Outline σ)
  | object _ fields => fields.map Field.outline
  | interface _ fields => fields.map Field.outline
  | union members => members.map Located.nameOutline
  | enum values => values.map EnumValue.outline
  | inputObject fields => fields.map InputValue.outline
  | scalar => []

/-- What follows the name of a type. -/
def TypeBody.outlines (directives : List (DirectiveUse σ)) (body : TypeBody σ) : List (Outline σ) :=
  body.interfaces.map Located.nameOutline ++
    (directives.map DirectiveUse.outline ++ body.contents)

/-- The parts of a type declaration. -/
def TypeDeclaration.parts (declaration : TypeDeclaration σ) : List (Outline σ) :=
  [declaration.name.nameOutline] ++ declaration.body.outlines declaration.directives

/-- The outline of a root operation. -/
def RootOperation.outline (root : RootOperation σ) : Outline σ :=
  .part none root.spelling
    [.leaf root.operation.place (word root.operation.value.keyword), root.type.nameOutline]

/-- The parts of a schema block. -/
def SchemaBlock.parts (block : SchemaBlock σ) : List (Outline σ) :=
  block.directives.map DirectiveUse.outline ++ block.operations.map RootOperation.outline

/-- The outline of a directive location. -/
def Located.locationOutline (location : Located σ DirectiveLocation) : Outline σ :=
  .leaf location.place location.locationSpelling

/-- The parts of a directive declaration. -/
def DirectiveDeclaration.parts (declaration : DirectiveDeclaration σ) : List (Outline σ) :=
  [declaration.name.nameOutline] ++ (declaration.arguments.map InputValue.outline ++
    declaration.locations.map Located.locationOutline)

/-- The parts of a definition or extension. -/
def Definition.parts : Definition σ → List (Outline σ)
  | schema description block => describedOutline description ++ block.parts
  | extendSchema block => block.parts
  | type description declaration => describedOutline description ++ declaration.parts
  | extendType declaration => declaration.parts
  | directive description declaration => describedOutline description ++ declaration.parts

/-- The outline of a definition or extension. -/
def Definition.outline (definition : Definition σ) : Outline σ :=
  .part (some definition.place) definition.spelling definition.parts

/-- Parts that lie in runs of tokens one after the other, the first of the tokens having index
`start`. Tokens between the runs belong to what the parts are parts of. -/
inductive Outlined : Nat → List Token → List (Outline Extent) → Prop
  /-- Tokens behind the last part. -/
  | nil (start : Nat) (taken : List Token) : Outlined start taken []
  /-- A part behind some tokens, and what lies behind it. -/
  | cons {start first stop : Nat} {gap run later : List Token} {place? : Option Extent}
      {spelling : Language Token} {within rest : List (Outline Extent)}
      (hfirst : first = start + gap.length) (hstop : stop = first + run.length)
      (hrun : run ≠ []) (hspelling : run ∈ spelling)
      (hplace : ∀ place ∈ place?, place = ⟨first, stop⟩)
      (hwithin : Outlined first run within) (hrest : Outlined stop later rest) :
      Outlined start (gap ++ (run ++ later)) (.part place? spelling within :: rest)

namespace Outlined

variable {start : Nat} {us vs : List Token} {parts parts' : List (Outline Extent)}

/-- Tokens in front of the first part. -/
theorem after (h : Outlined (start + us.length) vs parts) : Outlined start (us ++ vs) parts := by
  generalize hmiddle : start + us.length = middle at h
  cases h with
  | nil => exact .nil start _
  | @cons _ first stop gap run later _ _ _ _ hfirst hstop hrun hspelling hplace hwithin hrest =>
    rw [← List.append_assoc]
    refine .cons ?_ hstop hrun hspelling hplace hwithin hrest
    rw [hfirst, ← hmiddle, List.length_append, Nat.add_assoc]

/-- A token in front of the first part. -/
theorem behind {token : Token} (h : Outlined (start + 1) vs parts) :
    Outlined start (token :: vs) parts := by
  have hafter : Outlined (start + [token].length) vs parts := h
  exact hafter.after

/-- Parts behind parts. -/
theorem append (h : Outlined start us parts) (h' : Outlined (start + us.length) vs parts') :
    Outlined start (us ++ vs) (parts ++ parts') := by
  induction h with
  | nil => exact h'.after
  | @cons start first stop gap run later _ _ _ _ hfirst hstop hrun hspelling hplace hwithin hrest
      ihwithin ihrest =>
    rw [List.append_assoc, List.append_assoc]
    refine .cons hfirst hstop hrun hspelling hplace hwithin (ihrest ?_)
    rw [hstop, hfirst]
    simpa only [List.length_append, Nat.add_assoc] using h'

/-- Tokens behind the last part. -/
theorem skip (h : Outlined start us parts) : Outlined start (us ++ vs) parts := by
  simpa using h.append (.nil _ vs)

/-- All tokens as one part. -/
theorem part {place? : Option Extent} {spelling : Language Token} (h : Outlined start us parts)
    (hne : us ≠ []) (hspelling : us ∈ spelling)
    (hplace : ∀ place ∈ place?, place = ⟨start, start + us.length⟩) :
    Outlined start us [.part place? spelling parts] := by
  have hall : Outlined start ([] ++ (us ++ [])) [.part place? spelling parts] :=
    .cons rfl rfl hne hspelling hplace h (.nil _ [])
  rwa [List.append_nil] at hall

/-- All tokens as one part with nothing inside. -/
theorem leaf {place : Extent} {spelling : Language Token} (hne : us ≠ [])
    (hspelling : us ∈ spelling) (hplace : place = ⟨start, start + us.length⟩) :
    Outlined start us [.leaf place spelling] := by
  refine (nil start us).part hne hspelling fun other hother => ?_
  rw [← hplace, Option.mem_some_iff.mp hother]

end Outlined

/-- Items that lie in consecutive runs of tokens, with no tokens before, between or behind. -/
inductive Consecutive {α : Type} (item : Nat → List Token → α → Prop) :
    Nat → List Token → List α → Prop
  /-- No items. -/
  | nil (start : Nat) : Consecutive item start [] []
  /-- An item and those behind it. -/
  | cons {start : Nat} {us vs : List Token} {value : α} {values : List α} (h : item start us value)
      (hrest : Consecutive item (start + us.length) vs values) :
      Consecutive item start (us ++ vs) (value :: values)

theorem Consecutive.mono {α : Type} {item item' : Nat → List Token → α → Prop} {start : Nat}
    {taken : List Token} {values : List α} (h : Consecutive item start taken values)
    (himp : ∀ start taken value, item start taken value → item' start taken value) :
    Consecutive item' start taken values := by
  induction h with
  | nil => exact .nil _
  | cons h _ ih => exact .cons (himp _ _ _ h) ih

/-- Parts in consecutive runs lie one after the other. -/
theorem Consecutive.outlined {α : Type} {outline : α → Outline Extent} {start : Nat}
    {taken : List Token} {values : List α}
    (h : Consecutive (fun start taken value => Outlined start taken [outline value]) start taken
      values) : Outlined start taken (values.map outline) := by
  induction h with
  | nil => exact .nil _ _
  | cons h _ ih => exact h.append ih

/-- Places chosen from parts in written order, none of them inside another: a part is chosen as a
whole, or places are chosen inside it. -/
inductive Outline.Chosen : List (Outline σ) → List σ → Prop
  /-- No more places. -/
  | nil (parts : List (Outline σ)) : Chosen parts []
  /-- The place of a part. -/
  | whole {place : σ} {spelling : Language Token} {within rest : List (Outline σ)} {places : List σ}
      (h : Chosen rest places) :
      Chosen (.part (some place) spelling within :: rest) (place :: places)
  /-- Places inside a part. -/
  | inside {place? : Option σ} {spelling : Language Token} {within rest : List (Outline σ)}
      {places places' : List σ} (hwithin : Chosen within places) (h : Chosen rest places') :
      Chosen (.part place? spelling within :: rest) (places ++ places')

/-- A part lies in one token at least. -/
theorem Outlined.ne_nil {start : Nat} {taken : List Token} {part : Outline Extent}
    (h : Outlined start taken [part]) : taken ≠ [] := by
  cases h with
  | cons _ _ hrun =>
    exact List.append_ne_nil_of_right_ne_nil _ (List.append_ne_nil_of_left_ne_nil hrun _)

theorem Apart.mono {start start' stop stop' : Nat} {places : List Extent}
    (h : Apart start stop places) (hstart : start' ≤ start) (hstop : stop ≤ stop') :
    Apart start' stop' places := by
  refine ⟨fun place hp => ?_, h.2⟩
  have ⟨hfirst, hlt, hlast⟩ := h.1 place hp
  exact ⟨hstart.trans hfirst, hlt, hlast.trans hstop⟩

/-- Places behind places. -/
theorem Apart.append {start middle stop : Nat} {places places' : List Extent}
    (h : Apart start middle places) (h' : Apart middle stop places') (hle : start ≤ middle)
    (hle' : middle ≤ stop) : Apart start stop (places ++ places') := by
  refine ⟨List.forall_mem_append.mpr ⟨(h.mono (Nat.le_refl _) hle').1,
    (h'.mono hle (Nat.le_refl _)).1⟩, ?_⟩
  refine List.pairwise_append.mpr ⟨h.2, h'.2, fun earlier he later hl => ?_⟩
  exact (h.1 earlier he).2.2.trans (h'.1 later hl).1

/-- A place by itself. -/
theorem Apart.singleton {place : Extent} (hlt : place.first < place.stop) :
    Apart place.first place.stop [place] :=
  ⟨List.forall_mem_singleton.mpr ⟨Nat.le_refl _, hlt, Nat.le_refl _⟩, List.pairwise_singleton ..⟩

/-- Parts of which none lies inside another do not overlap, and come in written order. -/
theorem Outlined.apart {start : Nat} {taken : List Token} {parts : List (Outline Extent)}
    {places : List Extent} (h : Outlined start taken parts)
    (hchosen : Outline.Chosen parts places) : Apart start (start + taken.length) places := by
  induction h generalizing places with
  | nil =>
    cases hchosen
    exact ⟨List.forall_mem_nil _, .nil⟩
  | @cons start first stop gap run later place? spelling within rest hfirst hstop hrun hspelling
      hplace hwithin hrest ihwithin ihrest =>
    have hpos : 0 < run.length := List.length_pos_iff.mpr hrun
    have hlast : start + (gap ++ (run ++ later)).length = stop + later.length := by
      rw [hstop, hfirst, List.length_append, List.length_append]
      omega
    rw [hlast]
    -- What is chosen in the run of this part stands before what is chosen behind it.
    have hone {inner places' : List Extent} (hinner : Apart first stop inner)
        (hplaces' : Outline.Chosen rest places') :
        Apart start (stop + later.length) (inner ++ places') :=
      (hinner.mono (by omega) (Nat.le_refl _)).append (ihrest hplaces') (by omega) (by omega)
    cases hchosen with
    | nil => exact ⟨List.forall_mem_nil _, .nil⟩
    | @whole place _ _ _ places hplaces =>
      have hself : Apart first stop [place] := by
        rw [hplace place rfl]
        exact Apart.singleton (show first < stop by omega)
      exact hone hself hplaces
    | inside hinner hplaces => exact hone (hstop ▸ ihwithin hinner) hplaces

namespace Outline.Chosen

variable {parts parts' : List (Outline σ)} {places places' : List σ}

/-- A part from which no place is chosen. -/
theorem leave {part : Outline σ} (h : Chosen parts places) : Chosen (part :: parts) places := by
  obtain ⟨place?, spelling, within⟩ := part
  exact .inside (.nil within) h

theorem append (h : Chosen parts places) (h' : Chosen parts' places') :
    Chosen (parts ++ parts') (places ++ places') := by
  induction h with
  | nil parts =>
    induction parts with
    | nil => exact h'
    | cons part parts ih => exact ih.leave
  | whole h ih => exact .whole ih
  | inside hwithin h ihwithin ih =>
    rw [List.append_assoc]
    exact .inside hwithin ih

/-- Places chosen in each item of a list. -/
theorem flatMap {α : Type} {outline : α → Outline σ} {chosen : α → List σ} {items : List α}
    (h : ∀ item ∈ items, Chosen [outline item] (chosen item)) :
    Chosen (items.map outline) (items.flatMap chosen) := by
  induction items with
  | nil => exact .nil []
  | cons item items ih =>
    rw [List.forall_mem_cons] at h
    exact h.1.append (ih h.2)

/-- A place chosen in each item of a list. -/
theorem map {α : Type} {outline : α → Outline σ} {place : α → σ}
    (h : ∀ item, Chosen [outline item] [place item]) (items : List α) :
    Chosen (items.map outline) (items.map place) := by
  rw [List.map_eq_flatMap (f := place)]
  exact flatMap fun item _ => h item

end Outline.Chosen

end SdlGraph
